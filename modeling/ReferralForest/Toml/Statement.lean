import ReferralForest.Toml.Text
import ReferralForest.Toml.Value

/-!
# Statements of a TOML document

A document is read as a list of statements, one a line: a key with its value, or
the header of a table or of an element of a list of tables. Arrays and inline
tables nest less than 80 deep, and a dotted key has less than 80 parts.
-/

namespace ReferralForest.Toml

inductive Statement
  | setting (path : List String) (key : String) (value : Value)
  | header (path : List String) (key : String)
  | element (path : List String) (key : String)

namespace Statement
open Text (isBlank isControl)
open Scalar (symbol?)

def skipBlanks (cs : List Char) : List Char := cs.dropWhile isBlank

def skipLines : (inComment : Bool) → List Char → List Char
  | _, [] => []
  | inComment, c :: cs =>
    if c = '\n' then skipLines false cs
    else if c = '\r' && Text.startsLine cs then skipLines inComment cs
    else if inComment then if isControl c then c :: cs else skipLines true cs
    else if isBlank c then skipLines false cs
    else if c = '#' then skipLines true cs
    else c :: cs

def lineEnd? (cs : List Char) : Option (List Char) :=
  let cs := skipBlanks cs
  let cs := match cs with
    | '#' :: comment => comment.dropWhile fun c => !isControl c
    | cs => cs
  match cs with
  | [] => some []
  | '\n' :: cs => some cs
  | '\r' :: '\n' :: cs => some cs
  | _ => none

def isBare (c : Char) : Bool := c.isAlphanum || c = '_' || c = '-'

def simpleKey? (cs : List Char) : Option (String × List Char) :=
  match Text.readLine? cs with
  | some (key, rest) => some (String.ofList key, rest)
  | none =>
    let bare := cs.takeWhile isBare
    if bare.isEmpty then none else some (String.ofList bare, cs.dropWhile isBare)

def key? : (parts : Nat) → List Char → Option (List String × List Char)
  | 0, _ => none
  | parts + 1, cs => do
    let (first, cs) ← simpleKey? (skipBlanks cs)
    match skipBlanks cs with
    | '.' :: cs =>
      let (others, cs) ← key? parts cs
      return (first :: others, cs)
    | cs => return ([first], cs)

def dottedKey? (cs : List Char) : Option (List String × String × List Char) := do
  let (parts, cs) ← key? 79 cs
  return (parts.dropLast, ← parts.getLast?, cs)

def items? (value : List Char → Option (Value × List Char)) :
    (fuel : Nat) → List Char → Option (List Value × List Char)
  | 0, _ => none
  | fuel + 1, cs =>
    match skipLines false cs with
    | ']' :: cs => some ([], cs)
    | cs => do
      let (item, cs) ← value cs
      match skipLines false cs with
      | ']' :: cs => return ([item], cs)
      | ',' :: cs =>
        let (others, cs) ← items? value fuel cs
        return (item :: others, cs)
      | _ => none

def settings? (value : List Char → Option (Value × List Char)) :
    (fuel : Nat) → Table → List Char → Option (Table × List Char)
  | 0, _, _ => none
  | fuel + 1, t, cs => do
    let (path, key, cs) ← dottedKey? cs
    let (v, cs) ← value (skipBlanks (← symbol? '=' cs))
    let t ← t.setDotted path key v .inline
    match skipBlanks cs with
    | '\x7d' :: cs => return (t, cs)
    | ',' :: cs => settings? value fuel t cs
    | _ => none

/-- A value that nests at most as deep as `depth`. -/
def value? : (depth : Nat) → List Char → Option (Value × List Char)
  | depth, cs =>
    match cs with
    | '[' :: rest =>
      match depth with
      | 0 => none
      | depth + 1 => (items? (value? depth) (rest.length + 1) rest).map fun (items, cs) =>
        (.array items, cs)
    | '\x7b' :: rest =>
      match depth with
      | 0 => none
      | depth + 1 =>
        match skipBlanks rest with
        | '\x7d' :: cs => some (.table .inline [], cs)
        | rest => (settings? (value? depth) (rest.length + 1) [] rest).map fun (t, cs) =>
          (.table .inline t, cs)
    | cs =>
      match Text.read? cs with
      | some (text, cs) => some (.string (String.ofList text), cs)
      | none => (Scalar.read? cs).map fun (s, cs) => (.scalar s, cs)

def setting? (cs : List Char) : Option (Statement × List Char) := do
  let (path, key, cs) ← dottedKey? cs
  let (value, cs) ← value? 79 (skipBlanks (← symbol? '=' cs))
  return (setting path key value, ← lineEnd? cs)

def header? (cs : List Char) : Option (Statement × List Char) := do
  let (path, key, cs) ← dottedKey? cs
  return (header path key, ← lineEnd? (← symbol? ']' cs))

def element? (cs : List Char) : Option (Statement × List Char) := do
  let (path, key, cs) ← dottedKey? cs
  return (element path key, ← lineEnd? (← symbol? ']' (← symbol? ']' cs)))

def line? (cs : List Char) : Option (Option Statement × List Char) :=
  match lineEnd? cs with
  | some rest => some (none, rest)
  | none =>
    let statement := match skipBlanks cs with
      | '[' :: '[' :: cs => element? cs
      | '[' :: cs => header? cs
      | cs => setting? cs
    statement.map fun (s, rest) => (some s, rest)

/-- Every line takes at least one character, so the fuel is the text's length. -/
def lines? : (fuel : Nat) → List Char → Option (List Statement)
  | _, [] => some []
  | 0, _ => none
  | fuel + 1, cs => do
    let (statement, rest) ← line? cs
    return statement.toList ++ (← lines? fuel rest)

/-- The statements of a document; a leading byte order mark is passed over. -/
def readAll? (cs : List Char) : Option (List Statement) :=
  let cs := match cs with
    | '\uFEFF' :: cs => cs
    | cs => cs
  lines? cs.length cs

end Statement
end ReferralForest.Toml
