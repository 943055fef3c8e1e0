import ReferralForest.Toml.Digit

/-!
# Strings in TOML

A string is written in one of four forms: basic with escapes or literal without,
each on one line or, between tripled quotes, over several. A form of several
lines drops a line break right after its opening quotes. Inside it one or two
quotes are plain text, and up to two may stand before the closing three. A
backslash at the end of a line joins it to the next word.

The writer takes the first form that needs no escapes, plain quotes first; a tab
is an escape that the basic forms always use. Text that no such form holds is
written with escapes, over several lines if it has line breaks. A run of quotes
is counted in a byte whose overflow is a failure, so text with more than 255 of one
kind in a row has no form. A writer built without checks for overflow would let the
count wrap and write such text too.
-/

namespace ReferralForest.Toml.Text

def isControl (c : Char) : Bool := (c.toNat < 0x20 && c ≠ '\t') || c.toNat = 0x7f

def isBlank (c : Char) : Bool := c = ' ' || c = '\t'

def startsLine : List Char → Bool
  | '\n' :: _ => true
  | _ => false

/-! ## Reading -/

/-- The quotes, fewer than three, that stand before closing quotes, and what
follows those; none if the text does not start with three quotes. -/
def closing? (quote : Char) (cs : List Char) : Option (List Char × List Char) :=
  let run := (cs.take 5).takeWhile (· = quote)
  if run.length < 3 then none else some (run.drop 3, cs.drop run.length)

def push (c : Char) (r : Option (List Char × List Char)) : Option (List Char × List Char) :=
  r.map fun (text, rest) => (c :: text, rest)

def escape? (c : Char) : Option Char :=
  if c = 'b' then some '\x08'
  else if c = 't' then some '\t'
  else if c = 'n' then some '\n'
  else if c = 'f' then some '\x0c'
  else if c = 'r' then some '\r'
  else if c = '"' then some '"'
  else if c = '\\' then some '\\'
  else none

inductive Place
  /-- In plain text, blanks being dropped after a joined line end. -/
  | plain (joining : Bool)
  | backslash
  /-- After a backslash and blanks that must end their line. -/
  | lineEnd
  | codePoint (left value : Nat)

def readBasic (multiline : Bool) : Place → List Char → Option (List Char × List Char)
  | _, [] => none
  | .plain joining, c :: rest =>
    if joining && isBlank c then readBasic multiline (.plain true) rest
    else if c = '"' then
      if multiline then
        match closing? '"' (c :: rest) with
        | some r => some r
        | none => push c (readBasic multiline (.plain false) rest)
      else some ([], rest)
    else if c = '\\' then readBasic multiline .backslash rest
    else if c = '\n' && multiline then
      if joining then readBasic multiline (.plain true) rest
      else push c (readBasic multiline (.plain false) rest)
    else if c = '\r' && multiline && startsLine rest then
      readBasic multiline (.plain joining) rest
    else if isControl c then none
    else push c (readBasic multiline (.plain false) rest)
  | .backslash, c :: rest =>
    match escape? c with
    | some e => push e (readBasic multiline (.plain false) rest)
    | none =>
      if c = 'u' then readBasic multiline (.codePoint 4 0) rest
      else if c = 'U' then readBasic multiline (.codePoint 8 0) rest
      else if multiline && c = '\n' then readBasic multiline (.plain true) rest
      else if multiline && (isBlank c || (c = '\r' && startsLine rest)) then
        readBasic multiline .lineEnd rest
      else none
  | .lineEnd, c :: rest =>
    if c = '\n' then readBasic multiline (.plain true) rest
    else if isBlank c || (c = '\r' && startsLine rest) then readBasic multiline .lineEnd rest
    else none
  | .codePoint left value, c :: rest =>
    match digit? 16 c with
    | none => none
    | some digit =>
      let value := value * 16 + digit
      if 1 < left then readBasic multiline (.codePoint (left - 1) value) rest
      else if value.isValidChar then
        push (Char.ofNat value) (readBasic multiline (.plain false) rest)
      else none

def readLiteral (multiline : Bool) : List Char → Option (List Char × List Char)
  | [] => none
  | c :: rest =>
    if c = '\'' then
      if multiline then
        match closing? '\'' (c :: rest) with
        | some r => some r
        | none => push c (readLiteral multiline rest)
      else some ([], rest)
    else if c = '\n' && multiline then push c (readLiteral multiline rest)
    else if c = '\r' && multiline && startsLine rest then readLiteral multiline rest
    else if isControl c then none
    else push c (readLiteral multiline rest)

def dropLineBreak : List Char → List Char
  | '\n' :: rest => rest
  | '\r' :: '\n' :: rest => rest
  | cs => cs

def readLine? : List Char → Option (List Char × List Char)
  | '"' :: rest => readBasic false (.plain false) rest
  | '\'' :: rest => readLiteral false rest
  | _ => none

def read? : List Char → Option (List Char × List Char)
  | '"' :: '"' :: '"' :: rest => readBasic true (.plain false) (dropLineBreak rest)
  | '\'' :: '\'' :: '\'' :: rest => readLiteral true (dropLineBreak rest)
  | cs => readLine? cs

/-! ## Writing -/

inductive Form
  | basic
  | literal
  | longBasic
  | longLiteral
  deriving DecidableEq

def longestRun (c : Char) : (run : Nat) → List Char → Nat
  | run, [] => run
  | run, x :: xs => if x = c then longestRun c (run + 1) xs else max run (longestRun c 0 xs)

def Form.of (cs : List Char) : Form :=
  let lines := cs.contains '\n'
  let control := cs.any fun c => isControl c && c ≠ '\n'
  let backslash := cs.contains '\\'
  let doubled := longestRun '"' 0 cs
  let single := longestRun '\'' 0 cs
  if !control && !backslash && doubled = 0 && !lines then basic
  else if !control && single = 0 && !lines then literal
  else if !control && !backslash && doubled ≤ 2 then longBasic
  else if !control && single ≤ 2 then longLiteral
  else if lines then longBasic
  else basic

def writeChar (multiline : Bool) (c : Char) : List Char :=
  if c = '\x08' then ['\\', 'b']
  else if c = '\t' then ['\\', 't']
  else if c = '\n' then if multiline then ['\n'] else ['\\', 'n']
  else if c = '\x0c' then ['\\', 'f']
  else if c = '\r' then ['\\', 'r']
  else if c = '\\' then ['\\', '\\']
  else if isControl c then
    ['\\', 'u', '0', '0', upperHexDigit (c.toNat / 16), upperHexDigit (c.toNat % 16)]
  else [c]

/-- Between tripled quotes every third quote of a run is escaped, else each. -/
def writeBasic (multiline : Bool) : (quotes : Nat) → List Char → List Char
  | _, [] => []
  | quotes, c :: cs =>
    if c = '"' then
      if multiline && quotes < 2 then '"' :: writeBasic multiline (quotes + 1) cs
      else '\\' :: '"' :: writeBasic multiline 0 cs
    else writeChar multiline c ++ writeBasic multiline 0 cs

def lineBreakIf (cs : List Char) : List Char := if cs.contains '\n' then ['\n'] else []

def Form.write (cs : List Char) : Form → List Char
  | basic => '"' :: writeBasic false 0 cs ++ ['"']
  | literal => '\'' :: cs ++ ['\'']
  | longBasic =>
    ['"', '"', '"'] ++ lineBreakIf cs ++ writeBasic true 0 cs ++ ['"', '"', '"']
  | longLiteral => ['\'', '\'', '\''] ++ lineBreakIf cs ++ cs ++ ['\'', '\'', '\'']

/-- Whether each run of quotes in a text can be counted where overflow is checked. -/
def isWritable (cs : List Char) : Bool :=
  longestRun '"' 0 cs ≤ 255 && longestRun '\'' 0 cs ≤ 255

def write? (cs : List Char) : Option (List Char) :=
  if isWritable cs then some ((Form.of cs).write cs) else none

end ReferralForest.Toml.Text
