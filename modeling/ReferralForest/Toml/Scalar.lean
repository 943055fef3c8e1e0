import ReferralForest.Numeric.Power
import ReferralForest.Toml.Digit

/-!
# Numbers, truth values and dates in TOML

A scalar that is not a string is a word of letters, digits and `+ - _ . :`; only
a date may be followed by a blank and a time. A decimal number has no leading
zero, and whole numbers have 64 bits. The value of a float is of no use here
beyond being one, so its text is kept, but one too large for a double is
refused.
-/

namespace ReferralForest.Toml
open Numeric

inductive Scalar
  | integer (n : Int)
  | float (text : String)
  | boolean (b : Bool)
  | datetime (text : String)
  deriving DecidableEq

namespace Scalar

def decimal? (cs : List Char) : Option (List Nat) := do
  let ds ← digits? 10 cs
  if ds.length ≠ 1 ∧ ds.head? = some 0 then none else some ds

def unsigned : List Char → Bool × List Char
  | '-' :: cs => (true, cs)
  | '+' :: cs => (false, cs)
  | cs => (false, cs)

def integer? (cs : List Char) : Option Int := do
  let n : Int ← match cs with
    | '0' :: 'x' :: cs => (digits? 16 cs).map fun ds => (ofDigits 16 ds : Int)
    | '0' :: 'o' :: cs => (digits? 8 cs).map fun ds => (ofDigits 8 ds : Int)
    | '0' :: 'b' :: cs => (digits? 2 cs).map fun ds => (ofDigits 2 ds : Int)
    | cs =>
      let (minus, cs) := unsigned cs
      (decimal? cs).map fun ds => if minus then -(ofDigits 10 ds : Int) else ofDigits 10 ds
  if Int64.minValue.toInt ≤ n ∧ n ≤ Int64.maxValue.toInt then some n else none

/-- Whether `mantissa * 10^exponent`, the mantissa having `length` digits, rounds
to a finite double. -/
def isFinite (mantissa length : Nat) (exponent : Int) : Bool :=
  let bound := twoPow 1024 - twoPow 970
  if mantissa = 0 then true
  else if (length : Int) + exponent < 300 then true
  else if 310 < (length : Int) + exponent then false
  else if 0 ≤ exponent then mantissa * tenPow exponent.toNat < bound
  else mantissa < bound * tenPow (-exponent).toNat

def exponent? (cs : List Char) : Option Int := do
  let (minus, cs) := unsigned cs
  let n := ofDigits 10 (← digits? 10 cs)
  return if minus then -(n : Int) else n

def isFloat (cs : List Char) : Bool :=
  let (minus, cs) := unsigned cs
  if cs = ['i', 'n', 'f'] || cs = ['n', 'a', 'n'] then true else
    let inWhole := fun c : Char => c.isDigit || c = '_'
    let whole := cs.takeWhile inWhole
    let parts : Option (List Nat × List Nat × Int) := do
      let w ← decimal? whole
      match cs.dropWhile inWhole with
      | '.' :: rest =>
        let f ← digits? 10 (rest.takeWhile inWhole)
        match rest.dropWhile inWhole with
        | [] => return (w, f, 0)
        | e :: rest => if e = 'e' || e = 'E' then return (w, f, ← exponent? rest) else none
      | e :: rest => if e = 'e' || e = 'E' then return (w, [], ← exponent? rest) else none
      | [] => none
    match parts with
    | none => false
    | some (w, f, e) =>
      let ds := (w ++ f).dropWhile (· = 0)
      minus || isFinite (ofDigits 10 ds) ds.length (e - f.length)

def twoDigits? (limit : Nat) : List Char → Option (Nat × List Char)
  | a :: b :: rest => do
    let n := 10 * (← digit? 10 a) + (← digit? 10 b)
    if n ≤ limit then some (n, rest) else none
  | _ => none

def symbol? (c : Char) : List Char → Option (List Char)
  | x :: rest => if x = c then some rest else none
  | [] => none

def isLeap (year : Nat) : Bool := year % 4 = 0 && (year % 100 ≠ 0 || year % 400 = 0)

def daysIn (year month : Nat) : Nat :=
  if month = 2 then if isLeap year then 29 else 28
  else if month = 4 ∨ month = 6 ∨ month = 9 ∨ month = 11 then 30
  else 31

def date? (cs : List Char) : Option (List Char) := do
  let (century, cs) ← twoDigits? 99 cs
  let (year, cs) ← twoDigits? 99 cs
  let (month, cs) ← twoDigits? 12 (← symbol? '-' cs)
  let (day, cs) ← twoDigits? 31 (← symbol? '-' cs)
  if 1 ≤ month ∧ 1 ≤ day ∧ day ≤ daysIn (100 * century + year) month then some cs else none

def time? (cs : List Char) : Option (List Char) := do
  let (_, cs) ← twoDigits? 23 cs
  let (_, cs) ← twoDigits? 59 (← symbol? ':' cs)
  let (_, cs) ← twoDigits? 60 (← symbol? ':' cs)
  match cs with
  | '.' :: fraction =>
    if (fraction.takeWhile Char.isDigit).isEmpty then none
    else some (fraction.dropWhile Char.isDigit)
  | cs => some cs

def isOffset : List Char → Bool
  | [] => true
  | [c] => c = 'Z' || c = 'z'
  | sign :: cs =>
    (sign = '+' || sign = '-') &&
      match twoDigits? 23 cs with
      | some (_, cs) =>
        match (symbol? ':' cs).bind (twoDigits? 59) with
        | some (_, []) => true
        | _ => false
      | none => false

def isTimeDelimiter (c : Char) : Bool := c = 'T' || c = 't' || c = ' '

def isDatetime (cs : List Char) : Bool :=
  match date? cs with
  | some [] => true
  | some (c :: rest) =>
    isTimeDelimiter c &&
      match time? rest with
      | some offset => isOffset offset
      | none => false
  | none => time? cs == some []

def isWordChar (c : Char) : Bool :=
  c.isAlphanum || c = '+' || c = '-' || c = '_' || c = '.' || c = ':'

/-- The word at the front, a date taking a time after a blank with it. -/
def word (cs : List Char) : List Char × List Char :=
  let first := cs.takeWhile isWordChar
  let rest := cs.dropWhile isWordChar
  match rest with
  | ' ' :: c :: after =>
    if date? first = some [] ∧ c.isDigit then
      (first ++ ' ' :: (c :: after).takeWhile isWordChar, (c :: after).dropWhile isWordChar)
    else (first, rest)
  | _ => (first, rest)

def ofWord? (cs : List Char) : Option Scalar :=
  if cs = ['t', 'r', 'u', 'e'] then some (boolean true)
  else if cs = ['f', 'a', 'l', 's', 'e'] then some (boolean false)
  else if isDatetime cs then some (datetime (String.ofList cs))
  else
    match integer? cs with
    | some n => some (integer n)
    | none => if isFloat cs then some (float (String.ofList cs)) else none

def read? (cs : List Char) : Option (Scalar × List Char) :=
  let (w, rest) := word cs
  (ofWord? w).map (·, rest)

end Scalar
end ReferralForest.Toml
