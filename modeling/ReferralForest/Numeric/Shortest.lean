import ReferralForest.Numeric.Binary64

/-!
# Shortest scientific text of a double

The reals that round to a double form an interval around it, ends included when
the significand is even. The text has the fewest digits that name a point of
this interval, and the nearest such point to the double. On the grid of a given
number of digits it is enough to look at the two grid points next to the double.
-/

namespace ReferralForest.Numeric

structure Scientific where
  digits : Nat
  exponent : Int
  deriving DecidableEq

namespace Scientific

def trimTo : Nat → Scientific → Scientific
  | 0, s => s
  | steps + 1, s =>
    if s.digits % 10 = 0 then trimTo steps ⟨s.digits / 10, s.exponent + 1⟩ else s

def trimmed (s : Scientific) : Scientific := trimTo 20 s

def text (s : Scientific) : String :=
  match Nat.toDigits 10 s.digits with
  | [] => ""
  | d :: ds =>
    let fraction := if ds.isEmpty then "" else "." ++ String.ofList ds
    let exponent := s.exponent + (ds.length : Int)
    let sign := if exponent < 0 then "-" else ""
    String.singleton d ++ fraction ++ "e" ++ sign ++ String.ofList (Nat.toDigits 10 exponent.natAbs)

def value (s : Scientific) : Rat :=
  if 0 ≤ s.exponent then ((s.digits * tenPow s.exponent.toNat : Nat) : Rat)
  else (s.digits : Rat) / (tenPow (-s.exponent).toNat : Rat)

end Scientific

namespace Binary64

def interval (x : Binary64) : Rat × Rat :=
  let half := ({ x with significand := 1 } : Binary64).magnitude / 2
  let below := if x.significand = twoPow 52 ∧ x.exponent ≠ -1074 then half / 2 else half
  (x.magnitude - below, x.magnitude + half)

def inInterval (x : Binary64) (r : Rat) : Bool :=
  let (low, high) := x.interval
  if x.significand % 2 = 0 then decide (low ≤ r) && decide (r ≤ high)
  else decide (low < r) && decide (r < high)

def leadingExponent (v : Rat) : Int :=
  ((Nat.toDigits 10 (v.num.natAbs * tenPow 400 / v.den)).length : Int) - 401

/-- Of the two neighbours on the grid of `n` digits that read back the nearer
one, and of two at one distance the one farther from zero. -/
def onGrid? (x : Binary64) (n : Nat) : Option Scientific :=
  let v := x.magnitude
  let e := leadingExponent v - n + 1
  let digits := ((v / (Scientific.mk 1 e).value).floor).toNat
  let low : Scientific := ⟨digits, e⟩
  let high : Scientific := ⟨digits + 1, e⟩
  match x.inInterval low.value, x.inInterval high.value with
  | true, true => some (if high.value - v ≤ v - low.value then high else low)
  | true, false => some low
  | false, true => some high
  | false, false => none

def shortest (x : Binary64) : Scientific :=
  match (List.range 17).findSome? fun n => x.onGrid? (n + 1) with
  | some s => s.trimmed
  | none => ⟨x.significand, x.exponent⟩

def text (x : Binary64) : String :=
  let sign := if x.negative then "-" else ""
  if x.isInfinite then sign ++ "inf"
  else if x.significand = 0 then sign ++ "0e0"
  else sign ++ x.shortest.text

end Binary64
end ReferralForest.Numeric
