import ReferralForest.Numeric.Power
import ReferralForest.Numeric.Rounding

/-!
# Doubles

A double is a sign, a significand below `2^53` and an exponent of two, the
exponent being the least possible, `-1074`, unless the significand has all 53
bits. The magnitude `2^1024`, next above the largest finite one, stands for
infinity, as in the interchange encoding. Each arithmetic operation is the exact
rational result rounded once, to nearest with ties to even.
-/

namespace ReferralForest.Numeric

structure Binary64 where
  negative : Bool
  significand : Nat
  exponent : Int
  deriving DecidableEq

namespace Binary64

def zero : Binary64 := ⟨false, 0, -1074⟩

def isInfinite (x : Binary64) : Bool := 971 < x.exponent

def inUnits (n d : Nat) (e : Int) : Nat × Nat :=
  if 0 ≤ e then (n, d * twoPow e.toNat) else (n * twoPow (-e).toNat, d)

/-- The exponent at which `n / d` has 53 bits, or the least exponent. -/
def exponentOf (n d : Nat) : Int :=
  let e := max (-1074) ((n.log2 : Int) - d.log2 - 53)
  let u := inUnits n d e
  if twoPow 53 ≤ u.1 / u.2 then e + 1 else e

def ofRatio (negative : Bool) (n d : Nat) : Binary64 :=
  if n = 0 then ⟨negative, 0, -1074⟩ else
    let e := exponentOf n d
    let u := inUnits n d e
    let m := divHalfEven u.1 u.2
    let (m, e) := if m = twoPow 53 then (twoPow 52, e + 1) else (m, e)
    if 971 < e then ⟨negative, twoPow 52, 972⟩ else ⟨negative, m, e⟩

def ofRat (x : Rat) : Binary64 := ofRatio (decide (x < 0)) x.num.natAbs x.den

def ofNat (n : Nat) : Binary64 := ofRatio false n 1

def magnitude (x : Binary64) : Rat :=
  if 0 ≤ x.exponent then ((x.significand * twoPow x.exponent.toNat : Nat) : Rat)
  else (x.significand : Rat) / (twoPow (-x.exponent).toNat : Rat)

def toRat (x : Binary64) : Rat := if x.negative then -x.magnitude else x.magnitude

def neg (x : Binary64) : Binary64 := { x with negative := !x.negative }

def add (x y : Binary64) : Binary64 := ofRat (x.toRat + y.toRat)
def sub (x y : Binary64) : Binary64 := ofRat (x.toRat - y.toRat)
def mul (x y : Binary64) : Binary64 := ofRat (x.toRat * y.toRat)
def div (x y : Binary64) : Binary64 := ofRat (x.toRat / y.toRat)

def roundHalfUp (x : Binary64) : Binary64 := ofRat ((x.toRat + 1 / 2).floor : Rat)

def toBits (x : Binary64) : Nat :=
  (if x.negative then twoPow 63 else 0) +
    if x.significand < twoPow 52 then x.significand
    else (x.exponent + 1075).toNat * twoPow 52 + (x.significand - twoPow 52)

end Binary64
end ReferralForest.Numeric
