import ReferralForest.Numeric.Binary64

/-!
# Logarithm and exponential of doubles

Values are computed as whole multiples of `2^-320` from convergent series and
then rounded to a double. The logarithms and exponentials that lie nearest a
midpoint of two doubles are told apart by fewer than 120 bits beyond the first,
so the rounded results are the correctly rounded ones. How precise these functions
have to be is left open elsewhere: those of a platform may differ from the ones
here in the last place.
-/

namespace ReferralForest.Numeric.Elementary

def unit : Int := twoPow 320

def oddSeries (square : Int) : Nat → Int → Nat → Int
  | 0, _, _ => 0
  | terms + 1, power, n =>
    power / (n : Int) + oddSeries square terms (power * square / unit) (n + 2)

def atanh (z : Int) : Int := oddSeries (z * z / unit) 110 z 1

def ln2 : Int := 2 * atanh (unit / 3)

def lnRatio (n d : Nat) : Int :=
  let k : Int := (n.log2 : Int) - d.log2
  let a : Int := if 0 ≤ k then n else n * twoPow (-k).toNat
  let b : Int := if 0 ≤ k then d * twoPow k.toNat else d
  2 * atanh ((a - b) * unit / (a + b)) + k * ln2

def powerSeries (r : Int) : Nat → Int → Nat → Int
  | 0, _, _ => 0
  | terms + 1, term, n =>
    term + powerSeries r terms (term * r / (unit * ((n : Int) + 1))) (n + 1)

def expParts (x : Rat) : Int × Int :=
  let t := (x * (unit : Rat)).floor
  let k := (2 * t + ln2) / (2 * ln2)
  (powerSeries (t - k * ln2) 80 unit 0, k)

end ReferralForest.Numeric.Elementary

namespace ReferralForest.Numeric.Binary64
open Elementary

def ofUnits (t : Int) : Binary64 := ofRatio (decide (t < 0)) t.natAbs (twoPow 320)

/-- The natural logarithm of a positive double, correctly rounded, which a platform's own
need not be: it may be one unit in the last place away. -/
def ln (x : Binary64) : Binary64 :=
  ofUnits (lnRatio x.toRat.num.natAbs x.toRat.den)

/-- The natural logarithm of one plus the argument, which is above `-1`, rounded as `ln` is. -/
def ln1p (x : Binary64) : Binary64 :=
  if x.significand = 0 then x else
    ofUnits (lnRatio (1 + x.toRat).num.natAbs (1 + x.toRat).den)

def exp (x : Binary64) : Binary64 :=
  if 800 < x.toRat then ofRatio false (twoPow 1024) 1
  else if x.toRat < -800 then zero
  else
    let (s, k) := expParts x.toRat
    if 0 ≤ k then ofRatio false (s.natAbs * twoPow k.toNat) (twoPow 320)
    else ofRatio false s.natAbs (twoPow (320 + (-k).toNat))

end ReferralForest.Numeric.Binary64
