import ReferralForest.Numeric.Decimal
import ReferralForest.Numeric.Binary64

/-!
# Decimals and doubles

A double becomes a decimal by taking powers of five into its significand while
96 bits hold them and halving it otherwise, then dropping digits beyond the 28th
place and beyond the 52 bits a double vouches for. A decimal becomes a double
through its whole part and its fraction, rounded to the decimal's own places.
-/

namespace ReferralForest.Numeric.Decimal

/-- Multiplies `m * 2^(e - steps)` out to `m * 10^e`, an odd significand too
large for a factor of five losing its last bit. -/
def takeFives : Nat → Nat → Int → Nat × Int
  | 0, m, e => (m, e)
  | steps + 1, m, e =>
    if m % 2 = 0 then takeFives steps (m / 2) (e + 1)
    else if m * 5 < twoPow 96 then takeFives steps (m * 5) e
    else takeFives steps (m / 2) (e + 1)

def dropDigit (m : Nat) : Nat := m / 10 + if 5 ≤ m % 10 then 1 else 0

/-- Brings a scale above 28 down to it; a value that vanishes has scale 0. -/
def dropPlaces : Nat → Nat → Nat × Nat
  | 0, m => (m, 28)
  | excess + 1, m => if m / 10 = 0 then (0, 0) else dropPlaces excess (dropDigit m)

def dropBits : Nat → Nat → Nat × Nat
  | 0, m => (m, 0)
  | scale + 1, m => if twoPow 52 ≤ m then dropBits scale (dropDigit m) else (m, scale + 1)

def dropZeros : Nat → Nat → Nat × Nat
  | 0, m => (m, 0)
  | scale + 1, m => if m % 10 = 0 then dropZeros scale (m / 10) else (m, scale + 1)

def ofParts? (negative : Bool) (mantissa scale : Nat) : Option Decimal :=
  if h : mantissa < twoPow 96 ∧ scale ≤ 28 then some ⟨negative, mantissa, scale, h.1, h.2⟩ else none

def ofBinary64? (x : Binary64) : Option Decimal :=
  if x.significand = 0 then some zero
  else if 0 ≤ x.exponent then
    ofParts? x.negative (x.significand * twoPow x.exponent.toNat) 0
  else
    let (m, e) := takeFives (-x.exponent).toNat x.significand x.exponent
    let places := (-e).toNat
    let (m, s) := if 28 < places then dropPlaces (places - 28) m else (m, places)
    let (m, s) := dropBits s m
    let (m, s) := dropZeros s m
    ofParts? x.negative m s

def doublePower (base : Binary64) (n : Nat) (acc : Binary64) : Binary64 :=
  if h : n = 0 then acc else
    let acc := if n % 2 = 1 then acc.mul base else acc
    if n / 2 = 0 then acc else doublePower (base.mul base) (n / 2) acc
  termination_by n
  decreasing_by omega

def toBinary64 (x : Decimal) : Binary64 :=
  let magnitude :=
    if x.scale = 0 then Binary64.ofNat x.mantissa else
      let p := tenPow x.scale
      let whole := Binary64.ofNat (x.mantissa / p)
      let fraction := (Binary64.ofNat (x.mantissa % p)).div (Binary64.ofNat p)
      if fraction.significand = 0 then whole else
        let t := doublePower (Binary64.ofNat 10) x.scale (Binary64.ofNat 1)
        (((whole.add fraction).mul t).roundHalfUp).div t
  { magnitude with negative := x.negative }

end ReferralForest.Numeric.Decimal
