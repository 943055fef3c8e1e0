import ReferralForest.Numeric.Power
import ReferralForest.Numeric.Rounding

/-!
# Decimals of 96 bits

A decimal is a sign, a mantissa below `2^96` and a scale of at most 28 decimal
places. Order is that of the values, so `1.5` and `1.50` stand level while being
different decimals. An operation gives the exact result rounded half to even to
the largest scale, up to a scale of its own, at which the mantissa fits.
-/

namespace ReferralForest.Numeric

structure Decimal where
  negative : Bool
  mantissa : Nat
  scale : Nat
  mantissa_lt : mantissa < twoPow 96
  scale_le : scale ≤ 28
  deriving DecidableEq

namespace Decimal

theorem largest_scale_le : 28 ≤ 28 := Nat.le_refl 28

def zero : Decimal := ⟨false, 0, 0, by decide, by decide⟩
def one : Decimal := ⟨false, 1, 0, by decide, by decide⟩
def two : Decimal := ⟨false, 2, 0, by decide, by decide⟩

instance : Inhabited Decimal := ⟨zero⟩

def isZero (x : Decimal) : Bool := x.mantissa == 0

def units (x : Decimal) : Int :=
  let m : Int := (x.mantissa * tenPow (28 - x.scale) : Nat)
  if x.negative then -m else m

def toRat (x : Decimal) : Rat := (x.units : Rat) / (tenPow 28 : Rat)

instance : LE Decimal := ⟨fun x y => x.units ≤ y.units⟩
instance : LT Decimal := ⟨fun x y => x.units < y.units⟩
instance (x y : Decimal) : Decidable (x ≤ y) := inferInstanceAs (Decidable (x.units ≤ y.units))
instance (x y : Decimal) : Decidable (x < y) := inferInstanceAs (Decidable (x.units < y.units))

def compare (x y : Decimal) : Ordering := Ord.compare x.units y.units

def ofNat? (n : Nat) : Option Decimal :=
  if h : n < twoPow 96 then some ⟨false, n, 0, h, by decide⟩ else none

/-- `n / d` at the largest scale up to `scale` whose rounded mantissa fits. -/
def fit (negative : Bool) (n d : Nat) : (scale : Nat) → scale ≤ 28 → Option Decimal
  | 0, hs =>
    if h : divHalfEven n d < twoPow 96 then some ⟨negative, divHalfEven n d, 0, h, hs⟩ else none
  | scale + 1, hs =>
    if h : divHalfEven (n * tenPow (scale + 1)) d < twoPow 96 then
      some ⟨negative, divHalfEven (n * tenPow (scale + 1)) d, scale + 1, h, hs⟩
    else fit negative n d scale (by omega)

def neg (x : Decimal) : Decimal := { x with negative := !x.negative }

/-- A zero operand leaves the other as it is. -/
def add (x y : Decimal) : Option Decimal :=
  if x.isZero then some y else if y.isZero then some x else
    let t := x.units + y.units
    fit (decide (t < 0)) t.natAbs (tenPow 28) (max x.scale y.scale)
      (Nat.max_le.mpr ⟨x.scale_le, y.scale_le⟩)

def sub (x y : Decimal) : Option Decimal :=
  if y.isZero then some (if x.isZero then y else x) else x.add y.neg

def mul (x y : Decimal) : Option Decimal :=
  if x.isZero || y.isZero then some zero else
    fit (x.negative != y.negative) (x.mantissa * y.mantissa) (tenPow (x.scale + y.scale))
      (min 28 (x.scale + y.scale)) (Nat.min_le_left ..)

def div (x y : Decimal) : Option Decimal :=
  if y.isZero then none else if x.isZero then some zero else
    fit (x.negative != y.negative) (x.mantissa * tenPow y.scale) (y.mantissa * tenPow x.scale)
      28 largest_scale_le

def text (x : Decimal) : String :=
  let sign := if x.negative then "-" else ""
  let whole := String.ofList (Nat.toDigits 10 (x.mantissa / tenPow x.scale))
  if x.scale = 0 then sign ++ whole else
    let places := Nat.toDigits 10 (x.mantissa % tenPow x.scale)
    sign ++ whole ++ "." ++ String.ofList (List.replicate (x.scale - places.length) '0' ++ places)

end Decimal
end ReferralForest.Numeric
