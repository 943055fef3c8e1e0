import ReferralForest.Numeric.Decimal.Layout
import ReferralForest.Numeric.Decimal.Binary
import ReferralForest.Numeric.Elementary
import ReferralForest.Numeric.Shortest

/-!
# Weighted keys

A candidate of weight `w` that draws `r` uniformly in `(0, 1)` competes with
`ln r / w`: the largest such values are a weighted sample without replacement.
These values underflow for large weights, so a key holds the rank
`ln w - ln (-ln r)`, which orders candidates the same way and stays small.

The logarithm of a weight `2^k * m` is `k ln 2 + 2 artanh ((m - 1) / (m + 1))`,
summed in decimals until a term rounds to zero; the logarithm of the draw is a
double.
-/

namespace ReferralForest
open Numeric

def ln2 : Decimal :=
  ⟨false, 6931471805599453094172321215, 28, by decide, Decimal.largest_scale_le⟩

def oddsBelow100 : List Nat := (List.range 50).map (2 * · + 1)

/-- Adds `power / n`, `power * square / next n`, … until a term is zero; running
out of denominators is a failure. -/
def artanhSum (square : Decimal) : List Nat → Decimal → Decimal → Option Decimal
  | [], _, _ => none
  | n :: ns, power, sum => do
    let term ← power.div (← Decimal.ofNat? n)
    if term.isZero then return sum
    artanhSum square ns (← power.mul square) (← sum.add term)

def lnWeight (weight : Nat) : Option Decimal := do
  let k := weight.log2
  let m ← (← Decimal.ofNat? weight).div (← Decimal.ofNat? (twoPow k))
  let s ← (← m.sub .one).div (← m.add .one)
  let sum ← artanhSum (← s.mul s) oddsBelow100 s .zero
  (← Decimal.two.mul sum).add (← (← Decimal.ofNat? k).mul ln2)

def maxWord : Nat := UInt64.size - 1

/-- The logarithm of the draw as a part of the largest 64-bit word, by the logarithms that
are there. Draws are held away from both ends, and the upper half goes through the distance
from the top, where the plain difference of logarithms would cancel. -/
def logUniformBy (ln ln1p : Binary64 → Binary64) (draw : Nat) : Binary64 :=
  let draw := max 1 (min draw (maxWord - 1))
  if draw ≤ maxWord / 2 then
    (ln (Binary64.ofNat draw)).sub (ln (Binary64.ofNat maxWord))
  else
    ln1p ((Binary64.ofNat (maxWord - draw)).div (Binary64.ofNat maxWord)).neg

def logUniform (draw : Nat) : Binary64 := logUniformBy Binary64.ln Binary64.ln1p draw

structure WeightedKey where
  rank : Decimal
  deriving DecidableEq

namespace WeightedKey

instance : LE WeightedKey := ⟨fun a b => a.rank ≤ b.rank⟩
instance : LT WeightedKey := ⟨fun a b => a.rank < b.rank⟩
instance (a b : WeightedKey) : Decidable (a ≤ b) := inferInstanceAs (Decidable (a.rank ≤ b.rank))
instance (a b : WeightedKey) : Decidable (a < b) := inferInstanceAs (Decidable (a.rank < b.rank))

def compare (a b : WeightedKey) : Ordering := a.rank.compare b.rank

def ofDraw? (draw : Nat) (weight : Int) : Option WeightedKey := do
  if weight ≤ 0 then none
  let drawTerm ← Decimal.ofBinary64? (logUniform draw).neg.ln
  return ⟨← (← lnWeight weight.toNat).sub drawTerm⟩

def toBinary64 (k : WeightedKey) : Binary64 := k.rank.toBinary64.neg.exp.neg

def text (k : WeightedKey) : String := k.toBinary64.text

def debugText (k : WeightedKey) : String := "WeightedKey(rank " ++ k.rank.text ++ ")"

end WeightedKey
end ReferralForest
