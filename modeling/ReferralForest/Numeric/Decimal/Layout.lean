import ReferralForest.Bytes
import ReferralForest.Numeric.Decimal

/-!
# Sixteen bytes of a decimal

A flag word, little end first, has the scale in bits 16 to 20 and the sign in
bit 31; the mantissa follows as twelve bytes, little end first. Reading drops
all other flag bits and brings a scale of 29, 30 or 31 down to 28.
-/

namespace ReferralForest.Numeric.Decimal

def toBytes (x : Decimal) : Bytes :=
  [0, 0, UInt8.ofNat x.scale, if x.negative then 0x80 else 0] ++ Bytes.littleEndian 12 x.mantissa

theorem length_toBytes (x : Decimal) : x.toBytes.length = 16 := by
  simp [toBytes, Bytes.length_littleEndian]

/-- The mantissa at scale 28 for a scale above it: a remainder of five or more,
whatever the divisor, counts as one. -/
def lowered (mantissa scale : Nat) : Nat :=
  let d := tenPow (scale - 28)
  mantissa / d + if 5 ≤ mantissa % d then 1 else 0

theorem lowered_lt {mantissa scale : Nat} (hm : mantissa < twoPow 96) (hs : 28 < scale) :
    lowered mantissa scale < twoPow 96 := by
  have hd : 10 ≤ tenPow (scale - 28) := by
    obtain ⟨k, hk⟩ : ∃ k, scale - 28 = k + 1 := ⟨scale - 29, by omega⟩
    have hk' := tenPow_pos k
    rw [hk, tenPow_succ]
    omega
  have hq : mantissa / tenPow (scale - 28) ≤ mantissa / 10 := Nat.div_le_div_left hd (by decide)
  have hw : 1 < twoPow 96 := by decide
  simp only [lowered]
  split <;> omega

def ofRaw (negative : Bool) (mantissa scale : Nat) (hm : mantissa < twoPow 96) : Decimal :=
  if hs : scale ≤ 28 then ⟨negative, mantissa, scale, hm, hs⟩
  else ⟨negative, lowered mantissa scale, 28, lowered_lt hm (Nat.not_le.mp hs), largest_scale_le⟩

theorem ofLittleEndian_lt_twoPow {b : Bytes} (h : b.length = 12) :
    Bytes.ofLittleEndian b < twoPow 96 := by
  have hb := Bytes.ofLittleEndian_lt b
  rw [h] at hb
  exact Nat.lt_of_lt_of_eq hb (by decide)

def ofBytes? : Bytes → Option Decimal
  | _ :: _ :: scale :: sign :: rest =>
    if h : rest.length = 12 then
      some (ofRaw (decide (0x80 ≤ sign)) (Bytes.ofLittleEndian rest) (scale.toNat % 32)
        (ofLittleEndian_lt_twoPow h))
    else none
  | _ => none

end ReferralForest.Numeric.Decimal
