import Mathlib.Data.Real.Basic
import Mathlib.Tactic.Linarith
import Mathlib.Tactic.NormNum
import Mathlib.Tactic.Positivity
import Mathlib.Tactic.FieldSimp
import Mathlib.Tactic.Ring
import ReferralForest.Numeric.Power
import ReferralForest.Numeric.Rounding

/-!
# Rounded quotients as reals

Decimals and doubles are both a sign and a magnitude, and the magnitudes of both come
from one rounded quotient, which is within a half of the exact one.
-/

namespace ReferralForest.Numeric

theorem twoPow_eq (n : ℕ) : twoPow n = 2 ^ n := rfl

theorem tenPow_eq (n : ℕ) : tenPow n = 10 ^ n := rfl

theorem abs_divHalfEven_sub_le (n : ℕ) {d : ℕ} (hd : 0 < d) :
    |(divHalfEven n d : ℝ) - n / d| ≤ 1 / 2 := by
  have hd' : (0 : ℝ) < d := Nat.cast_pos.mpr hd
  obtain ⟨hlow, hhigh⟩ := divHalfEven_near n d hd
  have hlow' : 2 * ((d : ℝ) * divHalfEven n d) ≤ 2 * n + d := by exact_mod_cast hlow
  have hhigh' : 2 * (n : ℝ) ≤ 2 * (d * divHalfEven n d) + d := by exact_mod_cast hhigh
  have hscaled : (divHalfEven n d : ℝ) - n / d = (d * divHalfEven n d - n) / d := by
    field_simp
  rw [hscaled, abs_div, abs_of_pos hd', div_le_iff₀ hd', abs_le]
  constructor <;> linarith

noncomputable def signed (negative : Bool) (v : ℝ) : ℝ := if negative then -v else v

theorem abs_signed (negative : Bool) (v : ℝ) : |signed negative v| = |v| := by
  cases negative
  · rfl
  · exact abs_neg v

theorem signed_sub (negative : Bool) (v w : ℝ) :
    signed negative v - signed negative w = signed negative (v - w) := by
  cases negative
  · rfl
  · simp only [signed, if_true]
    ring

theorem signed_abs (v : ℝ) : signed (decide (v < 0)) |v| = v := by
  by_cases h : v < 0
  · simp [signed, h, abs_of_neg h]
  · simp [signed, h, abs_of_nonneg (not_lt.mp h)]

theorem signed_mul (a b : Bool) (v w : ℝ) : signed a v * signed b w = signed (a != b) (v * w) := by
  cases a <;> cases b <;> simp [signed]

theorem signed_div (a b : Bool) (v w : ℝ) : signed a v / signed b w = signed (a != b) (v / w) := by
  cases a <;> cases b <;> simp [signed, neg_div, div_neg]

theorem signed_not (a : Bool) (v : ℝ) : signed (!a) v = -signed a v := by
  cases a <;> simp [signed]

end ReferralForest.Numeric
