import Mathlib.Algebra.Order.Field.Power
import ReferralForest.Numeric.Binary64
import ReferralForest.Proofs.Rounding

/-!
# Rounding of doubles

The double nearest a ratio is within one part in `2^52` of it, or near zero within the
unit of the least exponent. The ratios here are at most `2^100` and never overflow.
-/

namespace ReferralForest.Numeric

section Ratio
variable {n d : ℕ}

theorem log2_ratio (hn : 0 < n) (hd : 0 < d) :
    (2 : ℝ) ^ ((n.log2 : ℤ) - d.log2) < 2 * (n / d) ∧
      (n / d : ℝ) < 2 * 2 ^ ((n.log2 : ℤ) - d.log2) := by
  have hn' : (2 : ℝ) ^ n.log2 ≤ n := by exact_mod_cast Nat.log2_self_le hn.ne'
  have hn'' : (n : ℝ) < 2 ^ (n.log2 + 1) := by exact_mod_cast Nat.lt_log2_self
  have hd' : (2 : ℝ) ^ d.log2 ≤ d := by exact_mod_cast Nat.log2_self_le hd.ne'
  have hd'' : (d : ℝ) < 2 ^ (d.log2 + 1) := by exact_mod_cast Nat.lt_log2_self
  have hpos : (0 : ℝ) < d := Nat.cast_pos.mpr hd
  have htwo : (0 : ℝ) < 2 ^ d.log2 := by positivity
  rw [pow_succ] at hn'' hd''
  rw [zpow_sub₀ (by norm_num), zpow_natCast, zpow_natCast]
  constructor
  · rw [div_lt_iff₀ htwo, mul_assoc, div_mul_eq_mul_div, mul_div_assoc', lt_div_iff₀ hpos]
    nlinarith
  · rw [mul_div_assoc', div_lt_div_iff₀ hpos htwo]
    nlinarith

end Ratio

theorem two_pow_toNat {e : ℤ} (h : 0 ≤ e) : ((twoPow e.toNat : ℕ) : ℝ) = 2 ^ e := by
  rw [twoPow_eq, Nat.cast_pow, ← zpow_natCast, Int.toNat_of_nonneg h]
  rfl

namespace Binary64

noncomputable def value (x : Binary64) : ℝ := (x.toRat : ℝ)

theorem value_eq (x : Binary64) : x.value = signed x.negative (x.significand * 2 ^ x.exponent) := by
  have hmagnitude : (x.magnitude : ℝ) = x.significand * 2 ^ x.exponent := by
    rw [magnitude]
    split
    · rename_i he
      rw [Rat.cast_natCast, Nat.cast_mul, two_pow_toNat he]
    · rename_i he
      rw [Rat.cast_div, Rat.cast_natCast, Rat.cast_natCast, two_pow_toNat (by omega), zpow_neg,
        div_inv_eq_mul]
  rw [value, toRat, signed]
  split
  · rw [Rat.cast_neg, hmagnitude]
  · exact hmagnitude

theorem abs_value (x : Binary64) : |x.value| = x.significand * 2 ^ x.exponent := by
  rw [value_eq, abs_signed, abs_of_nonneg (by positivity)]

theorem value_neg (x : Binary64) : x.neg.value = -x.value := by
  rw [value_eq, value_eq, neg, signed_not]

section Ratio
variable {n d : ℕ} {e : ℤ}

theorem inUnits_pos (n : ℕ) (hd : 0 < d) (e : ℤ) : 0 < (inUnits n d e).2 := by
  rw [inUnits]
  split
  · exact Nat.mul_pos hd (twoPow_pos _)
  · exact hd

theorem inUnits_ratio (n d : ℕ) (e : ℤ) :
    ((inUnits n d e).1 : ℝ) / (inUnits n d e).2 = n / d / 2 ^ e := by
  rw [inUnits]
  split
  · rename_i he
    rw [Nat.cast_mul, two_pow_toNat he, div_mul_eq_div_div]
  · rename_i he
    rw [Nat.cast_mul, two_pow_toNat (by omega), zpow_neg, div_eq_mul_inv _ ((2 : ℝ) ^ e)]
    ring

/-- The unit of the nearest double is no more than a part in `2^51` of the ratio, or least,
and the ratio has at most 54 bits in it. -/
theorem exponentOf_bounds (hn : 0 < n) (hd : 0 < d) :
    (2 : ℝ) ^ exponentOf n d ≤ n / d / 2 ^ 51 + 2 ^ (-1073 : ℤ) ∧
      (n / d : ℝ) < 2 ^ 54 * 2 ^ exponentOf n d := by
  obtain ⟨hlow, hhigh⟩ := log2_ratio hn hd
  set k : ℤ := (n.log2 : ℤ) - d.log2 with hk
  have hle : exponentOf n d ≤ max (-1074) (k - 53) + 1 := by
    rw [exponentOf]
    split <;> omega
  have hge : k - 53 ≤ exponentOf n d := by
    rw [exponentOf]
    split <;> omega
  constructor
  · rcases le_total (-1074) (k - 53) with hmax | hmax
    · rw [max_eq_right hmax] at hle
      have hpow : (2 : ℝ) ^ exponentOf n d ≤ 2 ^ (k - 52) :=
        zpow_le_zpow_right₀ (by norm_num) (by omega)
      rw [zpow_sub₀ (by norm_num)] at hpow
      have hrest : (0 : ℝ) < 2 ^ (-1073 : ℤ) := by positivity
      have hnormal : (2 : ℝ) ^ k / 2 ^ (52 : ℤ) ≤ n / d / 2 ^ 51 := by
        norm_num
        linarith
      linarith
    · rw [max_eq_left hmax] at hle
      have hpow : (2 : ℝ) ^ exponentOf n d ≤ 2 ^ (-1073 : ℤ) :=
        zpow_le_zpow_right₀ (by norm_num) (by omega)
      have hnonneg : (0 : ℝ) ≤ n / d / 2 ^ 51 := by positivity
      linarith
  · have hpow : (2 : ℝ) ^ (k - 53) ≤ 2 ^ exponentOf n d :=
      zpow_le_zpow_right₀ (by norm_num) hge
    rw [zpow_sub₀ (by norm_num), div_le_iff₀ (by positivity)] at hpow
    norm_num at hpow ⊢
    linarith

theorem exponentOf_le (hn : 0 < n) (hd : 0 < d) (hle : (n / d : ℝ) ≤ 2 ^ 100) :
    exponentOf n d ≤ 101 := by
  have hlow := (log2_ratio hn hd).1
  have hpow : (2 : ℝ) ^ ((n.log2 : ℤ) - d.log2) < 2 ^ (101 : ℤ) := by
    norm_num at hle ⊢
    linarith
  have hk := (zpow_lt_zpow_iff_right₀ (by norm_num : (1 : ℝ) < 2)).mp hpow
  rw [exponentOf]
  split <;> omega

theorem exists_ofRatio (negative : Bool) (hn : 0 < n) (hd : 0 < d) (hle : (n / d : ℝ) ≤ 2 ^ 100) :
    ∃ m e, ofRatio negative n d = ⟨negative, m, e⟩ ∧
      |(m : ℝ) * 2 ^ e - n / d| ≤ 1 / 2 * 2 ^ exponentOf n d ∧ m < twoPow 64 := by
  have hhigh := (exponentOf_bounds hn hd).2
  have hexponent := exponentOf_le hn hd hle
  have hpow : (0 : ℝ) < 2 ^ exponentOf n d := by positivity
  have hhalf := abs_divHalfEven_sub_le (inUnits n d (exponentOf n d)).1
    (inUnits_pos n hd (exponentOf n d))
  rw [inUnits_ratio] at hhalf
  set u := inUnits n d (exponentOf n d) with hu
  have hnear : |(divHalfEven u.1 u.2 : ℝ) * 2 ^ exponentOf n d - n / d| ≤
      1 / 2 * 2 ^ exponentOf n d := by
    have hscaled : (divHalfEven u.1 u.2 : ℝ) * 2 ^ exponentOf n d - n / d =
        (divHalfEven u.1 u.2 - n / d / 2 ^ exponentOf n d) * 2 ^ exponentOf n d := by
      field_simp
    rw [hscaled, abs_mul, abs_of_pos hpow]
    exact mul_le_mul_of_nonneg_right hhalf hpow.le
  have hword : divHalfEven u.1 u.2 < twoPow 64 := by
    have hlt : (n / d : ℝ) / 2 ^ exponentOf n d < 2 ^ 54 := (div_lt_iff₀ hpow).mpr hhigh
    have hreal : (divHalfEven u.1 u.2 : ℝ) < 2 ^ 64 := by
      linarith [(abs_le.mp hhalf).2]
    rw [twoPow_eq]
    exact_mod_cast hreal
  simp only [ofRatio, if_neg hn.ne', ← hu]
  by_cases hcarry : divHalfEven u.1 u.2 = twoPow 53
  · refine ⟨twoPow 52, exponentOf n d + 1, ?_, ?_, by decide⟩
    · simp only [hcarry, if_true]
      rw [if_neg (by omega)]
    · rw [hcarry] at hnear
      rw [zpow_add_one₀ (by norm_num)]
      convert hnear using 3
      rw [twoPow_eq, twoPow_eq]
      push_cast
      ring
  · refine ⟨divHalfEven u.1 u.2, exponentOf n d, ?_, hnear, hword⟩
    simp only [if_neg hcarry]
    rw [if_neg (by omega)]

/-- The nearest double is near, and its significand leaves room in a decimal. -/
theorem ofRatio_near (negative : Bool) (n : ℕ) (hd : 0 < d) (hle : (n / d : ℝ) ≤ 2 ^ 100) :
    |(ofRatio negative n d).value - signed negative (n / d)| ≤ n / d / 2 ^ 52 + 1 / 2 ^ 200 ∧
      (ofRatio negative n d).significand < twoPow 64 := by
  rcases Nat.eq_zero_or_pos n with rfl | hn
  · rw [ofRatio, if_pos rfl]
    refine ⟨?_, twoPow_pos 64⟩
    rw [value_eq, signed_sub, abs_signed]
    norm_num
  obtain ⟨m, e, heq, hnear, hword⟩ := exists_ofRatio negative hn hd hle
  rw [heq]
  refine ⟨?_, hword⟩
  have hunit := (exponentOf_bounds hn hd).1
  have hleast : (2 : ℝ) ^ (-1073 : ℤ) ≤ 2 ^ (-200 : ℤ) :=
    zpow_le_zpow_right₀ (by norm_num) (by norm_num)
  have hleast' : (2 : ℝ) ^ (-200 : ℤ) = 1 / 2 ^ 200 := by norm_num
  rw [value_eq, signed_sub, abs_signed]
  refine hnear.trans ?_
  rw [hleast'] at hleast
  have hpos : (0 : ℝ) ≤ 1 / 2 ^ 200 := by positivity
  linarith

theorem natAbs_div_den (r : ℚ) : (r.num.natAbs : ℝ) / r.den = |(r : ℝ)| := by
  have hcast : (r : ℝ) = r.num / r.den := by exact_mod_cast (Rat.num_div_den r).symm
  rw [hcast, abs_div, Nat.cast_natAbs, Int.cast_abs, Nat.abs_cast]

theorem ofRat_near {r : ℚ} (hle : |(r : ℝ)| ≤ 2 ^ 100) :
    |(ofRat r).value - r| ≤ |(r : ℝ)| / 2 ^ 52 + 1 / 2 ^ 200 ∧
      (ofRat r).significand < twoPow 64 := by
  have habs := natAbs_div_den r
  have hsign : decide (r < 0) = decide ((r : ℝ) < 0) := by
    rw [decide_eq_decide, Rat.cast_lt_zero]
  have hnear := ofRatio_near (decide (r < 0)) r.num.natAbs r.den_pos (habs ▸ hle)
  rwa [habs, hsign, signed_abs, ← hsign] at hnear

end Ratio

end Binary64
end ReferralForest.Numeric
