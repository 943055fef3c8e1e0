import ReferralForest.WeightedKey
import ReferralForest.Proofs.DoubleConversion
import ReferralForest.Proofs.FixedPointLogarithm

/-!
# The part of the draw

The logarithm of every draw is below zero and neither small nor large, by whichever half
of the range it is computed, so the logarithm of its opposite becomes a decimal below 50
in size, and a key always has it to subtract. This holds of all logarithms that err by a
few units in the last place, correctly rounded or not.
-/

namespace ReferralForest
open Numeric Binary64

theorem log_le_of_le_pow {a : ℝ} {n : ℕ} (hpos : 0 < a) (h : a ≤ 2 ^ n * (101 / 100)) :
    Real.log a ≤ n * Real.log 2 + 1 / 100 := by
  have hlog := Real.log_le_log hpos h
  rw [Real.log_mul (by positivity) (by norm_num), Real.log_pow] at hlog
  have hrest := Real.log_le_sub_one_of_pos (by norm_num : (0 : ℝ) < 101 / 100)
  linarith

theorem le_log_of_pow_le {a : ℝ} {n : ℕ} (h : 2 ^ n * (99 / 100) ≤ a) :
    n * Real.log 2 - 1 / 50 ≤ Real.log a := by
  have hlog := Real.log_le_log (by positivity) h
  rw [Real.log_mul (by positivity) (by norm_num), Real.log_pow] at hlog
  have hrest := Real.one_sub_inv_le_log_of_pos (by norm_num : (0 : ℝ) < 99 / 100)
  norm_num at hrest
  linarith

theorem ofNat_near {n : ℕ} (hle : (n : ℝ) ≤ 2 ^ 100) :
    |(ofNat n).value - n| ≤ n / 2 ^ 52 + 1 / 2 ^ 200 := by
  have hone : (n : ℝ) / (1 : ℕ) = n := by rw [Nat.cast_one, div_one]
  have hnear := (ofRatio_near false n Nat.one_pos (hone.symm ▸ hle)).1
  rw [hone] at hnear
  exact hnear

theorem ofNat_bounds {n : ℕ} (hpos : 0 < n) (hle : n ≤ maxWord) :
    (n : ℝ) * (99 / 100) ≤ (ofNat n).value ∧ (ofNat n).value ≤ n * (101 / 100) := by
  have hone : (1 : ℝ) ≤ n := by exact_mod_cast hpos
  have hle' : (n : ℝ) ≤ 2 ^ 100 := by
    have hword : n ≤ 2 ^ 100 := hle.trans (by decide)
    exact_mod_cast hword
  have hnear := ofNat_near hle'
  norm_num at hnear
  rw [abs_le] at hnear
  constructor <;> linarith

theorem value_maxWord : (ofNat maxWord).value = 2 ^ 64 := by
  have heq : ofNat maxWord = ⟨false, twoPow 52, 12⟩ := by decide +kernel
  rw [heq, value_eq, twoPow_eq]
  norm_num [signed]

theorem sub_near {x y : Binary64} (hle : |x.value - y.value| ≤ 2 ^ 100) :
    |(x.sub y).value - (x.value - y.value)| ≤ |x.value - y.value| / 2 ^ 52 + 1 / 2 ^ 200 := by
  have hcast : ((x.toRat - y.toRat : ℚ) : ℝ) = x.value - y.value := Rat.cast_sub _ _
  rw [← hcast] at hle ⊢
  exact (ofRat_near hle).1

theorem div_near {x y : Binary64} (hle : |x.value / y.value| ≤ 2 ^ 100) :
    |(x.div y).value - x.value / y.value| ≤ |x.value / y.value| / 2 ^ 52 + 1 / 2 ^ 200 := by
  have hcast : ((x.toRat / y.toRat : ℚ) : ℝ) = x.value / y.value := Rat.cast_div _ _
  rw [← hcast] at hle ⊢
  exact (ofRat_near hle).1

theorem gapPart_bounds {gap : ℕ} (hpos : 0 < gap) (hhalf : gap ≤ maxWord / 2) :
    1 / 2 ^ 65 ≤ ((ofNat gap).div (ofNat maxWord)).value ∧
      ((ofNat gap).div (ofNat maxWord)).value ≤ 3 / 5 := by
  obtain ⟨hlow, hhigh⟩ := ofNat_bounds hpos (hhalf.trans (Nat.div_le_self _ _))
  have hone : (1 : ℝ) ≤ gap := by exact_mod_cast hpos
  have hgap : (gap : ℝ) ≤ 2 ^ 63 := by
    have hword : gap ≤ 2 ^ 63 := hhalf.trans (by decide)
    exact_mod_cast hword
  have hmin : 99 / 100 ≤ (ofNat gap).value := by linarith
  have hmax : (ofNat gap).value ≤ 2 ^ 63 * (101 / 100) :=
    hhigh.trans (mul_le_mul_of_nonneg_right hgap (by norm_num))
  have hnonneg : 0 ≤ (ofNat gap).value / 2 ^ 64 := div_nonneg (by linarith) (by positivity)
  have hle : |(ofNat gap).value / (ofNat maxWord).value| ≤ 2 ^ 100 := by
    rw [value_maxWord, abs_of_nonneg hnonneg, div_le_iff₀ (by norm_num)]
    exact hmax.trans (by norm_num)
  have hnear := div_near hle
  rw [value_maxWord, abs_of_nonneg hnonneg, abs_le] at hnear
  norm_num at hnear hmax ⊢
  constructor <;> linarith

/-- Logarithms of doubles within a few units in the last place of the exact ones. -/
structure CloseLogarithms (ln ln1p : Binary64 → Binary64) : Prop where
  ln_near : ∀ {x : Binary64}, 1 / 2 ^ 100 ≤ x.value → x.value ≤ 2 ^ 100 →
    |(ln x).value - Real.log x.value| ≤ |Real.log x.value| / 2 ^ 50 + 1 / 2 ^ 150 ∧
      (ln x).significand < twoPow 64
  ln1p_near : ∀ {x : Binary64}, x.value ≠ 0 → 1 / 2 ^ 100 ≤ 1 + x.value → 1 + x.value ≤ 2 ^ 100 →
    |(ln1p x).value - Real.log (1 + x.value)| ≤ |Real.log (1 + x.value)| / 2 ^ 50 + 1 / 2 ^ 150

theorem closeLogarithms : CloseLogarithms Binary64.ln Binary64.ln1p := ⟨ln_near, ln1p_near⟩

namespace CloseLogarithms
variable {ln ln1p : Binary64 → Binary64}

theorem ln_near_thousandth (h : CloseLogarithms ln ln1p) {x : Binary64}
    (hlow : 1 / 2 ^ 100 ≤ x.value) (hhigh : x.value ≤ 2 ^ 100) :
    |(ln x).value - Real.log x.value| ≤ 1 / 1000 := by
  have hlog := abs_log_le hlow hhigh
  have hnear := (h.ln_near hlow hhigh).1
  norm_num at hnear
  linarith

theorem ln_maxWord_near (h : CloseLogarithms ln ln1p) :
    |(ln (ofNat maxWord)).value - 64 * Real.log 2| ≤ 1 / 1000 := by
  have hnear : |(ln (ofNat maxWord)).value - Real.log (ofNat maxWord).value| ≤ 1 / 1000 :=
    h.ln_near_thousandth (by rw [value_maxWord]; norm_num) (by rw [value_maxWord]; norm_num)
  rw [value_maxWord, Real.log_pow] at hnear
  exact_mod_cast hnear

theorem ln_ofNat_bounds (h : CloseLogarithms ln ln1p) {n : ℕ} (hpos : 0 < n)
    (hhalf : n ≤ maxWord / 2) :
    -1 / 40 ≤ (ln (ofNat n)).value ∧ (ln (ofNat n)).value ≤ 63 * Real.log 2 + 1 / 40 := by
  obtain ⟨hlow, hhigh⟩ := ofNat_bounds hpos (hhalf.trans (Nat.div_le_self _ _))
  have hone : (1 : ℝ) ≤ n := by exact_mod_cast hpos
  have hle : (n : ℝ) ≤ 2 ^ 63 := by
    have hword : n ≤ 2 ^ 63 := hhalf.trans (by decide)
    exact_mod_cast hword
  have hmin : (2 : ℝ) ^ 0 * (99 / 100) ≤ (ofNat n).value := by linarith
  have hmax : (ofNat n).value ≤ 2 ^ 63 * (101 / 100) :=
    hhigh.trans (mul_le_mul_of_nonneg_right hle (by norm_num))
  have hnear := abs_le.mp
    (h.ln_near_thousandth (le_trans (by norm_num) hmin) (hmax.trans (by norm_num)))
  have hlogLow := le_log_of_pow_le hmin
  have hlogHigh := log_le_of_le_pow (by linarith) hmax
  push_cast at hlogLow hlogHigh
  constructor <;> linarith

theorem lowerHalf_bounds (h : CloseLogarithms ln ln1p) {draw : ℕ} (hpos : 0 < draw)
    (hhalf : draw ≤ maxWord / 2) :
    -46 ≤ ((ln (ofNat draw)).sub (ln (ofNat maxWord))).value ∧
      ((ln (ofNat draw)).sub (ln (ofNat maxWord))).value ≤ -1 / 2 := by
  obtain ⟨hlow, hhigh⟩ := h.ln_ofNat_bounds hpos hhalf
  obtain ⟨htopLow, htopHigh⟩ := abs_le.mp h.ln_maxWord_near
  obtain ⟨htwoLow, htwoHigh⟩ := log_two_bounds
  have hdiff : -455 / 10 ≤ (ln (ofNat draw)).value - (ln (ofNat maxWord)).value ∧
      (ln (ofNat draw)).value - (ln (ofNat maxWord)).value ≤ -6 / 10 := by
    constructor <;> linarith
  have habs : |(ln (ofNat draw)).value - (ln (ofNat maxWord)).value| ≤ 46 :=
    abs_le.mpr ⟨by linarith, by linarith⟩
  have hsmall : |(ln (ofNat draw)).value - (ln (ofNat maxWord)).value| / 2 ^ 52 +
      1 / 2 ^ 200 ≤ 1 / 10 := by
    norm_num
    linarith
  have hnear := abs_le.mp ((sub_near (habs.trans (by norm_num))).trans hsmall)
  constructor <;> linarith

theorem ln1p_bounds (h : CloseLogarithms ln ln1p) {x : Binary64} (hlow : -(3 / 5) ≤ x.value)
    (hhigh : x.value ≤ -(1 / 2 ^ 65)) :
    -46 ≤ (ln1p x).value ∧ (ln1p x).value ≤ -(1 / 2 ^ 66) := by
  have hpos : 0 < 1 + x.value := by linarith
  have hgap : (0 : ℝ) < 1 / 2 ^ 65 := by positivity
  have hlogHigh := Real.log_le_sub_one_of_pos hpos
  have hlogLow := Real.one_sub_inv_le_log_of_pos hpos
  have hinv : (1 + x.value)⁻¹ ≤ 5 / 2 := by
    rw [inv_le_comm₀ hpos (by norm_num)]
    norm_num
    linarith
  have hmin : 1 / 2 ^ 100 ≤ 1 + x.value :=
    le_trans (by norm_num) (by linarith : 2 / 5 ≤ 1 + x.value)
  have hmax : 1 + x.value ≤ 2 ^ 100 := le_trans (by linarith : 1 + x.value ≤ 1) (by norm_num)
  have hnear := h.ln1p_near (by linarith : x.value ≠ 0) hmin hmax
  rw [abs_of_nonpos (by linarith : Real.log (1 + x.value) ≤ 0), abs_le] at hnear
  norm_num at hnear hhigh ⊢
  constructor <;> linarith

/-- The logarithm of a draw is below zero, and neither small nor large. -/
theorem logUniform_bounds (h : CloseLogarithms ln ln1p) (draw : ℕ) :
    -46 ≤ (logUniformBy ln ln1p draw).value ∧
      (logUniformBy ln ln1p draw).value ≤ -(1 / 2 ^ 66) := by
  have hword : maxWord = 2 ^ 64 - 1 := rfl
  have hclamped : 0 < max 1 (min draw (maxWord - 1)) ∧
      max 1 (min draw (maxWord - 1)) < maxWord := by
    omega
  simp only [logUniformBy]
  generalize max 1 (min draw (maxWord - 1)) = d at hclamped
  split
  · rename_i hhalf
    obtain ⟨hlow, hhigh⟩ := h.lowerHalf_bounds hclamped.1 hhalf
    exact ⟨hlow, hhigh.trans (by norm_num)⟩
  · rename_i hhalf
    have hgap : 0 < maxWord - d ∧ maxWord - d ≤ maxWord / 2 := by omega
    obtain ⟨hlow, hhigh⟩ := gapPart_bounds hgap.1 hgap.2
    rw [← neg_le_neg_iff, ← value_neg] at hlow hhigh
    exact h.ln1p_bounds hhigh hlow

/-- The part of a draw always is a decimal, and below 50 in size. -/
theorem exists_drawTerm (h : CloseLogarithms ln ln1p) (draw : ℕ) :
    ∃ t, Decimal.ofBinary64? (ln (logUniformBy ln ln1p draw).neg) = some t ∧ |t.value| < 50 := by
  obtain ⟨hlow, hhigh⟩ := h.logUniform_bounds draw
  rw [← neg_le_neg_iff, neg_neg, ← value_neg] at hlow hhigh
  have hmin : (1 / 2 ^ 66 : ℝ) ≤ (logUniformBy ln ln1p draw).neg.value := by linarith
  have hmax : (logUniformBy ln ln1p draw).neg.value ≤ 2 ^ 6 := hlow.trans (by norm_num)
  have hlogMin := Real.log_le_log (by positivity) hmin
  have hlogMax := Real.log_le_log (lt_of_lt_of_le (by positivity) hmin) hmax
  rw [one_div, Real.log_inv, Real.log_pow] at hlogMin
  rw [Real.log_pow] at hlogMax
  push_cast at hlogMin hlogMax
  obtain ⟨-, htwo⟩ := log_two_bounds
  have hlow' : 1 / 2 ^ 100 ≤ (logUniformBy ln ln1p draw).neg.value := le_trans (by norm_num) hmin
  have hhigh' : (logUniformBy ln ln1p draw).neg.value ≤ 2 ^ 100 := hmax.trans (by norm_num)
  have hnear := h.ln_near_thousandth hlow' hhigh'
  refine Decimal.exists_ofBinary64 (h.ln_near hlow' hhigh').2 ?_
  rw [abs_le] at hnear ⊢
  constructor <;> linarith

end CloseLogarithms
end ReferralForest
