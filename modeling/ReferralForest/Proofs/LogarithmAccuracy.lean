import Mathlib.Analysis.SpecificLimits.Basic
import ReferralForest.Proofs.WeightLogarithm

/-!
# Accuracy of the logarithm

A weight `2^k * m` with `m` in `[1, 2)` has the logarithm `k ln 2 + 2 artanh s`, where
`s = (m - 1) / (m + 1)`. Both parts are limits of sums of rationals, `ln 2` being
`2 artanh (1/3)`, and the decimal of a weight stays within `10^-25` of these sums from some
number of terms on.
-/

namespace ReferralForest
open Numeric Decimal Filter Topology

def artanhTerms (s : ℚ) (n : ℕ) : ℚ := ∑ j ∈ Finset.range n, s ^ (2 * j + 1) / (2 * j + 1)

/-- The quotient `(m - 1) / (m + 1)` of a weight `2^k * m`, times `2^k` above and below. -/
def artanhArgument (weight : ℕ) : ℚ :=
  (weight - 2 ^ weight.log2) / (weight + 2 ^ weight.log2)

def partialLog (weight n : ℕ) : ℚ :=
  weight.log2 * (2 * artanhTerms (1 / 3) n) + 2 * artanhTerms (artanhArgument weight) n

theorem cast_artanhTerms (s : ℚ) (n : ℕ) : (artanhTerms s n : ℝ) = oddSum s n := by
  rw [artanhTerms, oddSum_eq]
  push_cast
  rfl

theorem tendsto_oddSum {x : ℝ} (hx : |x| ≤ 1 / 3) :
    Tendsto (fun n => 2 * oddSum x n) atTop (𝓝 (Real.log ((1 + x) / (1 - x)))) := by
  have hpower : Tendsto (fun n : ℕ => 9 / 4 * (1 / 3 * (1 / 9 : ℝ) ^ n)) atTop (𝓝 0) := by
    have hgeometric : Tendsto (fun n : ℕ => (1 / 9 : ℝ) ^ n) atTop (𝓝 0) :=
      tendsto_pow_atTop_nhds_zero_of_lt_one (by norm_num) (by norm_num)
    have hscaled := (hgeometric.const_mul (1 / 3)).const_mul (9 / 4)
    rwa [mul_zero, mul_zero] at hscaled
  rw [tendsto_iff_dist_tendsto_zero]
  refine squeeze_zero (fun _ => dist_nonneg) (fun n => ?_) hpower
  have hle := abs_odd_power_le hx n
  rw [abs_pow] at hle
  rw [Real.dist_eq, abs_sub_comm]
  exact (abs_log_sub_oddSum_le hx n).trans (by linarith)

variable {weight : ℕ}

theorem artanhArgument_cast (weight : ℕ) : (artanhArgument weight : ℝ) =
    (weight / 2 ^ weight.log2 - 1) / (weight / 2 ^ weight.log2 + 1) := by
  have hpower : (2 : ℝ) ^ weight.log2 ≠ 0 := by positivity
  rw [artanhArgument]
  push_cast
  field_simp

theorem tendsto_partialLog (hpos : 0 < weight) :
    Tendsto (fun n => (partialLog weight n : ℝ)) atTop (𝓝 (Real.log weight)) := by
  obtain ⟨hlow, hhigh⟩ := scaled_bounds hpos
  have htwo : (1 + 1 / 3 : ℝ) / (1 - 1 / 3) = 2 := by norm_num
  have hexponent := tendsto_oddSum (x := 1 / 3) (by norm_num)
  have hmantissa := tendsto_oddSum (abs_quotient_le_third (by linarith) hhigh)
  rw [htwo] at hexponent
  rw [ratio_quotient (by linarith), log_scaled hpos] at hmantissa
  have hsum := (hexponent.const_mul (weight.log2 : ℝ)).add hmantissa
  rw [add_sub_cancel] at hsum
  refine hsum.congr fun n => ?_
  rw [partialLog]
  push_cast
  rw [cast_artanhTerms, cast_artanhTerms, artanhArgument_cast]
  norm_num

/-- Every weight of 64 bits has a logarithm within `10^-25` of the exact one, which is the limit
of the two series, and so of all sums of enough of their terms. -/
theorem lnWeight_within (hpos : 0 < weight) (hword : weight < 2 ^ 64) :
    ∃ r, lnWeight weight = some r ∧
      |(r.toRat : ℝ) - Real.log weight| < 1 / 10 ^ 25 ∧
      Tendsto (fun n => (partialLog weight n : ℝ)) atTop (𝓝 (Real.log weight)) ∧
      ∃ least, ∀ n ≥ least, |r.toRat - partialLog weight n| < 1 / 10 ^ 25 := by
  obtain ⟨r, hr, hnear⟩ := lnWeight_near hpos hword
  rw [← toRat_cast] at hnear
  have hlimit := tendsto_partialLog hpos
  refine ⟨r, hr, hnear, hlimit, ?_⟩
  have hdistance := (tendsto_const_nhds (x := (r.toRat : ℝ))).sub hlimit |>.abs
  obtain ⟨least, hleast⟩ := eventually_atTop.mp (hdistance.eventually_lt_const hnear)
  refine ⟨least, fun n hn => Rat.cast_lt.mp (?_ : (_ : ℝ) < _)⟩
  push_cast
  exact hleast n hn

theorem lnWeight_within_largest :
    let weight : ℕ := 18446744073709551615
    0 < weight ∧ weight < 2 ^ 64 ∧ ∃ r, lnWeight weight = some r ∧
      |(r.toRat : ℝ) - Real.log weight| < 1 / 10 ^ 25 ∧
      Tendsto (fun n => (partialLog weight n : ℝ)) atTop (𝓝 (Real.log weight)) ∧
      ∃ least, ∀ n ≥ least, |r.toRat - partialLog weight n| < 1 / 10 ^ 25 :=
  ⟨by decide, by decide, lnWeight_within (by decide) (by decide)⟩

end ReferralForest
