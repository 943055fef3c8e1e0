import Mathlib.Analysis.SpecialFunctions.Log.Deriv

/-!
# The odd series with rounding

Twice the sum of `x^(2j+1) / (2j+1)` is the logarithm of `(1 + x) / (1 - x)`. Here the
square, the powers, the terms and the sums are each off by a rounding error, and the
error of the whole stays a small multiple of that of one operation, because the powers
shrink faster than errors are added to them.
-/

namespace ReferralForest.Numeric

noncomputable def oddSum (x : ℝ) (n : ℕ) : ℝ :=
  ∑ j ∈ Finset.range n, x ^ (2 * j + 1) / (2 * j + 1 : ℕ)

theorem oddSum_eq (x : ℝ) (n : ℕ) :
    oddSum x n = ∑ j ∈ Finset.range n, x ^ (2 * j + 1) / (2 * j + 1) := by
  simp only [oddSum, Nat.cast_add, Nat.cast_mul, Nat.cast_ofNat, Nat.cast_one]

@[simp] theorem oddSum_zero (x : ℝ) : oddSum x 0 = 0 := Finset.sum_range_zero _

theorem oddSum_succ (x : ℝ) (n : ℕ) :
    oddSum x (n + 1) = oddSum x n + x ^ (2 * n + 1) / (2 * n + 1) := by
  rw [oddSum_eq, oddSum_eq, Finset.sum_range_succ]

theorem abs_le_add_of_near {a b c d : ℝ} (h : |a - b| ≤ c) (hb : |b| ≤ d) : |a| ≤ c + d := by
  rw [abs_le] at h hb ⊢
  constructor <;> linarith

theorem abs_sq_le_ninth {x : ℝ} (hx : |x| ≤ 1 / 3) : |x ^ 2| ≤ 1 / 9 := by
  rw [abs_pow]
  nlinarith [abs_nonneg x]

theorem abs_odd_power_le {x : ℝ} (hx : |x| ≤ 1 / 3) (j : ℕ) :
    |x ^ (2 * j + 1)| ≤ 1 / 3 * (1 / 9) ^ j := by
  have hle := pow_le_pow_left₀ (abs_nonneg x) hx (2 * j + 1)
  have heq : (1 / 3 : ℝ) ^ (2 * j + 1) = 1 / 3 * (1 / 9) ^ j := by
    rw [pow_succ, pow_mul]
    norm_num
    ring
  rwa [heq, ← abs_pow] at hle

theorem abs_power_le_third {x : ℝ} (hx : |x| ≤ 1 / 3) (j : ℕ) : |x ^ (2 * j + 1)| ≤ 1 / 3 := by
  have hle : (1 / 9 : ℝ) ^ j ≤ 1 := pow_le_one₀ (by norm_num) (by norm_num)
  linarith [abs_odd_power_le hx j]

theorem abs_div_odd_le (a : ℝ) (j : ℕ) : |a / (2 * j + 1)| ≤ |a| := by
  have hn : (1 : ℝ) ≤ 2 * j + 1 := by linarith [(Nat.cast_nonneg j : (0 : ℝ) ≤ j)]
  rw [abs_div, abs_of_pos (by linarith : (0 : ℝ) < 2 * j + 1)]
  exact div_le_self (abs_nonneg _) hn

theorem abs_log_sub_oddSum_le {x : ℝ} (hx : |x| ≤ 1 / 3) (n : ℕ) :
    |Real.log ((1 + x) / (1 - x)) - 2 * oddSum x n| ≤ 9 / 4 * |x| ^ (2 * n + 1) := by
  have hx2 : x ^ 2 ≤ 1 / 9 := (le_abs_self _).trans (abs_sq_le_ninth hx)
  have htail := Real.sum_range_sub_log_div_le (lt_of_le_of_lt hx (by norm_num)) n
  have hpow : 0 ≤ |x| ^ (2 * n + 1) := pow_nonneg (abs_nonneg x) _
  have hdiv : |x| ^ (2 * n + 1) / (1 - x ^ 2) ≤ 9 / 8 * |x| ^ (2 * n + 1) := by
    rw [div_le_iff₀ (by linarith)]
    nlinarith
  have htwice : Real.log ((1 + x) / (1 - x)) - 2 * oddSum x n =
      2 * (1 / 2 * Real.log ((1 + x) / (1 - x)) - oddSum x n) := by ring
  rw [htwice, abs_mul, abs_two]
  rw [← oddSum_eq] at htail
  linarith

theorem abs_oddSum_le_one {x : ℝ} (hx : |x| ≤ 1 / 3) (n : ℕ) : |oddSum x n| ≤ 1 := by
  have hgeometric : |oddSum x n| ≤ 1 - (1 / 9) ^ n := by
    induction n with
    | zero => simp
    | succ n ih =>
      have hterm := (abs_div_odd_le _ n).trans (abs_odd_power_le hx n)
      have hpos : (0 : ℝ) ≤ (1 / 9) ^ n := by positivity
      have hnext : (1 / 9 : ℝ) ^ (n + 1) = (1 / 9) ^ n * (1 / 9) := pow_succ _ _
      rw [oddSum_succ]
      linarith [abs_add_le (oddSum x n) (x ^ (2 * n + 1) / (2 * n + 1))]
  have hpos : (0 : ℝ) ≤ (1 / 9) ^ n := by positivity
  linarith

section Quotient
variable {r : ℝ}

theorem abs_quotient_le_third (hlow : 1 / 2 ≤ r) (hhigh : r ≤ 2) : |(r - 1) / (r + 1)| ≤ 1 / 3 := by
  have hpos : 0 < r + 1 := by linarith
  rw [abs_le, le_div_iff₀ hpos, div_le_iff₀ hpos]
  constructor <;> linarith

theorem ratio_quotient (hpos : 0 < r) :
    (1 + (r - 1) / (r + 1)) / (1 - (r - 1) / (r + 1)) = r := by
  have hsum : r + 1 ≠ 0 := by linarith
  have hnum : 1 + (r - 1) / (r + 1) = 2 * r / (r + 1) := by
    field_simp
    ring
  have hden : 1 - (r - 1) / (r + 1) = 2 / (r + 1) := by
    field_simp
    ring
  rw [hnum, hden]
  field_simp

theorem quotient_near {m a b s ε : ℝ} (hlow : 1 ≤ r) (hhigh : r ≤ 2) (hε : 0 ≤ ε ∧ ε ≤ 1 / 100)
    (hm : |m - r| ≤ ε) (ha : |a - (m - 1)| ≤ ε) (hb : |b - (m + 1)| ≤ ε) (hs : |s - a / b| ≤ ε) :
    |s - (r - 1) / (r + 1)| ≤ 5 / 2 * ε := by
  have hx := abs_quotient_le_third (by linarith) hhigh
  set x := (r - 1) / (r + 1) with hxr
  have hxmul : x * (r + 1) = r - 1 := by
    rw [hxr]
    field_simp
  have hbpos : 99 / 50 ≤ b := by
    rw [abs_le] at hm hb
    linarith [hε.2]
  have hnum : |a - (r - 1)| ≤ 2 * ε := by
    rw [abs_le] at hm ha ⊢
    constructor <;> linarith
  have hden : |b - (r + 1)| ≤ 2 * ε := by
    rw [abs_le] at hm hb ⊢
    constructor <;> linarith
  have hcross : |a - x * b| ≤ 8 / 3 * ε := by
    have heq : a - x * b = (a - (r - 1)) - x * (b - (r + 1)) := by
      rw [mul_sub, hxmul]
      ring
    have hproduct : |x * (b - (r + 1))| ≤ 1 / 3 * (2 * ε) := by
      rw [abs_mul]
      exact mul_le_mul hx hden (abs_nonneg _) (by norm_num)
    rw [heq]
    linarith [abs_sub (a - (r - 1)) (x * (b - (r + 1)))]
  have hquotient : |a / b - x| ≤ 3 / 2 * ε := by
    have heq : a / b - x = (a - x * b) / b := by
      rw [sub_div, mul_div_cancel_right₀ _ (by linarith : b ≠ 0)]
    have hscaled : 3 / 2 * ε * (99 / 50) ≤ 3 / 2 * ε * b :=
      mul_le_mul_of_nonneg_left hbpos (by linarith [hε.1])
    rw [heq, abs_div, abs_of_pos (by linarith : 0 < b), div_le_iff₀ (by linarith)]
    linarith [hε.1]
  calc |s - x| ≤ |s - a / b| + |a / b - x| := abs_sub_le _ _ _
    _ ≤ 5 / 2 * ε := by linarith

end Quotient

/-- A power and a sum of the series as rounding leaves them. -/
structure OnSeries (x ε : ℝ) (j : ℕ) (power sum : ℝ) : Prop where
  power : |power - x ^ (2 * j + 1)| ≤ 3 * ε
  sum : |sum - oddSum x j| ≤ 5 * j * ε

namespace OnSeries
variable {x ε power sum : ℝ} {j : ℕ}

theorem start {s : ℝ} (hs : |s - x| ≤ 3 * ε) : OnSeries x ε 0 s 0 where
  power := by simpa using hs
  sum := by simp

theorem square {s q : ℝ} (hx : |x| ≤ 1 / 3) (hε : 0 ≤ ε ∧ ε ≤ 1 / 100) (hs : |s - x| ≤ 5 / 2 * ε)
    (hq : |q - s * s| ≤ ε) : |q - x ^ 2| ≤ 3 * ε := by
  have hsum : |s + x| ≤ 7 / 10 := by
    have heq : s + x = (s - x) + 2 * x := by ring
    calc |s + x| ≤ |s - x| + |2 * x| := heq ▸ abs_add_le _ _
      _ ≤ 5 / 2 * ε + 2 * (1 / 3) := by
        rw [abs_mul, abs_two]
        linarith
      _ ≤ 7 / 10 := by linarith [hε.2]
  have hsq : |s * s - x ^ 2| ≤ 5 / 2 * ε * (7 / 10) := by
    have heq : s * s - x ^ 2 = (s - x) * (s + x) := by ring
    rw [heq, abs_mul]
    exact mul_le_mul hs hsum (abs_nonneg _) (by linarith [hε.1])
  calc |q - x ^ 2| ≤ |q - s * s| + |s * s - x ^ 2| := abs_sub_le _ _ _
    _ ≤ 3 * ε := by linarith [hε.1]

theorem term (h : OnSeries x ε j power sum) {t : ℝ} (ht : |t - power / (2 * j + 1)| ≤ ε) :
    |t - x ^ (2 * j + 1) / (2 * j + 1)| ≤ 4 * ε := by
  have hdiv : |power / (2 * j + 1) - x ^ (2 * j + 1) / (2 * j + 1)| ≤ 3 * ε := by
    rw [← sub_div]
    exact (abs_div_odd_le _ j).trans h.power
  calc |t - x ^ (2 * j + 1) / (2 * j + 1)|
      ≤ |t - power / (2 * j + 1)| + |power / (2 * j + 1) - x ^ (2 * j + 1) / (2 * j + 1)| :=
        abs_sub_le _ _ _
    _ ≤ 4 * ε := by linarith

theorem abs_power_le (h : OnSeries x ε j power sum) (hx : |x| ≤ 1 / 3) (hε : ε ≤ 1 / 100) :
    |power| ≤ 37 / 100 :=
  (abs_le_add_of_near h.power (abs_power_le_third hx j)).trans (by linarith)

theorem abs_sum_le (h : OnSeries x ε j power sum) (hx : |x| ≤ 1 / 3) : |sum| ≤ 5 * j * ε + 1 :=
  abs_le_add_of_near h.sum (abs_oddSum_le_one hx j)

theorem next_power (h : OnSeries x ε j power sum) {q power' : ℝ} (hx : |x| ≤ 1 / 3)
    (hε : 0 ≤ ε ∧ ε ≤ 1 / 100) (hq : |q - x ^ 2| ≤ 3 * ε) (hpower' : |power' - power * q| ≤ ε) :
    |power' - x ^ (2 * (j + 1) + 1)| ≤ 3 * ε := by
  have hpower := h.abs_power_le hx hε.2
  have hx2 := abs_sq_le_ninth hx
  -- The error of the power shrinks by a ninth, that of the square by the power itself.
  have hproduct : |power * q - x ^ (2 * (j + 1) + 1)| ≤ 37 / 100 * (3 * ε) + 3 * ε * (1 / 9) := by
    have heq : power * q - x ^ (2 * (j + 1) + 1) =
        power * (q - x ^ 2) + (power - x ^ (2 * j + 1)) * x ^ 2 := by ring
    rw [heq]
    refine (abs_add_le _ _).trans (add_le_add ?_ ?_)
    · rw [abs_mul]
      exact mul_le_mul hpower hq (abs_nonneg _) (by norm_num)
    · rw [abs_mul]
      exact mul_le_mul h.power hx2 (abs_nonneg _) (by linarith [hε.1])
  calc |power' - x ^ (2 * (j + 1) + 1)|
      ≤ |power' - power * q| + |power * q - x ^ (2 * (j + 1) + 1)| := abs_sub_le _ _ _
    _ ≤ 3 * ε := by linarith [hε.1]

theorem next (h : OnSeries x ε j power sum) {q t power' sum' : ℝ} (hx : |x| ≤ 1 / 3)
    (hε : 0 ≤ ε ∧ ε ≤ 1 / 100) (hq : |q - x ^ 2| ≤ 3 * ε) (ht : |t - power / (2 * j + 1)| ≤ ε)
    (hpower' : |power' - power * q| ≤ ε) (hsum' : |sum' - (sum + t)| ≤ ε) :
    OnSeries x ε (j + 1) power' sum' where
  power := h.next_power hx hε hq hpower'
  sum := by
    have hterm := h.term ht
    have hsum := h.sum
    rw [oddSum_succ]
    push_cast
    rw [abs_le] at hterm hsum hsum' ⊢
    constructor <;> linarith

/-- Where the summation stops, what is left out is no more than the power to come. -/
theorem stop (h : OnSeries x ε j power sum) (hx : |x| ≤ 1 / 3) :
    |2 * sum - Real.log ((1 + x) / (1 - x))| ≤ 10 * j * ε + 9 / 4 * |x| ^ (2 * j + 1) := by
  have hsum := h.sum
  have hrest := abs_log_sub_oddSum_le hx j
  rw [abs_le] at hsum hrest ⊢
  constructor <;> linarith

end OnSeries

theorem log_two_near :
    |Real.log 2 - 69314718055994530941723212145818 / 10 ^ 32| ≤ 1 / 10 ^ 30 := by
  have hseries := abs_log_sub_oddSum_le (x := 1 / 3) (by norm_num) 32
  have htwo : (1 + 1 / 3 : ℝ) / (1 - 1 / 3) = 2 := by norm_num
  have hsum :
      |2 * oddSum (1 / 3) 32 - 69314718055994530941723212145818 / 10 ^ 32| ≤ 1 / 10 ^ 31 := by
    simp only [oddSum_eq, Finset.sum_range_succ, Finset.sum_range_zero]
    norm_num
  rw [htwo] at hseries
  have hrest : (9 / 4 : ℝ) * |1 / 3| ^ (2 * 32 + 1) ≤ 1 / 10 ^ 30 - 1 / 10 ^ 31 := by norm_num
  calc |Real.log 2 - 69314718055994530941723212145818 / 10 ^ 32|
      ≤ |Real.log 2 - 2 * oddSum (1 / 3) 32| +
          |2 * oddSum (1 / 3) 32 - 69314718055994530941723212145818 / 10 ^ 32| := abs_sub_le _ _ _
    _ ≤ 1 / 10 ^ 30 := by linarith

theorem log_two_bounds : 693 / 1000 ≤ Real.log 2 ∧ Real.log 2 ≤ 694 / 1000 := by
  have hnear := log_two_near
  rw [abs_le] at hnear
  constructor <;> linarith

end ReferralForest.Numeric
