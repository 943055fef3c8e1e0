import Mathlib.Analysis.SpecialFunctions.Log.Basic
import ReferralForest.Numeric.Elementary
import ReferralForest.Proofs.DoubleRounding
import ReferralForest.Proofs.OddSeries

/-!
# Logarithms in fixed point

The logarithm of a ratio in units of `2^-320` is the same rounded series as that of a
decimal, with every quotient rounded down. Its error is far below what a double can tell,
so that the logarithm of a double is the exact one, rounded.
-/

namespace ReferralForest.Numeric.Elementary

noncomputable def fixed (t : ℤ) : ℝ := t / unit

@[simp] theorem fixed_zero : fixed 0 = 0 := by simp [fixed]

theorem fixed_add (a b : ℤ) : fixed (a + b) = fixed a + fixed b := by
  rw [fixed, Int.cast_add, add_div]
  rfl

theorem fixed_two_mul (a : ℤ) : fixed (2 * a) = 2 * fixed a := by rw [two_mul, fixed_add, two_mul]

theorem unit_pos : (0 : ℝ) < unit := Int.cast_pos.mpr (Int.natCast_pos.mpr (twoPow_pos 320))

theorem one_div_unit_le : 1 / (unit : ℝ) ≤ 1 / 2 ^ 250 := by
  have hunit : (unit : ℝ) = 2 ^ 320 := by
    rw [unit, twoPow_eq, Int.cast_natCast, Nat.cast_pow]
    rfl
  rw [hunit]
  exact one_div_le_one_div_of_le (by positivity) (pow_le_pow_right₀ (by norm_num) (by norm_num))

theorem abs_ediv_sub_le (a : ℤ) {b : ℤ} (hb : 0 < b) : |((a / b : ℤ) : ℝ) - a / b| ≤ 1 := by
  have hb' : (0 : ℝ) < b := Int.cast_pos.mpr hb
  have hlow : ((a / b : ℤ) : ℝ) * b ≤ a := by exact_mod_cast Int.ediv_mul_le a hb.ne'
  have hhigh : (a : ℝ) ≤ ((a / b : ℤ) + 1) * b := by
    exact_mod_cast (Int.lt_ediv_add_one_mul_self a hb).le
  rw [← le_div_iff₀ hb'] at hlow
  rw [← div_le_iff₀ hb'] at hhigh
  rw [abs_le]
  constructor <;> linarith

theorem fixed_ediv (a : ℤ) {b : ℤ} (hb : 0 < b) : |fixed (a / b) - fixed a / b| ≤ 1 / unit := by
  have heq : fixed (a / b) - fixed a / b = (((a / b : ℤ) : ℝ) - a / b) / unit := by
    rw [fixed, fixed]
    ring
  rw [heq, abs_div, abs_of_pos unit_pos]
  exact div_le_div_of_nonneg_right (abs_ediv_sub_le a hb) unit_pos.le

theorem fixed_mul (a b : ℤ) : |fixed (a * b / unit) - fixed a * fixed b| ≤ 1 / unit := by
  have heq : fixed a * fixed b = fixed (a * b) / unit := by
    rw [fixed, fixed, fixed, Int.cast_mul]
    ring
  rw [heq]
  exact fixed_ediv (a * b) (Int.cast_pos.mp unit_pos)

section Series
variable {x sum : ℝ} {square power : ℤ} {j : ℕ}

theorem oddSeries_near (hx : |x| ≤ 1 / 3) (hsquare : |fixed square - x ^ 2| ≤ 3 * (1 / unit))
    (terms : ℕ) (h : OnSeries x (1 / unit) j (fixed power) sum) :
    ∃ p, OnSeries x (1 / unit) (j + terms) p
      (sum + fixed (oddSeries square terms power (2 * j + 1))) := by
  have hε : 0 ≤ 1 / (unit : ℝ) ∧ 1 / (unit : ℝ) ≤ 1 / 100 :=
    ⟨(one_div_pos.mpr unit_pos).le, one_div_unit_le.trans (by norm_num)⟩
  induction terms generalizing j power sum with
  | zero =>
    rw [oddSeries, fixed_zero]
    exact ⟨fixed power, (add_zero sum).symm ▸ h⟩
  | succ terms ih =>
    have hterm := fixed_ediv power (Int.natCast_pos.mpr (Nat.succ_pos (2 * j)))
    push_cast at hterm
    have hsum : |sum + fixed (power / ((2 * j + 1 : ℕ) : ℤ)) -
        (sum + fixed (power / ((2 * j + 1 : ℕ) : ℤ)))| ≤ 1 / unit := by
      rw [sub_self, abs_zero]
      exact hε.1
    obtain ⟨p, hp⟩ := ih (h.next hx hε hsquare hterm (fixed_mul power square) hsum)
    have hcount : j + (terms + 1) = j + 1 + terms := by omega
    have hodd : 2 * j + 1 + 2 = 2 * (j + 1) + 1 := by ring
    rw [oddSeries, fixed_add, hcount, hodd, ← add_assoc]
    exact ⟨p, hp⟩

theorem atanh_near {z : ℤ} (hx : |x| ≤ 1 / 3) (hz : |fixed z - x| ≤ 1 / unit) :
    |fixed (2 * atanh z) - Real.log ((1 + x) / (1 - x))| ≤ 1 / 2 ^ 210 := by
  have hpos := one_div_pos.mpr unit_pos
  have hunit := one_div_unit_le
  have hsquare := OnSeries.square hx ⟨hpos.le, hunit.trans (by norm_num)⟩
    (hz.trans (by linarith)) (fixed_mul z z)
  obtain ⟨p, hp⟩ := oddSeries_near hx hsquare 110 (OnSeries.start (hz.trans (by linarith)))
  rw [zero_add, zero_add] at hp
  have hstop := hp.stop hx
  have hrest := abs_odd_power_le hx 110
  have hsmall : 10 * 110 * (1 / 2 ^ 250) + 9 / 4 * (1 / 3 * (1 / 9) ^ 110) ≤ (1 / 2 ^ 210 : ℝ) := by
    norm_num
  rw [abs_pow] at hrest
  rw [← fixed_two_mul] at hstop
  push_cast at hstop
  exact hstop.trans (by linarith)

theorem ln2_near : |fixed ln2 - Real.log 2| ≤ 1 / 2 ^ 210 := by
  have hthird : |fixed (unit / 3) - 1 / 3| ≤ 1 / unit := by
    have hnear := fixed_ediv unit (b := 3) (by norm_num)
    have hone : fixed unit = 1 := div_self unit_pos.ne'
    rwa [hone] at hnear
  have htwo : (1 + 1 / 3 : ℝ) / (1 - 1 / 3) = 2 := by norm_num
  have hnear := atanh_near (by norm_num) hthird
  rwa [htwo] at hnear

end Series

section Ratio
variable {n d : ℕ}

theorem lnRatio_split (hn : 0 < n) (hd : 0 < d) :
    ∃ a b : ℤ, 0 < a ∧ 0 < b ∧ (a / b : ℝ) = n / d / 2 ^ ((n.log2 : ℤ) - d.log2) ∧
      lnRatio n d = 2 * atanh ((a - b) * unit / (a + b)) + ((n.log2 : ℤ) - d.log2) * ln2 := by
  set k : ℤ := (n.log2 : ℤ) - d.log2 with hk
  rcases le_or_gt 0 k with hsign | hsign
  · refine ⟨n, d * twoPow k.toNat, by positivity, ?_, ?_, ?_⟩
    · exact mul_pos (by positivity) (Int.natCast_pos.mpr (twoPow_pos _))
    · push_cast
      rw [two_pow_toNat hsign, div_mul_eq_div_div]
    · simp only [lnRatio, ← hk, if_pos hsign]
  · refine ⟨n * twoPow (-k).toNat, d, ?_, by positivity, ?_, ?_⟩
    · exact mul_pos (by positivity) (Int.natCast_pos.mpr (twoPow_pos _))
    · push_cast
      rw [two_pow_toNat (by omega), zpow_neg, div_eq_mul_inv _ ((2 : ℝ) ^ k)]
      ring
    · simp only [lnRatio, ← hk, if_neg (not_le.mpr hsign)]

theorem fixed_argument_near {a b : ℤ} (ha : 0 < a) (hb : 0 < b) :
    |fixed ((a - b) * unit / (a + b)) - ((a / b : ℝ) - 1) / (a / b + 1)| ≤ 1 / unit := by
  have hb' : (0 : ℝ) < b := Int.cast_pos.mpr hb
  have hsum : (0 : ℝ) < a + b := by exact_mod_cast add_pos ha hb
  have hnear := fixed_ediv ((a - b) * unit) (add_pos ha hb)
  have heq : fixed ((a - b) * unit) / (a + b : ℤ) = ((a / b : ℝ) - 1) / (a / b + 1) := by
    rw [fixed, Int.cast_mul, mul_div_cancel_right₀ _ unit_pos.ne']
    push_cast
    field_simp
  rwa [heq] at hnear

theorem lnRatio_near (hn : 0 < n) (hd : 0 < d) :
    |fixed (lnRatio n d) - Real.log (n / d)| ≤
      (1 + |(n.log2 : ℝ) - d.log2|) * (1 / 2 ^ 210) := by
  obtain ⟨a, b, ha, hb, hratio, heq⟩ := lnRatio_split hn hd
  obtain ⟨hlow, hhigh⟩ := log2_ratio hn hd
  have hpow : (0 : ℝ) < 2 ^ ((n.log2 : ℤ) - d.log2) := by positivity
  have hr : (1 / 2 : ℝ) ≤ a / b ∧ (a / b : ℝ) ≤ 2 := by
    rw [hratio, le_div_iff₀ hpow, div_le_iff₀ hpow]
    constructor <;> linarith
  have hseries := atanh_near (abs_quotient_le_third hr.1 hr.2) (fixed_argument_near ha hb)
  rw [ratio_quotient (by linarith)] at hseries
  have hlog : Real.log (n / d) = Real.log (a / b) + (n.log2 - d.log2) * Real.log 2 := by
    have hne : (n / d : ℝ) ≠ 0 := by positivity
    rw [hratio, Real.log_div hne hpow.ne', Real.log_zpow]
    push_cast
    ring
  have hmultiple : fixed (((n.log2 : ℤ) - d.log2) * ln2) = (n.log2 - d.log2) * fixed ln2 := by
    rw [fixed, fixed]
    push_cast
    ring
  have htwo : |((n.log2 : ℝ) - d.log2) * (fixed ln2 - Real.log 2)| ≤
      |(n.log2 : ℝ) - d.log2| * (1 / 2 ^ 210) := by
    rw [abs_mul]
    exact mul_le_mul_of_nonneg_left ln2_near (abs_nonneg _)
  rw [heq, fixed_add, hmultiple, hlog]
  rw [abs_le] at hseries htwo ⊢
  constructor <;> linarith

end Ratio

end ReferralForest.Numeric.Elementary

namespace ReferralForest.Numeric.Binary64
open Elementary

theorem ofUnits_near {t : ℤ} (hle : |fixed t| ≤ 2 ^ 100) :
    |(ofUnits t).value - fixed t| ≤ |fixed t| / 2 ^ 52 + 1 / 2 ^ 200 ∧
      (ofUnits t).significand < twoPow 64 := by
  have habs : (t.natAbs : ℝ) / (twoPow 320 : ℕ) = |fixed t| := by
    rw [fixed, abs_div, abs_of_pos unit_pos, Nat.cast_natAbs, Int.cast_abs]
    rfl
  have hsign : decide (t < 0) = decide (fixed t < 0) := by
    rw [decide_eq_decide, fixed, div_lt_iff₀ unit_pos, zero_mul, Int.cast_lt_zero]
  have hnear := ofRatio_near (decide (t < 0)) t.natAbs (twoPow_pos 320) (habs ▸ hle)
  rwa [habs, hsign, signed_abs, ← hsign] at hnear

theorem abs_log2_sub_le {n d : ℕ} (hn : 0 < n) (hd : 0 < d) (hlow : 1 / 2 ^ 100 ≤ (n / d : ℝ))
    (hhigh : (n / d : ℝ) ≤ 2 ^ 100) : |(n.log2 : ℝ) - d.log2| ≤ 101 := by
  obtain ⟨hbelow, habove⟩ := log2_ratio hn hd
  have hmax : (2 : ℝ) ^ ((n.log2 : ℤ) - d.log2) < 2 ^ (101 : ℤ) := by
    norm_num at hhigh ⊢
    linarith
  have hmin : (2 : ℝ) ^ (-101 : ℤ) < 2 ^ ((n.log2 : ℤ) - d.log2) := by
    norm_num at hlow ⊢
    linarith
  rw [zpow_lt_zpow_iff_right₀ (by norm_num)] at hmax hmin
  have habs : |(n.log2 : ℤ) - d.log2| ≤ 101 := abs_le.mpr ⟨by omega, by omega⟩
  exact_mod_cast habs

theorem abs_log_le {r : ℝ} (hlow : 1 / 2 ^ 100 ≤ r) (hhigh : r ≤ 2 ^ 100) : |Real.log r| ≤ 70 := by
  have hpos : 0 < r := lt_of_lt_of_le (by positivity) hlow
  have htwo := log_two_bounds.2
  have hmax := Real.log_le_log hpos hhigh
  have hmin := Real.log_le_log (by positivity) hlow
  rw [one_div, Real.log_inv] at hmin
  rw [Real.log_pow] at hmin hmax
  push_cast at hmin hmax
  rw [abs_le]
  constructor <;> linarith

/-- The rounded logarithm of a rational, as both logarithms of doubles compute it. -/
theorem roundedLog_near {r : ℚ} (hlow : 1 / 2 ^ 100 ≤ (r : ℝ)) (hhigh : (r : ℝ) ≤ 2 ^ 100) :
    |(ofUnits (lnRatio r.num.natAbs r.den)).value - Real.log r| ≤
        |Real.log r| / 2 ^ 50 + 1 / 2 ^ 150 ∧
      (ofUnits (lnRatio r.num.natAbs r.den)).significand < twoPow 64 := by
  have hpos : (0 : ℝ) < r := lt_of_lt_of_le (by positivity) hlow
  have hnum : 0 < r.num.natAbs :=
    Int.natAbs_pos.mpr (Rat.num_ne_zero.mpr (Rat.cast_pos.mp hpos).ne')
  have hcast : (r.num.natAbs : ℝ) / r.den = r := by rw [natAbs_div_den, abs_of_pos hpos]
  have hlog := lnRatio_near hnum r.den_pos
  have hk := abs_log2_sub_le hnum r.den_pos (hcast ▸ hlow) (hcast ▸ hhigh)
  rw [hcast] at hlog
  set l := fixed (lnRatio r.num.natAbs r.den) with hl
  have hfixed : |l - Real.log r| ≤ 1 / 2 ^ 200 := by
    refine hlog.trans ?_
    norm_num at hk ⊢
    linarith
  have hle : |l| ≤ 1 / 2 ^ 200 + 70 := abs_le_add_of_near hfixed (abs_log_le hlow hhigh)
  obtain ⟨hnear, hword⟩ := ofUnits_near (hle.trans (by norm_num))
  refine ⟨?_, hword⟩
  have hle' : |l| ≤ 1 / 2 ^ 200 + |Real.log r| := abs_le_add_of_near hfixed le_rfl
  have hpart : (|Real.log r| + 1 / 2 ^ 200) / 2 ^ 52 + 2 / 2 ^ 200 ≤
      |Real.log r| / 2 ^ 50 + 1 / 2 ^ 150 := by
    have hnonneg := abs_nonneg (Real.log r)
    norm_num
    linarith
  calc |(ofUnits (lnRatio r.num.natAbs r.den)).value - Real.log r|
      ≤ |(ofUnits (lnRatio r.num.natAbs r.den)).value - l| + |l - Real.log r| := abs_sub_le _ _ _
    _ ≤ |l| / 2 ^ 52 + 1 / 2 ^ 200 + 1 / 2 ^ 200 := add_le_add hnear hfixed
    _ ≤ |Real.log r| / 2 ^ 50 + 1 / 2 ^ 150 := by
      norm_num at hle' hpart ⊢
      linarith

variable {x : Binary64}

theorem ln_near (hlow : 1 / 2 ^ 100 ≤ x.value) (hhigh : x.value ≤ 2 ^ 100) :
    |x.ln.value - Real.log x.value| ≤ |Real.log x.value| / 2 ^ 50 + 1 / 2 ^ 150 ∧
      x.ln.significand < twoPow 64 :=
  roundedLog_near hlow hhigh

theorem ln1p_near (hne : x.value ≠ 0) (hlow : 1 / 2 ^ 100 ≤ 1 + x.value)
    (hhigh : 1 + x.value ≤ 2 ^ 100) :
    |x.ln1p.value - Real.log (1 + x.value)| ≤ |Real.log (1 + x.value)| / 2 ^ 50 + 1 / 2 ^ 150 := by
  have hsignificand : x.significand ≠ 0 := by
    intro hzero
    apply hne
    rw [← abs_eq_zero, abs_value, hzero]
    simp
  have hcast : ((1 + x.toRat : ℚ) : ℝ) = 1 + x.value := by
    rw [Rat.cast_add, Rat.cast_one]
    rfl
  rw [ln1p, if_neg hsignificand]
  rw [← hcast] at hlow hhigh ⊢
  exact (roundedLog_near hlow hhigh).1

end ReferralForest.Numeric.Binary64
