import ReferralForest.Numeric.Decimal
import ReferralForest.Proofs.Rounding

/-!
# Rounding of decimals

An operation on decimals has a result wherever the exact value fits, and the result is
within half a unit of every place to which the exact value fits: of the 28th for values
below 7, of the 26th for those below 100.
-/

namespace ReferralForest.Numeric

namespace Decimal

noncomputable def value (x : Decimal) : ℝ := (x.units : ℝ) / 10 ^ 28

theorem value_eq (x : Decimal) : x.value = signed x.negative (x.mantissa / 10 ^ x.scale) := by
  have hscale : (10 : ℝ) ^ 28 = 10 ^ (28 - x.scale) * 10 ^ x.scale := by
    rw [← pow_add, Nat.sub_add_cancel x.scale_le]
  have hmag : ((x.mantissa * tenPow (28 - x.scale) : ℕ) : ℝ) / 10 ^ 28 =
      x.mantissa / 10 ^ x.scale := by
    rw [tenPow_eq, hscale]
    push_cast
    field_simp
  rw [value, units, ← hmag]
  cases x.negative
  · rfl
  · simp only [signed, if_true]
    push_cast
    ring

theorem dvd_units {x : Decimal} {scale : ℕ} (h : x.scale ≤ scale) :
    ((tenPow (28 - scale) : ℕ) : ℤ) ∣ x.units := by
  have hpow : tenPow (28 - scale) ∣ x.mantissa * tenPow (28 - x.scale) :=
    dvd_mul_of_dvd_right (pow_dvd_pow 10 (by omega)) _
  rw [units]
  cases x.negative
  · exact Int.natCast_dvd_natCast.mpr hpow
  · exact dvd_neg.mpr (Int.natCast_dvd_natCast.mpr hpow)

theorem toRat_cast (x : Decimal) : (x.toRat : ℝ) = x.value := by
  rw [toRat, value, tenPow_eq, Rat.cast_div, Rat.cast_intCast, Rat.cast_natCast, Nat.cast_pow]
  rfl

theorem lt_iff_value_lt {x y : Decimal} : x < y ↔ x.value < y.value := by
  rw [value, value, div_lt_div_iff_of_pos_right (by positivity), Int.cast_lt]
  rfl

theorem value_neg (x : Decimal) : x.neg.value = -x.value := by
  rw [value_eq, value_eq, neg, signed_not]

@[simp] theorem value_zero : zero.value = 0 := by simp [value_eq, zero, signed]

@[simp] theorem value_one : one.value = 1 := by simp [value_eq, one, signed]

@[simp] theorem value_two : two.value = 2 := by simp [value_eq, two, signed]

theorem isZero_iff {x : Decimal} : x.isZero = true ↔ x.value = 0 := by
  rw [isZero, beq_iff_eq, value_eq, ← abs_eq_zero, abs_signed, abs_eq_zero, div_eq_zero_iff,
    Nat.cast_eq_zero]
  exact (or_iff_left (by positivity)).symm

theorem isZero_of_small {x : Decimal} (h : |x.value| < 1 / 10 ^ 28) : x.isZero = true := by
  have hunits : |(x.units : ℝ)| < 1 := by
    rwa [value, abs_div, abs_of_pos (by positivity : (0 : ℝ) < 10 ^ 28),
      div_lt_div_iff_of_pos_right (by positivity)] at h
  have hzero : x.units = 0 := Int.abs_lt_one_iff.mp (by exact_mod_cast hunits)
  rw [isZero_iff, value, hzero]
  simp

theorem value_le_of_near {x y : Decimal} {v : ℝ} (hy : y.value ≤ v)
    (h : |x.value - v| ≤ 1 / 2 / 10 ^ 28) : y.value ≤ x.value := by
  by_contra! hlt
  have hunits : x.units + 1 ≤ y.units := lt_iff_value_lt.mpr hlt
  have hcast : (x.units : ℝ) + 1 ≤ y.units := by exact_mod_cast hunits
  have hstep : x.value + 1 / 10 ^ 28 ≤ y.value := by
    rw [value, value, ← add_div]
    exact div_le_div_of_nonneg_right hcast (by positivity)
  linarith [(abs_le.mp h).1]

theorem value_nonneg_iff {x : Decimal} : 0 ≤ x.value ↔ 0 ≤ x.units := by
  rw [value, le_div_iff₀ (by positivity), zero_mul, Int.cast_nonneg_iff]

/-- An operation that gives a decimal within half a unit of a place of the exact value. -/
def Gives (r? : Option Decimal) (exact : ℝ) (place : ℕ) : Prop :=
  ∃ r, r? = some r ∧ |r.value - exact| ≤ 1 / 2 / 10 ^ place

theorem gives_some {r : Decimal} {v : ℝ} (h : r.value = v) (place : ℕ) :
    Gives (some r) v place := by
  refine ⟨r, rfl, ?_⟩
  rw [h, sub_self, abs_zero]
  positivity

theorem value_ofNat {n : ℕ} (h : n < twoPow 96) : ∃ r, ofNat? n = some r ∧ r.value = n := by
  refine ⟨_, dif_pos h, ?_⟩
  simp [value_eq, signed]

theorem gives_rounded (negative : Bool) {n d scale place : ℕ} (hd : 0 < d) (hscale : scale ≤ 28)
    (hfits : divHalfEven (n * tenPow scale) d < twoPow 96)
    (hplace : place ≤ scale ∨ d ∣ n * tenPow scale) :
    Gives (some ⟨negative, divHalfEven (n * tenPow scale) d, scale, hfits, hscale⟩)
      (signed negative (n / d)) place := by
  have hten : (0 : ℝ) < 10 ^ scale := by positivity
  have hd' : (d : ℝ) ≠ 0 := Nat.cast_ne_zero.mpr hd.ne'
  have hscaled : ((n * tenPow scale : ℕ) : ℝ) / d = n / d * 10 ^ scale := by
    rw [tenPow_eq]
    push_cast
    ring
  refine ⟨_, rfl, ?_⟩
  rw [value_eq, signed_sub, abs_signed]
  have herror : (divHalfEven (n * tenPow scale) d : ℝ) / 10 ^ scale - n / d =
      ((divHalfEven (n * tenPow scale) d : ℝ) - (n * tenPow scale : ℕ) / d) / 10 ^ scale := by
    rw [hscaled]
    field_simp
  simp only [herror, abs_div, abs_of_pos hten]
  rcases hplace with hplace | hexact
  · calc |(divHalfEven (n * tenPow scale) d : ℝ) - (n * tenPow scale : ℕ) / d| / 10 ^ scale
        ≤ 1 / 2 / 10 ^ scale := div_le_div_of_nonneg_right (abs_divHalfEven_sub_le _ hd) hten.le
      _ ≤ 1 / 2 / 10 ^ place :=
        div_le_div_of_nonneg_left (by norm_num) (by positivity)
          (pow_le_pow_right₀ (by norm_num) hplace)
  · obtain ⟨q, hq⟩ := hexact
    rw [hq, Nat.mul_comm d q, divHalfEven_mul q d hd]
    push_cast
    rw [mul_div_cancel_right₀ _ hd', sub_self, abs_zero, zero_div]
    positivity

/-- The largest scale that fits is at least every place to which the exact value fits. -/
theorem gives_fit (negative : Bool) {n d scale place : ℕ} (hd : 0 < d) (hscale : scale ≤ 28)
    (hplace : place ≤ scale ∨ d ∣ n * tenPow scale)
    (hfits : (n / d : ℝ) * 10 ^ place + 1 < 2 ^ 96) :
    Gives (fit negative n d scale hscale) (signed negative (n / d)) place := by
  have hrounded : ∀ s, s ≤ place → divHalfEven (n * tenPow s) d < twoPow 96 := by
    intro s hs
    have hnear := (abs_le.mp (abs_divHalfEven_sub_le (n * tenPow s) hd)).2
    have hle : ((n * tenPow s : ℕ) : ℝ) / d ≤ (n / d : ℝ) * 10 ^ place := by
      have hpow : (10 : ℝ) ^ s ≤ 10 ^ place := pow_le_pow_right₀ (by norm_num) hs
      calc ((n * tenPow s : ℕ) : ℝ) / d = n / d * 10 ^ s := by
            rw [tenPow_eq]
            push_cast
            ring
        _ ≤ n / d * 10 ^ place := mul_le_mul_of_nonneg_left hpow (by positivity)
    have hlt : (divHalfEven (n * tenPow s) d : ℝ) < 2 ^ 96 := by linarith
    rw [twoPow_eq]
    exact_mod_cast hlt
  induction scale with
  | zero =>
    have h0 := hrounded 0 (Nat.zero_le _)
    have hgives := gives_rounded negative hd hscale h0 hplace
    have hone : n * tenPow 0 = n := Nat.mul_one n
    simp only [hone] at h0 hgives
    rw [fit, dif_pos h0]
    exact hgives
  | succ s ih =>
    rw [fit]
    split
    · rename_i hs
      exact gives_rounded negative hd hscale hs hplace
    · rename_i hs
      have hlt : s + 1 ≤ 28 ∧ place ≤ s := by
        refine ⟨hscale, ?_⟩
        by_contra hgt
        exact hs (hrounded (s + 1) (by omega))
      exact ih (by omega) (.inl hlt.2)

theorem fits_of_abs_le {v bound : ℝ} {place : ℕ} (h : |v| ≤ bound)
    (hbound : bound * 10 ^ place + 1 < 2 ^ 96) : |v| * 10 ^ place + 1 < 2 ^ 96 :=
  lt_of_le_of_lt (add_le_add_left (mul_le_mul_of_nonneg_right h (by positivity)) 1) hbound

variable {x y : Decimal} {place : ℕ}

theorem gives_add (h : |x.value + y.value| * 10 ^ place + 1 < 2 ^ 96) :
    Gives (x.add y) (x.value + y.value) place := by
  rw [add]
  split
  · rename_i hx
    exact gives_some (by rw [isZero_iff.mp hx, zero_add]) place
  split
  · rename_i hy
    exact gives_some (by rw [isZero_iff.mp hy, add_zero]) place
  set t := x.units + y.units with ht
  have hvalue : x.value + y.value = (t : ℝ) / 10 ^ 28 := by
    rw [value, value, ht]
    push_cast
    ring
  have habs : ((t.natAbs : ℕ) : ℝ) / (tenPow 28 : ℕ) = |x.value + y.value| := by
    rw [hvalue, abs_div, abs_of_pos (by positivity : (0 : ℝ) < 10 ^ 28), tenPow_eq, Nat.cast_pow,
      Nat.cast_natAbs, Int.cast_abs]
    rfl
  have hsign : decide (t < 0) = decide (x.value + y.value < 0) := by
    rw [hvalue, decide_eq_decide, div_lt_iff₀ (by positivity), zero_mul, Int.cast_lt_zero]
  have hexact : place ≤ max x.scale y.scale ∨
      tenPow 28 ∣ t.natAbs * tenPow (max x.scale y.scale) := by
    refine .inr ?_
    have hunits : ((tenPow (28 - max x.scale y.scale) : ℕ) : ℤ) ∣ t :=
      dvd_add (dvd_units (Nat.le_max_left _ _)) (dvd_units (Nat.le_max_right _ _))
    have hsplit : tenPow 28 = tenPow (28 - max x.scale y.scale) * tenPow (max x.scale y.scale) := by
      rw [tenPow_eq, tenPow_eq, tenPow_eq, ← pow_add,
        Nat.sub_add_cancel (Nat.max_le.mpr ⟨x.scale_le, y.scale_le⟩)]
    rw [hsplit]
    exact Nat.mul_dvd_mul_right (Int.natCast_dvd.mp hunits) _
  have hfit := gives_fit (decide (t < 0)) (tenPow_pos 28)
    (Nat.max_le.mpr ⟨x.scale_le, y.scale_le⟩) hexact (by rwa [habs])
  rwa [habs, hsign, signed_abs, ← hsign] at hfit

theorem gives_sub (h : |x.value - y.value| * 10 ^ place + 1 < 2 ^ 96) :
    Gives (x.sub y) (x.value - y.value) place := by
  rw [sub]
  split
  · rename_i hy
    rw [isZero_iff.mp hy]
    split
    · rename_i hx
      exact gives_some (by rw [isZero_iff.mp hx, isZero_iff.mp hy, sub_zero]) place
    · exact gives_some (sub_zero _).symm place
  · rw [sub_eq_add_neg, ← value_neg] at h ⊢
    exact gives_add h

theorem gives_mul (hplace : place ≤ 28) (h : |x.value * y.value| * 10 ^ place + 1 < 2 ^ 96) :
    Gives (x.mul y) (x.value * y.value) place := by
  rw [mul]
  split
  · rename_i hzero
    refine gives_some ?_ place
    rcases Bool.or_eq_true .. ▸ hzero with hx | hy
    · rw [isZero_iff.mp hx, zero_mul, value_zero]
    · rw [isZero_iff.mp hy, mul_zero, value_zero]
  have hquotient : ((x.mantissa * y.mantissa : ℕ) : ℝ) / (tenPow (x.scale + y.scale) : ℕ) =
      x.mantissa / 10 ^ x.scale * (y.mantissa / 10 ^ y.scale) := by
    rw [tenPow_eq]
    push_cast
    rw [pow_add]
    field_simp
  have hvalue : x.value * y.value = signed (x.negative != y.negative)
      (((x.mantissa * y.mantissa : ℕ) : ℝ) / (tenPow (x.scale + y.scale) : ℕ)) := by
    rw [value_eq, value_eq, signed_mul, hquotient]
  have hexact : place ≤ min 28 (x.scale + y.scale) ∨
      tenPow (x.scale + y.scale) ∣
        x.mantissa * y.mantissa * tenPow (min 28 (x.scale + y.scale)) := by
    rcases Nat.le_total 28 (x.scale + y.scale) with hle | hle
    · rw [Nat.min_eq_left hle]
      exact .inl hplace
    · rw [Nat.min_eq_right hle]
      exact .inr (Nat.dvd_mul_left _ _)
  rw [hvalue] at h ⊢
  rw [abs_signed, abs_of_nonneg (by positivity)] at h
  exact gives_fit _ (tenPow_pos _) (Nat.min_le_left ..) hexact h

theorem gives_div (hplace : place ≤ 28) (hy : y.value ≠ 0)
    (h : |x.value / y.value| * 10 ^ place + 1 < 2 ^ 96) :
    Gives (x.div y) (x.value / y.value) place := by
  have hy' : ¬y.isZero = true := fun hzero => hy (isZero_iff.mp hzero)
  have hmantissa : 0 < y.mantissa := by
    rw [isZero, beq_iff_eq] at hy'
    exact Nat.pos_of_ne_zero hy'
  rw [div, if_neg hy']
  split
  · rename_i hx
    exact gives_some (by rw [isZero_iff.mp hx, zero_div, value_zero]) place
  have hquotient : ((x.mantissa * tenPow y.scale : ℕ) : ℝ) / (y.mantissa * tenPow x.scale : ℕ) =
      x.mantissa / 10 ^ x.scale / (y.mantissa / 10 ^ y.scale) := by
    rw [tenPow_eq, tenPow_eq]
    push_cast
    field_simp
  have hvalue : x.value / y.value = signed (x.negative != y.negative)
      (((x.mantissa * tenPow y.scale : ℕ) : ℝ) / (y.mantissa * tenPow x.scale : ℕ)) := by
    rw [value_eq, value_eq, signed_div, hquotient]
  rw [hvalue] at h ⊢
  rw [abs_signed, abs_of_nonneg (by positivity)] at h
  exact gives_fit _ (Nat.mul_pos hmantissa (tenPow_pos _)) largest_scale_le (.inl hplace) h

end Decimal
end ReferralForest.Numeric
