import Mathlib.Data.Nat.Cast.Order.Field
import ReferralForest.Numeric.Decimal.Binary
import ReferralForest.Proofs.DecimalRounding
import ReferralForest.Proofs.DoubleRounding

/-!
# From doubles to decimals

A double of moderate size becomes a decimal that is at most slightly larger: the factors
of five keep the value or lose a bit of it, the places beyond the 28th are worth little,
and so is each digit dropped from more than 52 bits.
-/

namespace ReferralForest.Numeric.Decimal

noncomputable def scaled (p : ℕ × ℕ) : ℝ := p.1 / (10 ^ p.2 : ℕ)

theorem scaled_eq (p : ℕ × ℕ) : scaled p = p.1 / 10 ^ p.2 := by
  rw [scaled, Nat.cast_pow, Nat.cast_ofNat]

theorem takeFives_lt {m : ℕ} (h : m < twoPow 96) (steps : ℕ) (e : ℤ) :
    (takeFives steps m e).1 < twoPow 96 := by
  induction steps generalizing m e with
  | zero => exact h
  | succ steps ih =>
    rw [takeFives]
    split
    · exact ih (by omega) _
    · split
      · rename_i hfits
        exact ih hfits _
      · exact ih (by omega) _

theorem takeFives_exponent_le (steps m : ℕ) (e : ℤ) : (takeFives steps m e).2 ≤ e + steps := by
  induction steps generalizing m e with
  | zero => simp [takeFives]
  | succ steps ih =>
    rw [takeFives]
    split
    · exact (ih _ _).trans (by omega)
    · split
      · exact (ih _ _).trans (by omega)
      · exact (ih _ _).trans (by omega)

theorem takeFives_value_le (steps m : ℕ) (e : ℤ) :
    ((takeFives steps m e).1 : ℝ) * 10 ^ (takeFives steps m e).2 ≤
      m * 10 ^ (e + steps) / 2 ^ steps := by
  have hhalf (m steps : ℕ) (e : ℤ) : ((m / 2 : ℕ) : ℝ) * 10 ^ (e + 1 + steps) / 2 ^ steps ≤
      m * 10 ^ (e + (steps + 1 : ℕ)) / 2 ^ (steps + 1) := by
    have hle : ((m / 2 : ℕ) : ℝ) ≤ m / 2 := Nat.cast_div_le
    have hexponent : e + 1 + steps = e + (steps + 1 : ℕ) := by omega
    have hpos : (0 : ℝ) ≤ 10 ^ (e + (steps + 1 : ℕ)) / 2 ^ steps := by positivity
    rw [hexponent, mul_div_assoc]
    calc ((m / 2 : ℕ) : ℝ) * (10 ^ (e + (steps + 1 : ℕ)) / 2 ^ steps)
        ≤ m / 2 * (10 ^ (e + (steps + 1 : ℕ)) / 2 ^ steps) := mul_le_mul_of_nonneg_right hle hpos
      _ = m * 10 ^ (e + (steps + 1 : ℕ)) / 2 ^ (steps + 1) := by
        rw [pow_succ]
        ring
  induction steps generalizing m e with
  | zero => simp [takeFives]
  | succ steps ih =>
    rw [takeFives]
    split
    · exact (ih _ _).trans (hhalf m steps e)
    · split
      · refine (ih _ _).trans (le_of_eq ?_)
        have hexponent : e + (steps + 1 : ℕ) = e + steps + 1 := by omega
        rw [hexponent, zpow_add_one₀ (by norm_num), pow_succ]
        push_cast
        ring
      · exact (ih _ _).trans (hhalf m steps e)

theorem pow_toNat_neg (b : ℝ) {e : ℤ} (h : e ≤ 0) : b ^ (-e).toNat = (b ^ e)⁻¹ := by
  rw [← zpow_natCast, Int.toNat_of_nonneg (by omega), zpow_neg]

theorem takeFives_scaled {m : ℕ} {e : ℤ} (hm : m < twoPow 96) (he : e < 0) :
    let p := takeFives (-e).toNat m e
    p.1 < twoPow 96 ∧ scaled (p.1, (-p.2).toNat) ≤ m * 2 ^ e := by
  intro p
  have hsteps : e + (-e).toNat = 0 := by omega
  have hexponent : p.2 ≤ 0 := hsteps ▸ takeFives_exponent_le (-e).toNat m e
  have hscaled : scaled (p.1, (-p.2).toNat) = p.1 * 10 ^ p.2 := by
    rw [scaled_eq, pow_toNat_neg 10 hexponent, div_inv_eq_mul]
  have hvalue := takeFives_value_le (-e).toNat m e
  rw [hsteps, zpow_zero, mul_one, pow_toNat_neg 2 he.le, div_inv_eq_mul] at hvalue
  rw [hscaled]
  exact ⟨takeFives_lt hm _ _, hvalue⟩

theorem dropDigit_le (m : ℕ) : (dropDigit m : ℝ) ≤ (m + 5) / 10 := by
  have hle : 10 * dropDigit m ≤ m + 5 := by
    rw [dropDigit]
    split <;> omega
  have hle' : (10 : ℝ) * dropDigit m ≤ m + 5 := by exact_mod_cast hle
  linarith

theorem dropDigit_lt {m bound : ℕ} (h : m < bound) (hm : 10 ≤ m) : dropDigit m < bound := by
  rw [dropDigit]
  split <;> omega

theorem dropPlaces_bounds {m bound : ℕ} (h : m < bound) (excess : ℕ) :
    (dropPlaces excess m).1 < bound ∧ (dropPlaces excess m).2 ≤ 28 ∧
      scaled (dropPlaces excess m) ≤ (m / 10 ^ excess + (1 - 1 / 10 ^ excess)) / 10 ^ 28 := by
  induction excess generalizing m with
  | zero => exact ⟨h, le_refl 28, by simp [scaled_eq, dropPlaces]⟩
  | succ excess ih =>
    have hten : (1 : ℝ) ≤ 10 ^ excess := one_le_pow₀ (by norm_num)
    have hsmall : (1 : ℝ) / 10 ^ excess ≤ 1 := by
      rw [div_le_one (by positivity)]
      exact hten
    have hnext : (1 : ℝ) / 10 ^ (excess + 1) = 1 / 10 ^ excess / 10 := by
      rw [pow_succ, div_mul_eq_div_div]
    rw [dropPlaces]
    split
    · refine ⟨Nat.zero_lt_of_lt h, Nat.zero_le _, ?_⟩
      have hzero : scaled (0, 0) = 0 := by simp [scaled_eq]
      rw [hzero, hnext]
      have hpos : (0 : ℝ) ≤ m / 10 ^ (excess + 1) := by positivity
      exact div_nonneg (by linarith) (by positivity)
    · rename_i hm
      obtain ⟨hlt, hscale, hvalue⟩ := ih (dropDigit_lt h (by omega))
      refine ⟨hlt, hscale, hvalue.trans ?_⟩
      have hdigit : (dropDigit m : ℝ) / 10 ^ excess ≤
          m / 10 ^ (excess + 1) + 1 / 2 * (1 / 10 ^ excess) := by
        have hle := div_le_div_of_nonneg_right (dropDigit_le m)
          (by positivity : (0 : ℝ) ≤ 10 ^ excess)
        refine hle.trans (le_of_eq ?_)
        rw [pow_succ]
        field_simp
        ring
      have hpos : (0 : ℝ) ≤ 1 / 10 ^ excess := by positivity
      refine div_le_div_of_nonneg_right ?_ (by positivity)
      rw [hnext]
      linarith

theorem dropBits_bounds {m bound : ℕ} (h : m < bound) (scale : ℕ) :
    (dropBits scale m).1 < bound ∧ (dropBits scale m).2 ≤ scale ∧
      scaled (dropBits scale m) ≤ scaled (m, scale) * (1001 / 1000) ^ scale := by
  induction scale generalizing m with
  | zero => exact ⟨h, le_refl 0, by simp [scaled_eq, dropBits]⟩
  | succ scale ih =>
    rw [dropBits]
    split
    · rename_i hbits
      have hbits' : 5000 ≤ m := le_trans (by decide : 5000 ≤ twoPow 52) hbits
      obtain ⟨hlt, hscale, hvalue⟩ := ih (dropDigit_lt h (by omega))
      refine ⟨hlt, Nat.le_succ_of_le hscale, hvalue.trans ?_⟩
      have hdigit : (dropDigit m : ℝ) ≤ m / 10 * (1001 / 1000) := by
        have hm : (5000 : ℝ) ≤ m := by exact_mod_cast hbits'
        linarith [dropDigit_le m]
      have hten : (0 : ℝ) < 10 ^ scale := by positivity
      calc scaled (dropDigit m, scale) * (1001 / 1000) ^ scale
          ≤ m / 10 * (1001 / 1000) / 10 ^ scale * (1001 / 1000) ^ scale := by
            rw [scaled_eq]
            exact mul_le_mul_of_nonneg_right (div_le_div_of_nonneg_right hdigit hten.le)
              (by positivity)
        _ = scaled (m, scale + 1) * (1001 / 1000) ^ (scale + 1) := by
          simp only [scaled_eq, pow_succ]
          field_simp
    · refine ⟨h, le_refl _, ?_⟩
      have hone : (1 : ℝ) ≤ (1001 / 1000) ^ (scale + 1) := one_le_pow₀ (by norm_num)
      have hpos : 0 ≤ scaled (m, scale + 1) := by
        simp only [scaled_eq]
        positivity
      exact le_mul_of_one_le_right hpos hone

theorem dropZeros_bounds {m bound : ℕ} (h : m < bound) (scale : ℕ) :
    (dropZeros scale m).1 < bound ∧ (dropZeros scale m).2 ≤ scale ∧
      scaled (dropZeros scale m) = scaled (m, scale) := by
  induction scale generalizing m with
  | zero => exact ⟨h, le_refl 0, rfl⟩
  | succ scale ih =>
    rw [dropZeros]
    split
    · rename_i hdigit
      obtain ⟨hlt, hscale, hvalue⟩ := ih (lt_of_le_of_lt (Nat.div_le_self m 10) h)
      refine ⟨hlt, Nat.le_succ_of_le hscale, hvalue.trans ?_⟩
      obtain ⟨q, rfl⟩ := Nat.dvd_of_mod_eq_zero hdigit
      rw [Nat.mul_div_cancel_left q (by norm_num)]
      simp only [scaled_eq, pow_succ]
      push_cast
      field_simp
    · exact ⟨h, le_refl _, rfl⟩

theorem value_ofParts (negative : Bool) {m scale : ℕ} (hm : m < twoPow 96) (hscale : scale ≤ 28) :
    ∃ t, ofParts? negative m scale = some t ∧ |t.value| = scaled (m, scale) := by
  refine ⟨_, dif_pos ⟨hm, hscale⟩, ?_⟩
  rw [value_eq, abs_signed, abs_of_nonneg (by positivity), scaled_eq]

theorem fitPlaces_bounds {m : ℕ} (h : m < twoPow 96) (places : ℕ) :
    let p := if 28 < places then dropPlaces (places - 28) m else (m, places)
    p.1 < twoPow 96 ∧ p.2 ≤ 28 ∧ scaled p ≤ scaled (m, places) + 1 / 10 ^ 28 := by
  intro p
  by_cases hplaces : 28 < places
  · obtain ⟨hlt, hscale, hvalue⟩ := dropPlaces_bounds h (places - 28)
    have hp : p = dropPlaces (places - 28) m := if_pos hplaces
    have hpow : (10 : ℝ) ^ places = 10 ^ (places - 28) * 10 ^ 28 := by
      rw [← pow_add, Nat.sub_add_cancel hplaces.le]
    have hpos : (0 : ℝ) ≤ 1 / 10 ^ (places - 28) := by positivity
    rw [hp]
    refine ⟨hlt, hscale, hvalue.trans ?_⟩
    rw [scaled_eq, hpow, div_mul_eq_div_div, ← add_div]
    exact div_le_div_of_nonneg_right (by linarith) (by positivity)
  · have hp : p = (m, places) := if_neg hplaces
    rw [hp]
    exact ⟨h, not_lt.mp hplaces, by linarith [(by positivity : (0 : ℝ) ≤ 1 / 10 ^ 28)]⟩

/-- A double of moderate size becomes a decimal that is at most slightly larger. -/
theorem exists_ofBinary64 {x : Binary64} (hword : x.significand < twoPow 64) (h : |x.value| ≤ 46) :
    ∃ t, ofBinary64? x = some t ∧ |t.value| < 50 := by
  rw [Binary64.abs_value] at h
  rw [ofBinary64?]
  split
  · exact ⟨zero, rfl, by simp⟩
  split
  · rename_i hexponent
    rw [← two_pow_toNat hexponent] at h
    have hle : x.significand * twoPow x.exponent.toNat ≤ 46 := by exact_mod_cast h
    obtain ⟨t, ht, hvalue⟩ := value_ofParts x.negative
      (lt_of_le_of_lt hle (by decide)) (Nat.zero_le 28)
    refine ⟨t, ht, ?_⟩
    rw [hvalue, scaled_eq]
    push_cast
    rw [pow_zero, div_one]
    linarith
  · rename_i hexponent
    obtain ⟨hlt, hvalue⟩ := takeFives_scaled (lt_trans hword (by decide : twoPow 64 < twoPow 96))
      (not_le.mp hexponent)
    generalize takeFives (-x.exponent).toNat x.significand x.exponent = p at hlt hvalue
    obtain ⟨m, e⟩ := p
    obtain ⟨hlt₁, hscale₁, hvalue₁⟩ := fitPlaces_bounds hlt (-e).toNat
    simp only
    generalize (if 28 < (-e).toNat then dropPlaces ((-e).toNat - 28) m else (m, (-e).toNat)) = p
      at hlt₁ hscale₁ hvalue₁
    obtain ⟨m₁, s₁⟩ := p
    obtain ⟨hlt₂, hscale₂, hvalue₂⟩ := dropBits_bounds hlt₁ s₁
    simp only
    generalize dropBits s₁ m₁ = p at hlt₂ hscale₂ hvalue₂
    obtain ⟨m₂, s₂⟩ := p
    obtain ⟨hlt₃, hscale₃, hvalue₃⟩ := dropZeros_bounds hlt₂ s₂
    obtain ⟨t, ht, habs⟩ := value_ofParts x.negative hlt₃
      (hscale₃.trans (hscale₂.trans hscale₁))
    refine ⟨t, ht, ?_⟩
    have hgrowth : (1001 / 1000 : ℝ) ^ s₁ ≤ 103 / 100 :=
      (pow_le_pow_right₀ (by norm_num) hscale₁).trans (by norm_num)
    have hm₁ : scaled (m₁, s₁) ≤ 47 := by
      norm_num at hvalue₁
      linarith
    have hpos : 0 ≤ scaled (m₁, s₁) := by
      simp only [scaled_eq]
      positivity
    rw [habs, hvalue₃]
    nlinarith

end ReferralForest.Numeric.Decimal
