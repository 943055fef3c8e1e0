import ReferralForest.Proofs.DrawTerm
import ReferralForest.Proofs.WeightLogarithm

/-!
# Heavier candidates rank higher

Between two weights of 63 bits the logarithm grows by more than `10^-19`. Its error and
the rounding of the last difference, which has room for 26 places at least, are less than
`10^-24` together, so under one draw the heavier candidate has the larger key, even where
the weights are next to each other.
-/

namespace ReferralForest
open Numeric Decimal

theorem one_div_le_log_sub {lighter heavier : ℕ} (hpos : 0 < lighter) (hlt : lighter < heavier) :
    1 / (heavier : ℝ) ≤ Real.log heavier - Real.log lighter := by
  have hlighter : (0 : ℝ) < lighter := Nat.cast_pos.mpr hpos
  have hheavier : (0 : ℝ) < heavier := Nat.cast_pos.mpr (hpos.trans hlt)
  have hstep : (lighter : ℝ) + 1 ≤ heavier := by exact_mod_cast hlt
  have hlog := Real.one_sub_inv_le_log_of_pos (div_pos hheavier hlighter)
  rw [Real.log_div hheavier.ne' hlighter.ne', inv_div] at hlog
  have hgap : 1 / (heavier : ℝ) ≤ 1 - lighter / heavier := by
    rw [one_sub_div hheavier.ne']
    exact div_le_div_of_nonneg_right (by linarith) hheavier.le
  exact hgap.trans hlog

theorem exists_rank {weight : ℕ} (hpos : 0 < weight) (hword : weight < 2 ^ 63) {t : Decimal}
    (ht : |t.value| < 50) :
    ∃ r, (lnWeight weight).bind (·.sub t) = some r ∧
      |r.value - (Real.log weight - t.value)| ≤ 1 / 10 ^ 24 := by
  obtain ⟨l, hl, hnear⟩ := lnWeight_near hpos (hword.trans (by decide : 2 ^ 63 < twoPow 64))
  have hlog : |Real.log weight| ≤ 44 := by
    have hone : (1 : ℝ) ≤ weight := by exact_mod_cast hpos
    have hle := log_le_of_le_two_pow hpos hword.le
    norm_num at hle
    rw [abs_of_nonneg (Real.log_nonneg hone)]
    linarith
  have hsize : |l.value - t.value| ≤ 100 := by
    have hlle := abs_le_add_of_near hnear.le hlog
    norm_num at hlle
    linarith [abs_sub l.value t.value]
  obtain ⟨r, hr, hrnear⟩ : Gives (l.sub t) _ 26 := gives_sub (fits_of_abs_le hsize (by norm_num))
  refine ⟨r, ?_, ?_⟩
  · rw [hl, Option.bind_some, hr]
  · rw [abs_lt] at hnear
    rw [abs_le] at hrnear ⊢
    norm_num at hnear hrnear ⊢
    constructor <;> linarith

theorem rank_lt_of_terms {lighter heavier : ℕ} (hpos : 0 < lighter) (hlt : lighter < heavier)
    (hword : heavier < 2 ^ 63) {t : Decimal} (ht : |t.value| < 50) :
    ∃ a b, (lnWeight lighter).bind (·.sub t) = some a ∧
      (lnWeight heavier).bind (·.sub t) = some b ∧ a < b := by
  obtain ⟨a, ha, hanear⟩ := exists_rank hpos (hlt.trans hword) ht
  obtain ⟨b, hb, hbnear⟩ := exists_rank (hpos.trans hlt) hword ht
  refine ⟨a, b, ha, hb, lt_iff_value_lt.mpr ?_⟩
  have hgap := one_div_le_log_sub hpos hlt
  have hleast : (1 : ℝ) / 2 ^ 63 ≤ 1 / heavier := by
    have hheavier : (0 : ℝ) < heavier := Nat.cast_pos.mpr (hpos.trans hlt)
    exact one_div_le_one_div_of_le hheavier (by exact_mod_cast hword.le)
  rw [abs_le] at hanear hbnear
  norm_num at hanear hbnear hleast hgap
  linarith

namespace WeightedKey

theorem ofDraw_eq {draw weight : ℕ} (hpos : 0 < weight) {t r : Decimal}
    (ht : Decimal.ofBinary64? (logUniform draw).neg.ln = some t)
    (hr : (lnWeight weight).bind (·.sub t) = some r) : ofDraw? draw weight = some ⟨r⟩ := by
  have hsign : ¬(weight : ℤ) ≤ 0 := by omega
  cases hl : lnWeight weight with
  | none =>
    rw [hl] at hr
    cases hr
  | some l =>
    rw [hl, Option.bind_some] at hr
    simp only [ofDraw?, if_neg hsign, ht, Int.toNat_natCast, hl, hr, Option.bind_eq_bind,
      Option.bind_some]
    rfl

/-- Whatever is subtracted for the draw, the heavier of two weights has the larger rank, and
every draw has something to subtract. -/
theorem ofDraw_lt_of_lighter {lighter heavier : ℕ} (hpos : 0 < lighter) (hlt : lighter < heavier)
    (hword : heavier < 2 ^ 63) :
    (∀ t : Decimal, |t.toRat| < 50 → ∃ a b, (lnWeight lighter).bind (·.sub t) = some a ∧
      (lnWeight heavier).bind (·.sub t) = some b ∧ a < b) ∧
    ∀ draw, ∃ t k l, Decimal.ofBinary64? (logUniform draw).neg.ln = some t ∧ |t.toRat| < 50 ∧
      ofDraw? draw lighter = some k ∧ ofDraw? draw heavier = some l ∧ k < l := by
  have hcast (t : Decimal) : |t.toRat| < 50 ↔ |t.value| < 50 := by
    rw [← toRat_cast]
    exact_mod_cast Iff.rfl
  refine ⟨fun t ht => rank_lt_of_terms hpos hlt hword ((hcast t).mp ht), fun draw => ?_⟩
  obtain ⟨t, ht, hsize⟩ := closeLogarithms.exists_drawTerm draw
  obtain ⟨a, b, ha, hb, hab⟩ := rank_lt_of_terms hpos hlt hword hsize
  exact ⟨t, ⟨a⟩, ⟨b⟩, ht, (hcast t).mpr hsize, ofDraw_eq hpos ht ha,
    ofDraw_eq (hpos.trans hlt) ht hb, hab⟩

theorem ofDraw_lt_of_heaviest :
    let lighter : ℕ := 9223372036854775806
    let heavier : ℕ := 9223372036854775807
    0 < lighter ∧ lighter < heavier ∧ heavier < 2 ^ 63 ∧ |Decimal.two.toRat| < 50 ∧
      (∃ a b, (lnWeight lighter).bind (·.sub .two) = some a ∧
        (lnWeight heavier).bind (·.sub .two) = some b ∧ a < b) ∧
      ∃ k l, ofDraw? 0 lighter = some k ∧ ofDraw? 0 heavier = some l ∧ k < l := by
  intro lighter heavier
  have hsize : |Decimal.two.toRat| < 50 := by decide +kernel
  obtain ⟨hterms, hdraws⟩ := ofDraw_lt_of_lighter (by decide : 0 < lighter)
    (by decide : lighter < heavier) (by decide)
  obtain ⟨-, k, l, -, -, hk, hl, hlt⟩ := hdraws 0
  exact ⟨by decide, by decide, by decide, hsize, hterms .two hsize, k, l, hk, hl, hlt⟩

end WeightedKey
end ReferralForest
