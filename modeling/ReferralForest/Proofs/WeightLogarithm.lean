import ReferralForest.Proofs.SeriesRounds

/-!
# The logarithm of a weight

The logarithm that a key is made of is within `10^-25` of the exact one, for every weight
of 64 bits. Its summation settles, and no operation on the way leaves the decimals.
-/

namespace ReferralForest
open Numeric Decimal

theorem abs_ln2_sub_le : |ln2.value - Real.log 2| ≤ 1 / 10 ^ 28 := by
  have hvalue : ln2.value = 6931471805599453094172321215 / 10 ^ 28 := by
    simp [value_eq, ln2, signed]
  have hlog := log_two_near
  rw [hvalue]
  rw [abs_le] at hlog ⊢
  constructor <;> linarith

def seriesArgument (weight : ℕ) : Option Decimal := do
  let m ← (← ofNat? weight).div (← ofNat? (twoPow weight.log2))
  (← m.sub .one).div (← m.add .one)

theorem lnWeight_eq (weight : ℕ) : lnWeight weight = (do
    let s ← seriesArgument weight
    let sum ← artanhSum (← s.mul s) (oddsFrom 0) s .zero
    (← Decimal.two.mul sum).add (← (← ofNat? weight.log2).mul ln2)) := by
  simp only [lnWeight, seriesArgument, oddsBelow100_eq, Option.bind_eq_bind, Option.bind_assoc]

section Weight
variable {weight : ℕ}

theorem scaled_bounds (hpos : 0 < weight) :
    (1 : ℝ) ≤ weight / 2 ^ weight.log2 ∧ (weight : ℝ) / 2 ^ weight.log2 ≤ 2 := by
  have hlow : (2 : ℝ) ^ weight.log2 ≤ weight := by exact_mod_cast Nat.log2_self_le hpos.ne'
  have hhigh : (weight : ℝ) < 2 ^ (weight.log2 + 1) := by exact_mod_cast Nat.lt_log2_self
  have htwo : (0 : ℝ) < 2 ^ weight.log2 := by positivity
  rw [pow_succ] at hhigh
  rw [le_div_iff₀ htwo, div_le_iff₀ htwo]
  constructor <;> linarith

theorem log2_lt (hpos : 0 < weight) (hword : weight < twoPow 64) : weight.log2 < 64 :=
  (Nat.log2_lt hpos.ne').mpr hword

theorem seriesArgument_near (hpos : 0 < weight) (hword : weight < twoPow 64) :
    ∃ s, seriesArgument weight = some s ∧ 0 ≤ s.value ∧
      |s.value - (weight / 2 ^ weight.log2 - 1) / (weight / 2 ^ weight.log2 + 1)| ≤
        5 / 2 * (1 / 2 / 10 ^ 28) := by
  obtain ⟨hlow, hhigh⟩ := scaled_bounds hpos
  have hpower : twoPow weight.log2 < twoPow 96 :=
    Nat.pow_lt_pow_right (by decide) (by have := log2_lt hpos hword; omega)
  obtain ⟨w, hw, hwvalue⟩ := value_ofNat (lt_trans hword (by decide))
  obtain ⟨p, hp, hpvalue⟩ := value_ofNat hpower
  have hpne : p.value ≠ 0 := by
    rw [hpvalue]
    exact Nat.cast_ne_zero.mpr (twoPow_pos _).ne'
  have hratio : w.value / p.value = weight / 2 ^ weight.log2 := by
    rw [hwvalue, hpvalue, twoPow_eq]
    push_cast
    rfl
  set r : ℝ := weight / 2 ^ weight.log2 with hr
  have hrle : |r| ≤ 2 := abs_le.mpr ⟨by linarith, hhigh⟩
  obtain ⟨m, hm, hmnear⟩ := gives_div (le_refl 28) hpne
    (hratio ▸ fits_of_abs_le hrle (by norm_num))
  rw [hratio] at hmnear
  have hmle : |m.value| ≤ 1 / 2 / 10 ^ 28 + 2 := abs_le_add_of_near hmnear hrle
  have hdiff : |m.value - one.value| ≤ 4 := by
    rw [value_one]
    linarith [abs_sub m.value 1, abs_one (α := ℝ)]
  have hsum : |m.value + one.value| ≤ 4 := by
    rw [value_one]
    linarith [abs_add_le m.value 1, abs_one (α := ℝ)]
  obtain ⟨a, ha, hanear⟩ : Gives (m.sub .one) _ 28 :=
    gives_sub (fits_of_abs_le hdiff (by norm_num))
  obtain ⟨b, hb, hbnear⟩ : Gives (m.add .one) _ 28 :=
    gives_add (fits_of_abs_le hsum (by norm_num))
  rw [value_one] at hanear hbnear
  have hbpos : 1 ≤ b.value := by
    rw [abs_le] at hmnear hbnear
    linarith
  have hale : |a.value| ≤ 5 := by
    have hle := abs_le_add_of_near hanear (value_one ▸ hdiff)
    linarith
  have hquotientle : |a.value / b.value| ≤ 5 := by
    rw [abs_div, abs_of_pos (by linarith : 0 < b.value)]
    exact (div_le_self (abs_nonneg _) hbpos).trans hale
  have hbne : b.value ≠ 0 := by linarith
  obtain ⟨s, hs, hsnear⟩ := gives_div (le_refl 28) hbne (fits_of_abs_le hquotientle (by norm_num))
  have hmone : one.value ≤ m.value := value_le_of_near (value_one ▸ hlow) hmnear
  have hanonneg : zero.value ≤ a.value := by
    refine value_le_of_near ?_ hanear
    rw [value_one] at hmone
    rw [value_zero]
    linarith
  have hsnonneg : zero.value ≤ s.value := by
    refine value_le_of_near ?_ hsnear
    rw [value_zero] at hanonneg ⊢
    exact div_nonneg hanonneg (by linarith)
  refine ⟨s, ?_, value_zero ▸ hsnonneg,
    quotient_near hlow hhigh (by norm_num) hmnear hanear hbnear hsnear⟩
  simp only [seriesArgument, hw, hp, hm, ha, hb, Option.bind_eq_bind, Option.bind_some, hs]

theorem exists_series {x : ℝ} {s : Decimal} (hx : |x| ≤ 1 / 3) (hnonneg : 0 ≤ s.value)
    (hs : |s.value - x| ≤ 5 / 2 * (1 / 2 / 10 ^ 28)) :
    ∃ square rounds total, s.mul s = some square ∧
      Round.Settles square ⟨1, s, .zero⟩ rounds total ∧
      |2 * total.value - Real.log ((1 + x) / (1 - x))| ≤ 900 * (1 / 2 / 10 ^ 28) := by
  have hsle : |s.value| ≤ 1 := (abs_le_add_of_near hs hx).trans (by norm_num)
  have hsquarele : |s.value * s.value| ≤ 1 * 1 := by
    rw [abs_mul]
    exact mul_le_mul hsle hsle (abs_nonneg _) zero_le_one
  obtain ⟨square, hmul, hmulnear⟩ := gives_mul (le_refl 28) (fits_of_abs_le hsquarele (by norm_num))
  have hproduct : zero.value ≤ s.value * s.value := value_zero ▸ mul_self_nonneg s.value
  have hsquare : Round.NearSquare x square :=
    ⟨OnSeries.square hx (by norm_num) hs hmulnear,
      value_nonneg_iff.mp (value_zero ▸ value_le_of_near hproduct hmulnear)⟩
  have hstart : OnSeries x (1 / 2 / 10 ^ 28) 0 s.value zero.value := by
    rw [value_zero]
    exact OnSeries.start (by linarith)
  have hfirst : Round.OnTrack x 0 ⟨1, s, .zero⟩ :=
    ⟨rfl, hstart, value_nonneg_iff.mp hnonneg⟩
  obtain ⟨rounds, total, hrounds, htotal⟩ := hfirst.exists_settles hx hsquare (Nat.zero_le 30)
  exact ⟨square, rounds, total, hmul, hrounds, htotal⟩

theorem log_scaled (hpos : 0 < weight) :
    Real.log (weight / 2 ^ weight.log2) = Real.log weight - weight.log2 * Real.log 2 := by
  rw [Real.log_div (Nat.cast_ne_zero.mpr hpos.ne') (by positivity), Real.log_pow]

theorem log2_mul_ln2_near (hword : weight.log2 < 64) :
    ∃ k r, ofNat? weight.log2 = some k ∧ k.mul ln2 = some r ∧
      |r.value - weight.log2 * Real.log 2| ≤ 140 * (1 / 2 / 10 ^ 28) ∧ |r.value| ≤ 46 := by
  obtain ⟨k, hk, hkvalue⟩ := value_ofNat (lt_trans hword (by decide : 64 < twoPow 96))
  have hkle : (weight.log2 : ℝ) ≤ 63 := by exact_mod_cast Nat.le_of_lt_succ hword
  have hkpos : (0 : ℝ) ≤ weight.log2 := Nat.cast_nonneg _
  have hln2 : |ln2.value| ≤ 7 / 10 := by
    obtain ⟨htwoLow, htwoHigh⟩ := log_two_bounds
    have hlog : |Real.log 2| ≤ 694 / 1000 := abs_le.mpr ⟨by linarith, htwoHigh⟩
    exact (abs_le_add_of_near abs_ln2_sub_le hlog).trans (by norm_num)
  have hle : |k.value * ln2.value| ≤ 45 := by
    rw [abs_mul, hkvalue, abs_of_nonneg hkpos]
    nlinarith [abs_nonneg ln2.value]
  obtain ⟨r, hr, hnear⟩ : Gives (k.mul ln2) _ 27 :=
    gives_mul (by norm_num) (fits_of_abs_le hle (by norm_num))
  refine ⟨k, r, hk, hr, ?_, (abs_le_add_of_near hnear hle).trans (by norm_num)⟩
  have hconstant : |k.value * ln2.value - weight.log2 * Real.log 2| ≤ 63 * (1 / 10 ^ 28) := by
    rw [hkvalue, ← mul_sub, abs_mul, abs_of_nonneg hkpos]
    exact mul_le_mul hkle abs_ln2_sub_le (abs_nonneg _) (by norm_num)
  calc |r.value - weight.log2 * Real.log 2|
      ≤ |r.value - k.value * ln2.value| + |k.value * ln2.value - weight.log2 * Real.log 2| :=
        abs_sub_le _ _ _
    _ ≤ 140 * (1 / 2 / 10 ^ 28) := by linarith

theorem lnWeight_settles (hpos : 0 < weight) (hword : weight < twoPow 64) :
    ∃ s square rounds total r, seriesArgument weight = some s ∧ s.mul s = some square ∧
      Round.Settles square ⟨1, s, .zero⟩ rounds total ∧
      artanhSum square oddsBelow100 s .zero = some total ∧ lnWeight weight = some r ∧
      |r.value - Real.log weight| < 1 / 10 ^ 25 := by
  obtain ⟨hlow, hhigh⟩ := scaled_bounds hpos
  obtain ⟨s, hs, hnonneg, hsnear⟩ := seriesArgument_near hpos hword
  obtain ⟨square, rounds, sum, hmul, hrounds, hsumnear⟩ :=
    exists_series (abs_quotient_le_third (by linarith) hhigh) hnonneg hsnear
  have hsum : artanhSum square (oddsFrom 0) s .zero = some sum :=
    hrounds.summation.artanhSum_eq hrounds.odd_lt rfl
  rw [ratio_quotient (by linarith), log_scaled hpos] at hsumnear
  obtain ⟨k, multiple, hk, hmultiple, hmultiplenear, hmultiplele⟩ :=
    log2_mul_ln2_near (log2_lt hpos hword)
  have hlogle : |Real.log weight - weight.log2 * Real.log 2| ≤ 1 := by
    rw [← log_scaled hpos, abs_of_nonneg (Real.log_nonneg hlow)]
    exact (Real.log_le_sub_one_of_pos (by linarith)).trans (by linarith)
  have htwicele : |2 * sum.value| ≤ 2 :=
    (abs_le_add_of_near hsumnear hlogle).trans (by norm_num)
  obtain ⟨twice, htwice, htwicenear⟩ : Gives (Decimal.two.mul sum) (2 * sum.value) 28 := by
    rw [← value_two] at htwicele ⊢
    exact gives_mul (le_refl 28) (fits_of_abs_le htwicele (by norm_num))
  have hsumle : |twice.value + multiple.value| ≤ 50 := by
    have hle := abs_le_add_of_near htwicenear htwicele
    linarith [abs_add_le twice.value multiple.value]
  obtain ⟨r, hr, hrnear⟩ : Gives (twice.add multiple) _ 27 :=
    gives_add (fits_of_abs_le hsumle (by norm_num))
  refine ⟨s, square, rounds, sum, r, hs, hmul, hrounds, oddsBelow100_eq ▸ hsum, ?_, ?_⟩
  · rw [lnWeight_eq]
    simp only [hs, hmul, hsum, htwice, hk, hmultiple, Option.bind_eq_bind, Option.bind_some, hr]
  · rw [abs_le] at hsumnear hmultiplenear htwicenear hrnear
    rw [abs_lt]
    constructor <;> linarith

theorem lnWeight_near (hpos : 0 < weight) (hword : weight < twoPow 64) :
    ∃ r, lnWeight weight = some r ∧ |r.value - Real.log weight| < 1 / 10 ^ 25 := by
  obtain ⟨-, -, -, -, r, -, -, -, -, hr, hnear⟩ := lnWeight_settles hpos hword
  exact ⟨r, hr, hnear⟩

theorem log_le_of_le_two_pow {n : ℕ} (hpos : 0 < weight) (hle : weight ≤ 2 ^ n) :
    Real.log weight ≤ n * (694 / 1000) := by
  have hle' : (weight : ℝ) ≤ 2 ^ n := by exact_mod_cast hle
  calc Real.log weight ≤ Real.log (2 ^ n) := Real.log_le_log (Nat.cast_pos.mpr hpos) hle'
    _ = n * Real.log 2 := Real.log_pow 2 n
    _ ≤ n * (694 / 1000) := mul_le_mul_of_nonneg_left log_two_bounds.2 (Nat.cast_nonneg n)

theorem lnWeight_one : lnWeight 1 = some .zero := by decide +kernel

theorem lnWeight_bounds {r : Decimal} (hpos : 0 < weight) (hword : weight ≤ 2 ^ 64)
    (hr : lnWeight weight = some r) (hnear : |r.value - Real.log weight| < 1 / 10 ^ 25) :
    0 ≤ r.value ∧ r.value ≤ 45 := by
  have hlog := log_le_of_le_two_pow hpos hword
  norm_num at hlog
  rw [abs_lt] at hnear
  refine ⟨?_, by norm_num at hnear; linarith⟩
  rcases Nat.eq_or_lt_of_le (Nat.succ_le_of_lt hpos) with hone | htwo
  · -- the bound of the error does not exclude a result just below zero here
    rw [← hone, lnWeight_one] at hr
    cases hr
    exact value_zero.ge
  · have hlow : Real.log 2 ≤ Real.log weight :=
      Real.log_le_log (by norm_num) (by exact_mod_cast htwo)
    norm_num at hnear
    linarith [log_two_bounds.1]

/-- The summation of every weight of 64 bits comes to an end, its odd numbers below 100 and each
power less than the one before, and the logarithm made of it lies between 0 and 45. -/
theorem lnWeight_ends (hpos : 0 < weight) (hword : weight < 2 ^ 64) :
    ∃ s square rounds total r, seriesArgument weight = some s ∧ s.mul s = some square ∧
      Round.Settles square ⟨1, s, .zero⟩ rounds total ∧
      artanhSum square oddsBelow100 s .zero = some total ∧
      (do (← Decimal.two.mul total).add (← (← ofNat? weight.log2).mul ln2)) = some r ∧
      lnWeight weight = some r ∧ 0 ≤ r.toRat ∧ r.toRat ≤ 45 := by
  obtain ⟨s, square, rounds, total, r, hs, hmul, hrounds, htotal, hr, hnear⟩ :=
    lnWeight_settles hpos hword
  obtain ⟨hnonneg, hle⟩ := lnWeight_bounds hpos hword.le hr hnear
  rw [← toRat_cast] at hnonneg hle
  have hmade := hr
  rw [lnWeight_eq, ← oddsBelow100_eq] at hmade
  simp only [hs, hmul, htotal, Option.bind_eq_bind, Option.bind_some] at hmade
  exact ⟨s, square, rounds, total, r, hs, hmul, hrounds, htotal, hmade, hr,
    by exact_mod_cast hnonneg, by exact_mod_cast hle⟩

theorem lnWeight_ends_largest :
    let weight : ℕ := 18446744073709551615
    0 < weight ∧ weight < 2 ^ 64 ∧
    ∃ s square rounds total r, seriesArgument weight = some s ∧ s.mul s = some square ∧
      Round.Settles square ⟨1, s, .zero⟩ rounds total ∧
      artanhSum square oddsBelow100 s .zero = some total ∧
      (do (← Decimal.two.mul total).add (← (← ofNat? weight.log2).mul ln2)) = some r ∧
      lnWeight weight = some r ∧ 0 ≤ r.toRat ∧ r.toRat ≤ 45 :=
  ⟨by decide, by decide, lnWeight_ends (by decide) (by decide)⟩

end Weight

end ReferralForest
