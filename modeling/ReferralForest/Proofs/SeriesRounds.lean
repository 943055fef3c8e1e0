import Mathlib.Analysis.SpecialFunctions.Log.Basic
import ReferralForest.Proofs.OddSeries
import ReferralForest.Proofs.DecimalRounding
import ReferralForest.WeightedKey

/-!
# The rounds of the summation

The summation of a logarithm goes from round to round: each divides a power by the next odd
number, ends if the term is zero and otherwise adds the term and multiplies the power by the
square. The powers stay on the series and none is negative. In units of the last place each is
less than the one before, since an eighth of a power and the half unit of rounding are less than
the power. The summation ends long before its odd numbers run out: from the 31st power on a term
is below half a unit of the last place.
-/

namespace ReferralForest
open Numeric Decimal

structure Round where
  odd : ℕ
  power : Decimal
  sum : Decimal

namespace Round

def term? (r : Round) : Option Decimal := do r.power.div (← ofNat? r.odd)

def next? (square : Decimal) (r : Round) : Option Round := do
  let sum ← r.sum.add (← r.term?)
  return ⟨r.odd + 2, ← r.power.mul square, sum⟩

/-- The rounds from one on to the one that ends the summation, and its sum. -/
inductive Summation (square : Decimal) : Round → List Round → Decimal → Prop
  | stop {r t} : r.term? = some t → t.isZero = true → Summation square r [r] r.sum
  | next {r r' t rounds total} : r.term? = some t → t.isZero = false →
      r.next? square = some r' → Summation square r' rounds total →
      Summation square r (r :: rounds) total

structure Settles (square : Decimal) (first : Round) (rounds : List Round) (total : Decimal) :
    Prop where
  summation : Summation square first rounds total
  odd_lt : ∀ r ∈ rounds, r.odd < 100
  nonneg : ∀ r ∈ rounds, 0 ≤ r.power.units
  shrinks : rounds.IsChain fun r r' => r'.power.units < r.power.units

end Round

def oddsFrom (j : ℕ) : List ℕ := (List.range' j (50 - j)).map (2 * · + 1)

theorem oddsBelow100_eq : oddsBelow100 = oddsFrom 0 := by
  rw [oddsBelow100, List.range_eq_range']
  rfl

theorem oddsFrom_eq_cons {j : ℕ} (h : j < 50) : oddsFrom j = (2 * j + 1) :: oddsFrom (j + 1) := by
  have hlength : 50 - j = (50 - (j + 1)) + 1 := by omega
  rw [oddsFrom, hlength, List.range'_succ, List.map_cons, oddsFrom]

namespace Round
variable {r r' : Round} {square total t : Decimal} {rounds : List Round} {j : ℕ}

theorem Summation.head? (h : Summation square r rounds total) : rounds.head? = some r := by
  cases h <;> rfl

theorem eq_of_next? (h : r.next? square = some r') :
    ∃ t sum power, r.term? = some t ∧ r.sum.add t = some sum ∧ r.power.mul square = some power ∧
      r' = ⟨r.odd + 2, power, sum⟩ := by
  obtain ⟨t, ht, hrest⟩ := Option.bind_eq_some_iff.mp h
  obtain ⟨sum, hsum, hrest⟩ := Option.bind_eq_some_iff.mp hrest
  obtain ⟨power, hpower, hr'⟩ := Option.bind_eq_some_iff.mp hrest
  exact ⟨t, sum, power, ht, hsum, hpower, (Option.some.inj hr').symm⟩

theorem artanhSum_stop {ns : List ℕ} (ht : r.term? = some t) (hzero : t.isZero = true) :
    artanhSum square (r.odd :: ns) r.power r.sum = some r.sum := by
  obtain ⟨d, hd, hdiv⟩ := Option.bind_eq_some_iff.mp ht
  simp only [artanhSum, hd, hdiv, hzero, Option.bind_eq_bind, Option.bind_some, if_true]
  rfl

theorem artanhSum_next {ns : List ℕ} (ht : r.term? = some t) (hzero : t.isZero = false)
    (hnext : r.next? square = some r') :
    artanhSum square (r.odd :: ns) r.power r.sum = artanhSum square ns r'.power r'.sum := by
  obtain ⟨d, hd, hdiv⟩ := Option.bind_eq_some_iff.mp ht
  obtain ⟨t', sum, power, ht', hsum, hpower, rfl⟩ := eq_of_next? hnext
  obtain rfl : t = t' := Option.some.inj (ht.symm.trans ht')
  simp only [artanhSum, hd, hdiv, hzero, hpower, hsum, Option.bind_eq_bind, Option.bind_some,
    Bool.false_eq_true, if_false]

theorem Summation.artanhSum_eq (h : Summation square r rounds total)
    (hlt : ∀ r ∈ rounds, r.odd < 100) (hodd : r.odd = 2 * j + 1) :
    artanhSum square (oddsFrom j) r.power r.sum = some total := by
  induction h generalizing j with
  | stop ht hzero =>
    have hj := hlt _ List.mem_cons_self
    rw [oddsFrom_eq_cons (by omega), ← hodd, artanhSum_stop ht hzero]
  | next ht hzero hnext h ih =>
    have hj := hlt _ List.mem_cons_self
    rw [oddsFrom_eq_cons (by omega), ← hodd, artanhSum_next ht hzero hnext]
    obtain ⟨t, sum, power, -, -, -, rfl⟩ := eq_of_next? hnext
    exact ih (fun r hr => hlt r (List.mem_cons_of_mem _ hr)) (congrArg (· + 2) hodd)

/-! ## One round -/

/-- A round as rounding leaves it, the `j`-th of the series at `x`. -/
structure OnTrack (x : ℝ) (j : ℕ) (r : Round) : Prop where
  odd : r.odd = 2 * j + 1
  series : OnSeries x (1 / 2 / 10 ^ 28) j r.power.value r.sum.value
  nonneg : 0 ≤ r.power.units

structure NearSquare (x : ℝ) (square : Decimal) : Prop where
  near : |square.value - x ^ 2| ≤ 3 * (1 / 2 / 10 ^ 28)
  nonneg : 0 ≤ square.units

variable {x : ℝ}

theorem NearSquare.value_le (h : NearSquare x square) (hx : |x| ≤ 1 / 3) :
    |square.value| ≤ 1 / 8 :=
  (abs_le_add_of_near h.near (abs_sq_le_ninth hx)).trans (by norm_num)

/-- Rounding gives back less than the multiplication by a small square takes off. -/
theorem units_lt_of_near {power square power' : Decimal} (hpower : 0 < power.units)
    (hsquare : 0 ≤ square.value ∧ square.value ≤ 1 / 8)
    (hnear : |power'.value - power.value * square.value| ≤ 1 / 2 / 10 ^ 28) :
    0 ≤ power'.units ∧ power'.units < power.units := by
  have hunit : 1 / 10 ^ 28 ≤ power.value := by
    have hone : (1 : ℝ) ≤ power.units := by exact_mod_cast hpower
    rw [value]
    exact div_le_div_of_nonneg_right hone (by positivity)
  have hpos : 0 ≤ power.value := le_trans (by positivity) hunit
  constructor
  · have hproduct : zero.value ≤ power.value * square.value := by
      rw [value_zero]
      exact mul_nonneg hpos hsquare.1
    exact value_nonneg_iff.mp (value_zero ▸ value_le_of_near hproduct hnear)
  · have hproduct : power.value * square.value ≤ power.value * (1 / 8) :=
      mul_le_mul_of_nonneg_left hsquare.2 hpos
    have hhigh := (abs_le.mp hnear).2
    exact lt_iff_value_lt.mpr (by linarith)

theorem OnTrack.exists_term (h : r.OnTrack x j) (hx : |x| ≤ 1 / 3) (hj : j ≤ 30) :
    ∃ t, r.term? = some t ∧ |t.value - r.power.value / (2 * j + 1)| ≤ 1 / 2 / 10 ^ 28 ∧
      |t.value| ≤ 1 ∧ (t.isZero = false → 0 < r.power.units) := by
  have hword : 2 * j + 1 < twoPow 96 := lt_of_le_of_lt (by omega : 2 * j + 1 ≤ 61) (by decide)
  obtain ⟨d, hd, hvalue⟩ := value_ofNat hword
  push_cast at hvalue
  have hzero : d.value ≠ 0 := by
    rw [hvalue]
    positivity
  have hsmall : |r.power.value / d.value| ≤ 37 / 100 := by
    rw [hvalue]
    exact (abs_div_odd_le _ j).trans (h.series.abs_power_le hx (by norm_num))
  obtain ⟨t, ht, hnear⟩ := gives_div (le_refl 28) hzero (fits_of_abs_le hsmall (by norm_num))
  refine ⟨t, ?_, hvalue ▸ hnear, (abs_le_add_of_near hnear hsmall).trans (by norm_num),
    fun hterm => lt_of_le_of_ne h.nonneg fun hpower => ?_⟩
  · rw [term?, h.odd, hd, Option.bind_eq_bind, Option.bind_some, ht]
  · -- a zero power has a zero term
    have hvalue0 : r.power.value = 0 := by rw [value, ← hpower, Int.cast_zero, zero_div]
    rw [hvalue0, zero_div, sub_zero] at hnear
    rw [isZero_of_small (lt_of_le_of_lt hnear (by norm_num))] at hterm
    cases hterm

theorem OnTrack.exists_next (h : r.OnTrack x j) (hx : |x| ≤ 1 / 3) (hsquare : NearSquare x square)
    (hj : j ≤ 30) (ht : r.term? = some t)
    (hnear : |t.value - r.power.value / (2 * j + 1)| ≤ 1 / 2 / 10 ^ 28) (hterm : |t.value| ≤ 1)
    (hpower : 0 < r.power.units) :
    ∃ r', r.next? square = some r' ∧ r'.OnTrack x (j + 1) ∧ r'.power.units < r.power.units := by
  have hj' : (j : ℝ) ≤ 30 := by exact_mod_cast hj
  have hsquareLe := hsquare.value_le hx
  have hproductLe : |r.power.value * square.value| ≤ 37 / 100 * (1 / 8) := by
    rw [abs_mul]
    exact mul_le_mul (h.series.abs_power_le hx (by norm_num)) hsquareLe (abs_nonneg _) (by norm_num)
  have hsumLe : |r.sum.value + t.value| ≤ 3 := by
    linarith [abs_add_le r.sum.value t.value, h.series.abs_sum_le hx]
  obtain ⟨power', hmul, hpowerNear⟩ :=
    gives_mul (le_refl 28) (fits_of_abs_le hproductLe (by norm_num))
  obtain ⟨sum', hadd, hsumNear⟩ : Gives (r.sum.add t) _ 28 :=
    gives_add (fits_of_abs_le hsumLe (by norm_num))
  obtain ⟨hnonneg, hlt⟩ := units_lt_of_near hpower
    ⟨value_nonneg_iff.mpr hsquare.nonneg, (le_abs_self _).trans hsquareLe⟩ hpowerNear
  refine ⟨⟨r.odd + 2, power', sum'⟩, ?_, ⟨?_, ?_, hnonneg⟩, hlt⟩
  · simp only [next?, ht, hadd, hmul, Option.bind_eq_bind, Option.bind_some]
    rfl
  · exact (congrArg (· + 2) h.odd).trans (by ring)
  · exact h.series.next hx (by norm_num) hsquare.near hnear hpowerNear hsumNear

/-! ## All rounds -/

theorem OnTrack.isZero_of_late (h : r.OnTrack x 30) (hx : |x| ≤ 1 / 3)
    (ht : |t.value - r.power.value / (2 * (30 : ℕ) + 1)| ≤ 1 / 2 / 10 ^ 28) : t.isZero = true := by
  apply isZero_of_small
  have hpower := abs_odd_power_le hx 30
  have hnear := h.series.power
  have hsmall : 1 / 3 * (1 / 9 : ℝ) ^ 30 ≤ 1 / 10 ^ 28 := by norm_num
  rw [abs_le] at hpower hnear ht
  rw [abs_lt]
  constructor <;> push_cast at ht <;> linarith

/-- A term that is rounded to zero is the sign that what is left out is small. -/
theorem OnTrack.near_of_isZero (h : r.OnTrack x j) (hx : |x| ≤ 1 / 3) (hj : j ≤ 30)
    (ht : |t.value - r.power.value / (2 * j + 1)| ≤ 1 / 2 / 10 ^ 28) (hzero : t.isZero = true) :
    |2 * r.sum.value - Real.log ((1 + x) / (1 - x))| ≤ 900 * (1 / 2 / 10 ^ 28) := by
  have hj' : (j : ℝ) ≤ 30 := by exact_mod_cast hj
  have hn : (0 : ℝ) < 2 * j + 1 := by positivity
  have hpower : |x| ^ (2 * j + 1) ≤ 4 * (1 / 2 / 10 ^ 28) * (2 * j + 1) := by
    have hterm := h.series.term ht
    rwa [isZero_iff.mp hzero, zero_sub, abs_neg, abs_div, abs_of_pos hn, abs_pow,
      div_le_iff₀ hn] at hterm
  have hstop := h.series.stop hx
  linarith

theorem OnTrack.settles_stop (h : r.OnTrack x j) (hj : j ≤ 30) (ht : r.term? = some t)
    (hzero : t.isZero = true) : Settles square r [r] r.sum where
  summation := .stop ht hzero
  odd_lt := by
    rw [List.forall_mem_singleton, h.odd]
    omega
  nonneg := List.forall_mem_singleton.mpr h.nonneg
  shrinks := List.isChain_singleton r

theorem OnTrack.exists_settles (h : r.OnTrack x j) (hx : |x| ≤ 1 / 3)
    (hsquare : NearSquare x square) (hj : j ≤ 30) :
    ∃ rounds total, Settles square r rounds total ∧
      |2 * total.value - Real.log ((1 + x) / (1 - x))| ≤ 900 * (1 / 2 / 10 ^ 28) := by
  obtain ⟨rest, hrest⟩ : ∃ rest, j + rest = 30 := ⟨30 - j, by omega⟩
  -- the summation may stop at any round, and at the 31st it has to
  induction rest generalizing j r with
  | zero =>
    obtain rfl : j = 30 := hrest
    obtain ⟨t, ht, hnear, -⟩ := h.exists_term hx hj
    have hzero := h.isZero_of_late hx hnear
    exact ⟨[r], r.sum, h.settles_stop hj ht hzero, h.near_of_isZero hx hj hnear hzero⟩
  | succ rest ih =>
    obtain ⟨t, ht, hnear, htermLe, hpower⟩ := h.exists_term hx hj
    cases hzero : t.isZero with
    | true => exact ⟨[r], r.sum, h.settles_stop hj ht hzero, h.near_of_isZero hx hj hnear hzero⟩
    | false =>
      obtain ⟨r', hnext, hr', hlt⟩ :=
        h.exists_next hx hsquare hj ht hnear htermLe (hpower hzero)
      obtain ⟨rounds, total, hrounds, htotal⟩ := ih hr' (by omega) (by omega)
      refine ⟨r :: rounds, total, ⟨.next ht hzero hnext hrounds.summation, ?_, ?_, ?_⟩, htotal⟩
      · rw [List.forall_mem_cons, h.odd]
        exact ⟨by omega, hrounds.odd_lt⟩
      · exact List.forall_mem_cons.mpr ⟨h.nonneg, hrounds.nonneg⟩
      · rw [List.isChain_cons, hrounds.summation.head?]
        exact ⟨fun _ hhead => Option.mem_some_iff.mp hhead ▸ hlt, hrounds.shrinks⟩

end Round
end ReferralForest
