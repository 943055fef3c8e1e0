import Mathlib.Data.List.Basic
import ReferralForest.Toml.Scalar

/-!
# Numbers and truth values read back

The decimal digits of a number below `2^63` are read back as that number: they are no date,
for no date is made of digits alone, and they have no leading zero.
-/

namespace ReferralForest.Toml
open Numeric

variable {c d : Char} {cs rest : List Char} {n : Nat}

/-! ## Digits -/

theorem ne_of_class {p : Char → Bool} (hc : p c = true) (hd : p d = false) : c ≠ d := by
  rintro rfl
  rw [hc] at hd
  cases hd

theorem takeWhile_append_cons {p : Char → Bool} (h : ∀ c ∈ cs, p c = true) (hd : p d = false)
    (rest : List Char) : (cs ++ d :: rest).takeWhile p = cs := by
  rw [List.takeWhile_append_of_pos h, List.takeWhile_cons, hd]
  exact List.append_nil cs

theorem dropWhile_append_cons {p : Char → Bool} (h : ∀ c ∈ cs, p c = true) (hd : p d = false)
    (rest : List Char) : (cs ++ d :: rest).dropWhile p = d :: rest := by
  rw [List.dropWhile_append_of_pos h, List.dropWhile_cons, hd]
  rfl

theorem digit?_of_isDigit (h : c.isDigit = true) : digit? 10 c = some (c.toNat - 48) := by
  have hle : c.toNat ≤ 57 := by
    simp only [Char.isDigit, Bool.and_eq_true, decide_eq_true_eq] at h
    exact h.2
  simp only [digit?, h, if_true]
  exact if_pos (by omega)

theorem eq_zero_of_isDigit (h : c.isDigit = true) (hvalue : c.toNat - 48 = 0) : c = '0' := by
  have hge : 48 ≤ c.toNat := by
    simp only [Char.isDigit, Bool.and_eq_true, decide_eq_true_eq] at h
    exact h.1
  exact Char.toNat_inj.mp (show c.toNat = 48 by omega)

theorem digits?_of_isDigit (hne : cs ≠ []) (h : ∀ c ∈ cs, c.isDigit = true) :
    digits? 10 cs = some (cs.map fun c => c.toNat - 48) := by
  induction cs with
  | nil => exact absurd rfl hne
  | cons c cs ih =>
    obtain ⟨hc, hcs⟩ := List.forall_mem_cons.mp h
    cases cs with
    | nil => simp [digits?, digit?_of_isDigit hc]
    | cons d ds =>
      have hrest := ih (List.cons_ne_nil d ds) hcs
      rw [digits?, digit?_of_isDigit hc, hrest]
      · rfl
      · rintro ⟨⟩
      · rintro rest ⟨rfl, -⟩
        exact absurd (hcs '_' List.mem_cons_self) (by decide)

theorem ofDigits_map (cs : List Char) :
    ofDigits 10 (cs.map fun c => c.toNat - 48) = Nat.ofDigitChars 10 cs 0 := by
  rw [ofDigits, List.foldl_map, Nat.ofDigitChars]
  simp only [Nat.mul_comm]
  rfl

theorem head?_toDigits (hn : n ≠ 0) : (Nat.toDigits 10 n).head? ≠ some '0' := by
  induction n using Nat.strongRecOn with
  | ind n ih =>
    rcases Nat.lt_or_ge n 10 with hlt | hge
    · have hdigit : ∀ n < 10, n ≠ 0 → [n.digitChar].head? ≠ some '0' := by decide
      rw [Nat.toDigits_of_lt_base hlt]
      exact hdigit n hlt hn
    · have hfront : (Nat.toDigits 10 (n / 10)).head? ≠ some '0' :=
        ih (n / 10) (by omega) (by omega)
      rw [Nat.toDigits_of_base_le (by decide) hge,
        List.head?_append_of_ne_nil _ Nat.toDigits_ne_nil]
      exact hfront

namespace Scalar

/-! ## Whole numbers -/

theorem isDigit_of_mem_toDigits (h : c ∈ Nat.toDigits 10 n) : c.isDigit = true :=
  Nat.isDigit_of_mem_toDigits (by decide) (by decide) h

theorem toDigits_ne_zero_cons : Nat.toDigits 10 n ≠ '0' :: c :: cs := by
  intro h
  by_cases hn : n = 0
  · rw [hn, Nat.toDigits_zero] at h
    cases h
  · exact head?_toDigits hn (congrArg List.head? h)

theorem decimal?_toDigits (n : Nat) : decimal? (Nat.toDigits 10 n) =
    some ((Nat.toDigits 10 n).map fun c => c.toNat - 48) := by
  rw [decimal?, digits?_of_isDigit Nat.toDigits_ne_nil fun _ => isDigit_of_mem_toDigits]
  refine if_neg ?_
  rintro ⟨hlength, hhead⟩
  cases hcs : Nat.toDigits 10 n with
  | nil => exact Nat.toDigits_ne_nil hcs
  | cons c cs =>
    rw [hcs] at hlength hhead
    cases cs with
    | nil => exact hlength rfl
    | cons d ds =>
      have hdigit : c.isDigit = true := isDigit_of_mem_toDigits (hcs ▸ List.mem_cons_self)
      have hzero : c = '0' := eq_zero_of_isDigit hdigit (Option.some.inj hhead)
      exact toDigits_ne_zero_cons (hzero ▸ hcs)

theorem unsigned_toDigits (n : Nat) :
    unsigned (Nat.toDigits 10 n) = (false, Nat.toDigits 10 n) := by
  have hdigit : ∀ c ∈ Nat.toDigits 10 n, c.isDigit = true := fun _ => isDigit_of_mem_toDigits
  rw [unsigned.eq_def]
  split
  · next h => exact absurd (hdigit '-' (h ▸ List.mem_cons_self)) (by decide)
  · next h => exact absurd (hdigit '+' (h ▸ List.mem_cons_self)) (by decide)
  · rfl

theorem integer?_toDigits (h : n < twoPow 63) : integer? (Nat.toDigits 10 n) = some (n : Int) := by
  have hvalue : ofDigits 10 ((Nat.toDigits 10 n).map fun c => c.toNat - 48) = n := by
    rw [ofDigits_map, Nat.ofDigitChars_ten_toDigits]
  have hmin : Int64.minValue.toInt ≤ (n : Int) := by
    have hneg : Int64.minValue.toInt ≤ 0 := by decide
    omega
  have hmax : (n : Int) ≤ Int64.maxValue.toInt := by
    have hword : Int64.maxValue.toInt = twoPow 63 - 1 := by decide
    omega
  rw [integer?, unsigned_toDigits]
  · simp only [decimal?_toDigits, Option.map_some, hvalue]
    exact if_pos ⟨hmin, hmax⟩
  · exact fun _ => toDigits_ne_zero_cons
  · exact fun _ => toDigits_ne_zero_cons
  · exact fun _ => toDigits_ne_zero_cons

/-! ## No dates -/

section Digits
variable {limit : Nat}

theorem symbol?_of_isDigit (hc : c.isDigit = false) (h : ∀ d ∈ cs, d.isDigit = true) :
    symbol? c cs = none := by
  cases cs with
  | nil => rfl
  | cons d ds =>
    have hne : d ≠ c := ne_of_class (h d List.mem_cons_self) hc
    exact if_neg hne

theorem isDigit_of_twoDigits? (h : ∀ d ∈ cs, d.isDigit = true)
    (htwo : twoDigits? limit cs = some (n, rest)) : ∀ d ∈ rest, d.isDigit = true := by
  match cs with
  | [] | [_] => cases htwo
  | a :: b :: behind =>
    obtain ⟨tens, -, hones⟩ := Option.bind_eq_some_iff.mp htwo
    obtain ⟨ones, -, hlimit⟩ := Option.bind_eq_some_iff.mp hones
    obtain ⟨-, hrest⟩ := Option.ite_none_right_eq_some.mp hlimit
    cases hrest
    exact fun d hd => h d (List.mem_cons_of_mem _ (List.mem_cons_of_mem _ hd))

theorem date?_of_isDigit (h : ∀ d ∈ cs, d.isDigit = true) : date? cs = none := by
  rw [date?, Option.bind_eq_bind, Option.bind_eq_none_iff]
  rintro ⟨century, afterCentury⟩ hcentury
  have hafter := isDigit_of_twoDigits? h hcentury
  simp only [Option.bind_eq_bind, Option.bind_eq_none_iff]
  rintro ⟨year, afterYear⟩ hyear
  simp [symbol?_of_isDigit (c := '-') (by decide) (isDigit_of_twoDigits? hafter hyear)]

theorem time?_of_isDigit (h : ∀ d ∈ cs, d.isDigit = true) : time? cs = none := by
  rw [time?, Option.bind_eq_bind, Option.bind_eq_none_iff]
  rintro ⟨hour, afterHour⟩ hhour
  simp [symbol?_of_isDigit (c := ':') (by decide) (isDigit_of_twoDigits? h hhour)]

theorem isDatetime_of_isDigit (h : ∀ d ∈ cs, d.isDigit = true) : isDatetime cs = false := by
  simp [isDatetime, date?_of_isDigit h, time?_of_isDigit h]

end Digits

/-! ## Words -/

theorem word_append (h : ∀ c ∈ cs, isWordChar c = true) (rest : List Char) :
    word (cs ++ '\n' :: rest) = (cs, '\n' :: rest) := by
  have hbreak : isWordChar '\n' = false := by decide
  simp only [word, takeWhile_append_cons h hbreak, dropWhile_append_cons h hbreak]
  rfl

theorem read?_toDigits (hn : n < twoPow 63) (rest : List Char) :
    read? (Nat.toDigits 10 n ++ '\n' :: rest) = some (.integer n, '\n' :: rest) := by
  have hdigit : ∀ c ∈ Nat.toDigits 10 n, c.isDigit = true := fun _ => isDigit_of_mem_toDigits
  have hword : ∀ c ∈ Nat.toDigits 10 n, isWordChar c = true := by
    intro c hc
    simp [isWordChar, Char.isAlphanum, hdigit c hc]
  have htrue : Nat.toDigits 10 n ≠ ['t', 'r', 'u', 'e'] := by
    intro h
    exact absurd (hdigit 't' (h ▸ List.mem_cons_self)) (by decide)
  have hfalse : Nat.toDigits 10 n ≠ ['f', 'a', 'l', 's', 'e'] := by
    intro h
    exact absurd (hdigit 'f' (h ▸ List.mem_cons_self)) (by decide)
  rw [read?, word_append hword]
  simp [ofWord?, htrue, hfalse, isDatetime_of_isDigit hdigit, integer?_toDigits hn]

theorem read?_true (rest : List Char) :
    read? ("true".toList ++ '\n' :: rest) = some (.boolean true, '\n' :: rest) := by
  rw [read?, word_append (List.all_eq_true.mp (by decide))]
  rfl

theorem read?_false (rest : List Char) :
    read? ("false".toList ++ '\n' :: rest) = some (.boolean false, '\n' :: rest) := by
  rw [read?, word_append (List.all_eq_true.mp (by decide))]
  rfl

end Scalar
end ReferralForest.Toml
