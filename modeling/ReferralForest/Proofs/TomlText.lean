import Mathlib.Data.List.Infix
import Mathlib.Tactic.IntervalCases
import ReferralForest.Toml.Text

/-!
# Strings read back

Every form reads back the text that it was chosen for. The basic forms hold any text, for what
they cannot hold plainly they escape; the literal ones hold what has no control characters.
Between tripled quotes a written text has at most two quotes in a row, so that three of them
are always the end. A text can be written unless it has 256 quotes of one kind in a row.
-/

namespace ReferralForest.Toml.Text

variable {multiline : Bool} {c e quote : Char} {cs text rest : List Char}

/-! ## One character -/

theorem digit?_upperHexDigit {n : Nat} (h : n < 16) : digit? 16 (upperHexDigit n) = some n := by
  revert n
  decide

theorem toNat_lt_of_isControl (h : isControl c = true) : c.toNat < 128 := by
  simp only [isControl, Bool.or_eq_true, Bool.and_eq_true, decide_eq_true_eq] at h
  omega

theorem readBasic_codePoint (h : c.toNat < 128) :
    readBasic multiline (.plain false) ('\\' :: 'u' :: '0' :: '0' ::
      upperHexDigit (c.toNat / 16) :: upperHexDigit (c.toNat % 16) :: rest) =
        push c (readBasic multiline (.plain false) rest) := by
  have hzero : digit? 16 '0' = some 0 := by decide
  have hhigh := digit?_upperHexDigit (n := c.toNat / 16) (by omega)
  have hlow := digit?_upperHexDigit (n := c.toNat % 16) (by omega)
  have hvalue : c.toNat / 16 * 16 + c.toNat % 16 = c.toNat := by omega
  have hvalid : c.toNat.isValidChar := c.valid
  simp [readBasic, escape?, hzero, hhigh, hlow, hvalue, hvalid, Char.ofNat_toNat]

theorem readBasic_escape (h : escape? e = some c) :
    readBasic multiline (.plain false) ('\\' :: e :: rest) =
      push c (readBasic multiline (.plain false) rest) := by
  simp [readBasic, h]

theorem readBasic_lineBreak :
    readBasic true (.plain false) ('\n' :: rest) =
      push '\n' (readBasic true (.plain false) rest) := by
  simp [readBasic]

theorem readBasic_writeChar (hc : c ≠ '"') :
    readBasic multiline (.plain false) (writeChar multiline c ++ rest) =
      push c (readBasic multiline (.plain false) rest) := by
  unfold writeChar
  split
  · next h => subst h; exact readBasic_escape rfl
  split
  · next h => subst h; exact readBasic_escape rfl
  split
  · next h =>
    subst h
    cases multiline
    · exact readBasic_escape rfl
    · exact readBasic_lineBreak
  split
  · next h => subst h; exact readBasic_escape rfl
  split
  · next h => subst h; exact readBasic_escape rfl
  split
  · next h => subst h; exact readBasic_escape rfl
  split
  · next h => exact readBasic_codePoint (toNat_lt_of_isControl h)
  · -- a character that stands for itself
    simp [readBasic, *]

/-- What is written for a character starts with no quote and with no line break that would be
dropped after the opening quotes. -/
theorem writeChar_eq_cons (multiline : Bool) (hc : c ≠ '"') :
    ∃ x xs, writeChar multiline c = x :: xs ∧ x ≠ '"' ∧ x ≠ '\r' ∧ (x = '\n' → c = '\n') := by
  unfold writeChar
  repeat' split
  all_goals exact ⟨_, _, rfl, by simp [*], by simp [*], by simp [*]⟩

/-! ## On one line -/

theorem readBasic_writeBasic (cs rest : List Char) (quotes : Nat) :
    readBasic false (.plain false) (writeBasic false quotes cs ++ '"' :: rest) =
      some (cs, rest) := by
  induction cs generalizing quotes with
  | nil => simp [writeBasic, readBasic]
  | cons c cs ih =>
    rw [writeBasic]
    split
    · next h =>
      subst h
      rw [Bool.false_and, if_neg Bool.false_ne_true, List.cons_append, List.cons_append,
        readBasic_escape rfl, ih]
      rfl
    · next h =>
      rw [List.append_assoc, readBasic_writeChar h, ih]
      rfl

theorem readLiteral_line (h : ∀ c ∈ cs, c ≠ '\'' ∧ isControl c = false) (rest : List Char) :
    readLiteral false (cs ++ '\'' :: rest) = some (cs, rest) := by
  induction cs with
  | nil => simp [readLiteral]
  | cons c cs ih =>
    obtain ⟨⟨hquote, hcontrol⟩, hcs⟩ := List.forall_mem_cons.mp h
    simp [readLiteral, hquote, hcontrol, ih hcs, push]

/-! ## Between tripled quotes -/

theorem closing?_replicate {n : Nat} (hn : n ≤ 2) (hrest : rest.head? ≠ some quote) :
    closing? quote (List.replicate n quote ++ quote :: quote :: quote :: rest) =
      some (List.replicate n quote, rest) := by
  cases rest with
  | nil => interval_cases n <;> simp [closing?]
  | cons x xs =>
    have hx : x ≠ quote := fun h => hrest (congrArg some h)
    interval_cases n <;> simp [closing?, hx, List.replicate]

theorem closing?_eq_none {n : Nat} (hn : n ≤ 2) (hc : c ≠ quote) :
    closing? quote (List.replicate n quote ++ c :: cs) = none := by
  interval_cases n <;> simp [closing?, hc, List.replicate]

theorem writeBasic_quote {quotes : Nat} (h : quotes < 2) :
    writeBasic true quotes ('"' :: cs) = '"' :: writeBasic true (quotes + 1) cs := by
  simp [writeBasic, h]

theorem writeBasic_third : writeBasic true 2 ('"' :: cs) = '\\' :: '"' :: writeBasic true 0 cs := by
  simp [writeBasic]

theorem writeBasic_run {quotes : Nat} (hquotes : quotes ≤ 2) (cs : List Char) :
    (∃ n, n + quotes ≤ 2 ∧ cs = List.replicate n '"' ∧ writeBasic true quotes cs = cs) ∨
    ∃ n c tail, n + quotes ≤ 2 ∧ c ≠ '"' ∧
      writeBasic true quotes cs = List.replicate n '"' ++ c :: tail := by
  induction cs generalizing quotes with
  | nil => exact .inl ⟨0, by omega, rfl, rfl⟩
  | cons c cs ih =>
    by_cases hc : c = '"'
    · subst hc
      rcases Nat.lt_or_eq_of_le hquotes with hlt | rfl
      · rw [writeBasic_quote hlt]
        rcases ih (by omega : quotes + 1 ≤ 2) with ⟨n, hn, hcs, heq⟩ | ⟨n, c, tail, hn, hc, heq⟩
        · exact .inl ⟨n + 1, by omega, by rw [hcs]; rfl, by rw [heq]⟩
        · exact .inr ⟨n + 1, c, tail, by omega, hc, by rw [heq]; rfl⟩
      · exact .inr ⟨0, '\\', '"' :: writeBasic true 0 cs, by omega, by decide, writeBasic_third⟩
    · obtain ⟨x, xs, hx, hne, -⟩ := writeChar_eq_cons true hc
      exact .inr ⟨0, x, xs ++ writeBasic true 0 cs, by omega, hne, by simp [writeBasic, hc, hx]⟩

theorem readBasic_quote (h : closing? '"' ('"' :: text) = none) :
    readBasic true (.plain false) ('"' :: text) =
      push '"' (readBasic true (.plain false) text) := by
  simp [readBasic, h, isBlank]

theorem readBasic_closing {r : List Char × List Char} (h : closing? '"' ('"' :: text) = some r) :
    readBasic true (.plain false) ('"' :: text) = some r := by
  simp [readBasic, h, isBlank]

theorem readBasic_writeBasic_long {quotes : Nat} (hquotes : quotes ≤ 2) (cs : List Char)
    (hrest : rest.head? ≠ some '"') :
    readBasic true (.plain false) (writeBasic true quotes cs ++ '"' :: '"' :: '"' :: rest) =
      some (cs, rest) := by
  induction cs generalizing quotes with
  | nil => exact readBasic_closing (closing?_replicate (n := 0) (by omega) hrest)
  | cons c cs ih =>
    by_cases hc : c = '"'
    · subst hc
      rcases Nat.lt_or_eq_of_le hquotes with hlt | rfl
      · rw [writeBasic_quote hlt, List.cons_append]
        rcases writeBasic_run (by omega : quotes + 1 ≤ 2) cs with
          ⟨n, hn, hcs, heq⟩ | ⟨n, c, tail, hn, hc, heq⟩
        · rw [heq, hcs]
          exact readBasic_closing (closing?_replicate (n := n + 1) (by omega) hrest)
        · have hnone : closing? '"' ('"' :: (writeBasic true (quotes + 1) cs ++
              '"' :: '"' :: '"' :: rest)) = none := by
            rw [heq, List.append_assoc]
            exact closing?_eq_none (n := n + 1) (by omega) hc
          rw [readBasic_quote hnone, ih (by omega)]
          rfl
      · rw [writeBasic_third, List.cons_append, List.cons_append, readBasic_escape rfl,
          ih (by omega)]
        rfl
    · rw [writeBasic, if_neg hc, List.append_assoc, readBasic_writeChar hc, ih (by omega)]
      rfl

/-! ## Runs of quotes -/

section Run
variable {run run' n : Nat}

theorem le_longestRun (quote : Char) (run : Nat) (cs : List Char) :
    run ≤ longestRun quote run cs := by
  induction cs generalizing run with
  | nil => exact Nat.le_refl run
  | cons c cs ih =>
    rw [longestRun]
    split
    · exact (Nat.le_succ run).trans (ih (run + 1))
    · exact Nat.le_max_left run _

theorem longestRun_mono (h : run ≤ run') (cs : List Char) :
    longestRun quote run cs ≤ longestRun quote run' cs := by
  induction cs generalizing run run' with
  | nil => exact h
  | cons c cs ih =>
    rw [longestRun, longestRun]
    split
    · exact ih (Nat.succ_le_succ h)
    · exact max_le_max h (Nat.le_refl _)

theorem longestRun_le_append (before cs : List Char) :
    longestRun quote 0 cs ≤ longestRun quote run (before ++ cs) := by
  induction before generalizing run with
  | nil => exact longestRun_mono (Nat.zero_le run) cs
  | cons c before ih =>
    rw [List.cons_append, longestRun]
    split
    · exact ih
    · exact ih.trans (Nat.le_max_right run _)

theorem longestRun_replicate_append (n : Nat) (cs : List Char) :
    longestRun quote run (List.replicate n quote ++ cs) = longestRun quote (run + n) cs := by
  induction n generalizing run with
  | zero => rfl
  | succ n ih =>
    rw [List.replicate_succ, List.cons_append, longestRun, if_pos rfl, ih, Nat.add_right_comm,
      Nat.add_assoc]

theorem replicate_infix_append (h : n ≤ run) (cs : List Char) :
    List.replicate n quote <:+: List.replicate run quote ++ cs := by
  refine List.IsPrefix.isInfix ⟨List.replicate (run - n) quote ++ cs, ?_⟩
  rw [← List.append_assoc, List.replicate_append_replicate, Nat.add_sub_cancel' h]

theorem infix_of_le_longestRun (h : n ≤ longestRun quote run cs) :
    List.replicate n quote <:+: List.replicate run quote ++ cs := by
  induction cs generalizing run with
  | nil => exact replicate_infix_append h []
  | cons c cs ih =>
    rw [longestRun] at h
    split at h
    · next hc =>
      subst hc
      have hnext := ih h
      rwa [List.replicate_succ', List.append_assoc] at hnext
    · rcases le_max_iff.mp h with hrun | hrest
      · exact replicate_infix_append hrun _
      · exact (ih hrest).trans (List.suffix_append_of_suffix (List.suffix_cons c cs)).isInfix

theorem le_longestRun_iff : n ≤ longestRun quote 0 cs ↔ List.replicate n quote <:+: cs := by
  refine ⟨infix_of_le_longestRun, ?_⟩
  rintro ⟨before, behind, rfl⟩
  have hrun := le_longestRun quote n behind
  rw [← Nat.zero_add n, ← longestRun_replicate_append, Nat.zero_add] at hrun
  rw [List.append_assoc]
  exact hrun.trans (longestRun_le_append before _)

theorem isWritable_iff :
    isWritable cs = true ↔ ∀ quote ∈ ['"', '\''], ¬List.replicate 256 quote <:+: cs := by
  simp only [isWritable, Bool.and_eq_true, decide_eq_true_eq, List.forall_mem_cons,
    ← le_longestRun_iff, Nat.not_le, Nat.lt_succ_iff]
  simp

/-! ## Long literals -/

theorem exists_run {run most : Nat} (h : longestRun quote run cs ≤ most) :
    (∃ n, n + run ≤ most ∧ cs = List.replicate n quote) ∨
    ∃ n c tail, n + run ≤ most ∧ c ≠ quote ∧ cs = List.replicate n quote ++ c :: tail := by
  induction cs generalizing run with
  | nil => exact .inl ⟨0, by simpa [longestRun] using h, rfl⟩
  | cons c cs ih =>
    rw [longestRun] at h
    split at h
    · next hc =>
      subst hc
      rcases ih h with ⟨n, hn, hcs⟩ | ⟨n, x, tail, hn, hx, hcs⟩
      · exact .inl ⟨n + 1, by omega, by rw [hcs]; rfl⟩
      · exact .inr ⟨n + 1, x, tail, by omega, hx, by rw [hcs]; rfl⟩
    · next hc => exact .inr ⟨0, c, cs, by omega, hc, rfl⟩

theorem readLiteral_quote (h : closing? '\'' ('\'' :: text) = none) :
    readLiteral true ('\'' :: text) = push '\'' (readLiteral true text) := by
  simp [readLiteral, h]

theorem readLiteral_closing {r : List Char × List Char}
    (h : closing? '\'' ('\'' :: text) = some r) :
    readLiteral true ('\'' :: text) = some r := by
  simp [readLiteral, h]

theorem readLiteral_long {run : Nat} (hrun : longestRun '\'' run cs ≤ 2)
    (h : ∀ c ∈ cs, isControl c = true → c = '\n') (hrest : rest.head? ≠ some '\'') :
    readLiteral true (cs ++ '\'' :: '\'' :: '\'' :: rest) = some (cs, rest) := by
  induction cs generalizing run with
  | nil => exact readLiteral_closing (closing?_replicate (n := 0) (by omega) hrest)
  | cons c cs ih =>
    obtain ⟨hcontrol, hcs⟩ := List.forall_mem_cons.mp h
    rw [longestRun] at hrun
    split at hrun
    · next hc =>
      subst hc
      rw [List.cons_append]
      rcases exists_run hrun with ⟨n, hn, heq⟩ | ⟨n, c, tail, hn, hc, heq⟩
      · rw [heq]
        exact readLiteral_closing (closing?_replicate (n := n + 1) (by omega) hrest)
      · have hnone : closing? '\'' ('\'' :: (cs ++ '\'' :: '\'' :: '\'' :: rest)) = none := by
          rw [heq, List.append_assoc]
          exact closing?_eq_none (n := n + 1) (by omega) hc
        rw [readLiteral_quote hnone, ih hrun hcs]
        rfl
    · next hc =>
      have ih := ih (Nat.le_trans (Nat.le_max_right _ _) hrun) hcs
      by_cases hline : c = '\n'
      · simp [readLiteral, hline, ih, push]
      · have hplain : isControl c = false := by
          rw [← Bool.not_eq_true]
          exact fun htrue => hline (hcontrol htrue)
        have hreturn : c ≠ '\r' := by
          rintro rfl
          exact absurd hplain (by decide)
        simp [readLiteral, hc, hline, hplain, hreturn, ih, push]

end Run

/-! ## The four forms -/

theorem read?_eq_readLine? {x : Char} (hx : x ≠ quote) (hquote : quote = '"' ∨ quote = '\'') :
    read? (quote :: x :: cs) = readLine? (quote :: x :: cs) := by
  rcases hquote with rfl | rfl <;> simp [read?, hx]

theorem read?_basic (cs rest : List Char) :
    read? (Form.basic.write cs ++ '\n' :: rest) = some (cs, '\n' :: rest) := by
  have hread := readBasic_writeBasic cs ('\n' :: rest) 0
  have hwrite : Form.basic.write cs ++ '\n' :: rest =
      '"' :: (writeBasic false 0 cs ++ '"' :: '\n' :: rest) := by
    simp [Form.write]
  rw [hwrite]
  cases cs with
  | nil => simp [writeBasic, read?, readLine?, readBasic]
  | cons c cs =>
    obtain ⟨x, xs, hx, hne⟩ : ∃ x xs, writeBasic false 0 (c :: cs) = x :: xs ∧ x ≠ '"' := by
      by_cases hc : c = '"'
      · exact ⟨'\\', '"' :: writeBasic false 0 cs, by simp [writeBasic, hc], by decide⟩
      · obtain ⟨x, xs, hx, hne, -⟩ := writeChar_eq_cons false hc
        exact ⟨x, xs ++ writeBasic false 0 cs, by simp [writeBasic, hc, hx], hne⟩
    rw [hx, List.cons_append] at hread ⊢
    rw [read?_eq_readLine? hne (.inl rfl)]
    exact hread

theorem read?_literal (h : ∀ c ∈ cs, c ≠ '\'' ∧ isControl c = false) (rest : List Char) :
    read? (Form.literal.write cs ++ '\n' :: rest) = some (cs, '\n' :: rest) := by
  have hread := readLiteral_line h ('\n' :: rest)
  have hwrite : Form.literal.write cs ++ '\n' :: rest = '\'' :: (cs ++ '\'' :: '\n' :: rest) := by
    simp [Form.write]
  rw [hwrite]
  cases cs with
  | nil => simp [read?, readLine?, readLiteral]
  | cons c cs =>
    rw [List.cons_append] at hread ⊢
    rw [read?_eq_readLine? (h c List.mem_cons_self).1 (.inr rfl)]
    exact hread

/-- A line break is put after the opening quotes where the text has line breaks, and nothing
else that stands there is dropped. -/
theorem dropLineBreak_append
    (h : '\n' ∉ cs → text.head? ≠ some '\n' ∧ text.head? ≠ some '\r') :
    dropLineBreak (lineBreakIf cs ++ text) = text := by
  by_cases hline : '\n' ∈ cs
  · simp [lineBreakIf, hline, dropLineBreak]
  · obtain ⟨hbreak, hreturn⟩ := h hline
    cases text with
    | nil => simp [lineBreakIf, hline, dropLineBreak]
    | cons c text => simp_all [lineBreakIf, dropLineBreak]

theorem read?_longBasic (cs rest : List Char) :
    read? (Form.longBasic.write cs ++ '\n' :: rest) = some (cs, '\n' :: rest) := by
  have hbehind : ('\n' :: rest).head? ≠ some '"' := by simp
  have hread := readBasic_writeBasic_long (Nat.zero_le 2) cs hbehind
  have hwrite : Form.longBasic.write cs ++ '\n' :: rest = '"' :: '"' :: '"' ::
      (lineBreakIf cs ++ (writeBasic true 0 cs ++ '"' :: '"' :: '"' :: '\n' :: rest)) := by
    simp [Form.write]
  rw [hwrite, read?, dropLineBreak_append, hread]
  intro hline
  cases cs with
  | nil => simp [writeBasic]
  | cons c cs =>
    have hc := List.ne_of_not_mem_cons hline
    by_cases hquote : c = '"'
    · simp [writeBasic, hquote]
    · obtain ⟨x, xs, hx, -, hreturn, hbreak⟩ := writeChar_eq_cons true hquote
      have hx' : x ≠ '\n' := fun h => hc (hbreak h).symm
      simp [writeBasic, hquote, hx, hx', hreturn]

theorem read?_longLiteral (h : ∀ c ∈ cs, isControl c = true → c = '\n')
    (hrun : longestRun '\'' 0 cs ≤ 2) (rest : List Char) :
    read? (Form.longLiteral.write cs ++ '\n' :: rest) = some (cs, '\n' :: rest) := by
  have hbehind : ('\n' :: rest).head? ≠ some '\'' := by simp
  have hread := readLiteral_long hrun h hbehind
  have hwrite : Form.longLiteral.write cs ++ '\n' :: rest = '\'' :: '\'' :: '\'' ::
      (lineBreakIf cs ++ (cs ++ '\'' :: '\'' :: '\'' :: '\n' :: rest)) := by
    simp [Form.write]
  rw [hwrite, read?, dropLineBreak_append, hread]
  intro hline
  cases cs with
  | nil => simp
  | cons c cs =>
    have hc := List.ne_of_not_mem_cons hline
    have hreturn : c ≠ '\r' := by
      rintro rfl
      exact absurd (h '\r' List.mem_cons_self (by decide)) (by decide)
    simp [Ne.symm hc, hreturn]

theorem isControl_of_any (h : (cs.any fun c => isControl c && c ≠ '\n') = false) :
    ∀ c ∈ cs, isControl c = true → c = '\n' := by
  intro c hc hcontrol
  simpa [hcontrol] using List.any_eq_false.mp h c hc

/-- Whatever form a text is written in, it is read back up to the end of its line. -/
theorem read?_write (cs rest : List Char) :
    read? ((Form.of cs).write cs ++ '\n' :: rest) = some (cs, '\n' :: rest) := by
  simp only [Form.of, Bool.and_eq_true, Bool.not_eq_true', decide_eq_true_eq]
  split
  · exact read?_basic cs rest
  split
  · next h =>
    obtain ⟨⟨hcontrol, hsingle⟩, hline⟩ := h
    have hquote : '\'' ∉ cs := by
      rw [← List.singleton_infix_iff, ← List.replicate_one, ← le_longestRun_iff, hsingle]
      decide
    have hbreak : '\n' ∉ cs := by simpa using hline
    refine read?_literal (fun c hc => ⟨fun h => hquote (h ▸ hc), ?_⟩) rest
    rw [← Bool.not_eq_true]
    exact fun h => hbreak (isControl_of_any hcontrol c hc h ▸ hc)
  split
  · exact read?_longBasic cs rest
  split
  · next h => exact read?_longLiteral (isControl_of_any h.1) h.2 rest
  split
  · exact read?_longBasic cs rest
  · exact read?_basic cs rest

end ReferralForest.Toml.Text
