import ReferralForest.Proofs.TomlScalar
import ReferralForest.Proofs.TomlText
import ReferralForest.Toml.Document

/-!
# Documents of settings read back

A document that holds one setting a line, each under a bare key of its own, is read as the
table of these keys with their values, in the order of the lines.
-/

namespace ReferralForest.Toml

namespace Statement
open Text (isBlank)
open Scalar (isWordChar)

variable {c d : Char} {key cs text rest : List Char} {depth : Nat} {s : Scalar}

/-! ## Values -/

theorem value?_text (hc : c = '"' ∨ c = '\'') (h : Text.read? (c :: cs) = some (text, rest)) :
    value? depth (c :: cs) = some (.string (String.ofList text), rest) := by
  rcases hc with rfl | rfl <;> simp [value?, h]

theorem value?_scalar (hc : isWordChar c = true)
    (h : Scalar.read? (c :: cs) = some (s, rest)) :
    value? depth (c :: cs) = some (.scalar s, rest) := by
  have hbracket : c ≠ '[' := ne_of_class hc (by decide)
  have hbrace : c ≠ '\x7b' := ne_of_class hc (by decide)
  have hdouble : c ≠ '"' := ne_of_class hc (by decide)
  have hsingle : c ≠ '\'' := ne_of_class hc (by decide)
  simp [value?, Text.read?, Text.readLine?, hbracket, hbrace, hdouble, hsingle, h]

structure Writes (text : List Char) (v : Value) : Prop where
  start : ∀ c ∈ text.head?, isBlank c = false
  read : ∀ rest, value? 79 (text ++ '\n' :: rest) = some (v, '\n' :: rest)

theorem writes_text (cs : List Char) :
    Writes ((Text.Form.of cs).write cs) (.string (String.ofList cs)) := by
  obtain ⟨c, tail, hc, htail⟩ : ∃ c tail,
      (c = '"' ∨ c = '\'') ∧ (Text.Form.of cs).write cs = c :: tail := by
    cases Text.Form.of cs
    · exact ⟨'"', _, .inl rfl, rfl⟩
    · exact ⟨'\'', _, .inr rfl, rfl⟩
    · exact ⟨'"', _, .inl rfl, rfl⟩
    · exact ⟨'\'', _, .inr rfl, rfl⟩
  have hread := Text.read?_write cs
  rw [htail] at hread ⊢
  refine ⟨?_, fun rest => value?_text hc (hread rest)⟩
  rcases hc with rfl | rfl <;> simp [isBlank]

theorem writes_scalar (hne : text ≠ []) (htext : ∀ c ∈ text, isWordChar c = true)
    (h : ∀ rest, Scalar.read? (text ++ '\n' :: rest) = some (s, '\n' :: rest)) :
    Writes text (.scalar s) := by
  cases text with
  | nil => exact absurd rfl hne
  | cons c cs =>
    have hc := htext c List.mem_cons_self
    refine ⟨?_, fun rest => value?_scalar hc (h rest)⟩
    have hspace : c ≠ ' ' := ne_of_class hc (by decide)
    have htab : c ≠ '\t' := ne_of_class hc (by decide)
    simp [isBlank, hspace, htab]

/-! ## Lines -/

theorem skipBlanks_cons (hc : isBlank c = false) : skipBlanks (c :: cs) = c :: cs := by
  simp [skipBlanks, hc]

theorem skipBlanks_space (cs : List Char) : skipBlanks (' ' :: cs) = skipBlanks cs := by
  simp [skipBlanks, isBlank]

theorem isBlank_of_isBare (hc : isBare c = true) : isBlank c = false := by
  have hspace : c ≠ ' ' := ne_of_class hc (by decide)
  have htab : c ≠ '\t' := ne_of_class hc (by decide)
  simp [isBlank, hspace, htab]

theorem lineEnd?_lineBreak (rest : List Char) : lineEnd? ('\n' :: rest) = some rest := by
  rw [lineEnd?, skipBlanks_cons (by decide)]
  rfl

theorem lineEnd?_bare (hc : isBare c = true) : lineEnd? (c :: cs) = none := by
  have hhash : c ≠ '#' := ne_of_class hc (by decide)
  have hline : c ≠ '\n' := ne_of_class hc (by decide)
  have hreturn : c ≠ '\r' := ne_of_class hc (by decide)
  simp [lineEnd?, skipBlanks_cons (isBlank_of_isBare hc), hhash, hline, hreturn]

def Bare (key : List Char) : Prop := key ≠ [] ∧ ∀ c ∈ key, isBare c = true

instance (key : List Char) : Decidable (Bare key) :=
  decidable_of_iff (key ≠ [] ∧ key.all isBare = true) (and_congr_right' List.all_eq_true)

theorem Bare.exists_cons (h : Bare key) : ∃ c tail, key = c :: tail ∧ isBare c = true := by
  cases key with
  | nil => exact absurd rfl h.1
  | cons c tail => exact ⟨c, tail, rfl, h.2 c List.mem_cons_self⟩

theorem simpleKey?_bare (h : Bare key) (hd : isBare d = false) (rest : List Char) :
    simpleKey? (key ++ d :: rest) = some (String.ofList key, d :: rest) := by
  have hline : Text.readLine? (key ++ d :: rest) = none := by
    obtain ⟨c, tail, rfl, hc⟩ := h.exists_cons
    have hdouble : c ≠ '"' := ne_of_class hc (by decide)
    have hsingle : c ≠ '\'' := ne_of_class hc (by decide)
    simp [Text.readLine?, hdouble, hsingle]
  simp [simpleKey?, hline, takeWhile_append_cons h.2 hd, dropWhile_append_cons h.2 hd, h.1]

theorem key?_bare (h : Bare key) (parts : Nat) (rest : List Char) :
    key? (parts + 1) (key ++ ' ' :: '=' :: rest) = some ([String.ofList key], '=' :: rest) := by
  have hfirst : skipBlanks (key ++ ' ' :: '=' :: rest) = key ++ ' ' :: '=' :: rest := by
    obtain ⟨c, tail, rfl, hc⟩ := h.exists_cons
    exact skipBlanks_cons (isBlank_of_isBare hc)
  have hbehind : skipBlanks (' ' :: '=' :: rest) = '=' :: rest :=
    (skipBlanks_space _).trans (skipBlanks_cons (by decide))
  simp [key?, hfirst, simpleKey?_bare h (by decide : isBare ' ' = false), hbehind]

theorem dottedKey?_bare (h : Bare key) (rest : List Char) :
    dottedKey? (key ++ ' ' :: '=' :: rest) = some ([], String.ofList key, '=' :: rest) := by
  rw [dottedKey?, key?_bare h]
  rfl

end Statement

structure Setting where
  key : String
  text : List Char
  value : Value

namespace Setting
open Statement

def line (s : Setting) : List Char := s.key.toList ++ [' ', '=', ' '] ++ s.text ++ ['\n']

def statement (s : Setting) : Statement := .setting [] s.key s.value

structure Valid (s : Setting) : Prop where
  bare : Bare s.key.toList
  writes : Writes s.text s.value

variable {s : Setting} {rest : List Char}

theorem line_append (s : Setting) (rest : List Char) :
    s.line ++ rest = s.key.toList ++ ' ' :: '=' :: ' ' :: (s.text ++ '\n' :: rest) := by
  simp [line]

theorem Valid.setting? (h : s.Valid) (rest : List Char) :
    setting? (s.line ++ rest) = some (s.statement, rest) := by
  have hblanks : skipBlanks (' ' :: (s.text ++ '\n' :: rest)) = s.text ++ '\n' :: rest := by
    rw [skipBlanks_space]
    cases htext : s.text with
    | nil => exact skipBlanks_cons (by decide)
    | cons c tail => exact skipBlanks_cons (h.writes.start c (by rw [htext]; rfl))
  rw [line_append, Statement.setting?, dottedKey?_bare h.bare]
  simp [Scalar.symbol?, hblanks, h.writes.read, lineEnd?_lineBreak, statement]

theorem Valid.line? (h : s.Valid) (rest : List Char) :
    Statement.line? (s.line ++ rest) = some (some s.statement, rest) := by
  have hsetting := h.setting? rest
  obtain ⟨c, tail, hkey, hc⟩ := h.bare.exists_cons
  have hline : s.line ++ rest = c :: (tail ++ ' ' :: '=' :: ' ' :: (s.text ++ '\n' :: rest)) := by
    rw [line_append, hkey, List.cons_append]
  have hbracket : c ≠ '[' := ne_of_class hc (by decide)
  rw [hline] at hsetting ⊢
  simp [Statement.line?, lineEnd?_bare hc, skipBlanks_cons (isBlank_of_isBare hc), hbracket,
    hsetting]

theorem lines?_of_line? {cs : List Char} {first : Statement} (hne : cs ≠ [])
    (h : Statement.line? cs = some (some first, rest)) (fuel : Nat) :
    lines? (fuel + 1) cs = (lines? fuel rest).map (first :: ·) := by
  rw [lines?, h]
  · cases hrest : lines? fuel rest <;> simp [hrest]
  · exact hne

theorem line_ne_nil (s : Setting) : s.line ≠ [] := by simp [line]

theorem lines?_settings {settings : List Setting} (h : ∀ s ∈ settings, s.Valid) {fuel : Nat}
    (hfuel : settings.length ≤ fuel) :
    lines? fuel (settings.flatMap line) = some (settings.map statement) := by
  induction settings generalizing fuel with
  | nil => cases fuel <;> rfl
  | cons s settings ih =>
    obtain ⟨hs, hsettings⟩ := List.forall_mem_cons.mp h
    cases fuel with
    | zero => cases hfuel
    | succ fuel =>
      have hline := hs.line? (settings.flatMap line)
      have hne : s.line ++ settings.flatMap line ≠ [] := by simp [line_ne_nil]
      rw [List.flatMap_cons, lines?_of_line? hne hline,
        ih hsettings (Nat.le_of_succ_le_succ hfuel)]
      rfl

theorem length_le_length_flatMap (settings : List Setting) :
    settings.length ≤ (settings.flatMap line).length := by
  induction settings with
  | nil => exact Nat.le_refl 0
  | cons s settings ih =>
    have hpos := List.length_pos_iff.mpr s.line_ne_nil
    rw [List.flatMap_cons, List.length_append, List.length_cons]
    omega

theorem readAll?_settings {settings : List Setting} (h : ∀ s ∈ settings, s.Valid) :
    readAll? (settings.flatMap line) = some (settings.map statement) := by
  have hmark : ∀ cs, settings.flatMap line ≠ '\uFEFF' :: cs := by
    cases settings with
    | nil => simp
    | cons s settings =>
      obtain ⟨c, tail, hkey, hc⟩ := (h s List.mem_cons_self).bare.exists_cons
      rw [List.flatMap_cons, line_append, hkey]
      exact fun cs heq => ne_of_class hc (by decide) (List.cons.inj heq).1
  rw [readAll?]
  · exact lines?_settings h (length_le_length_flatMap settings)
  · exact hmark

/-! ## Tables -/

theorem add?_statement {root : Table} (h : root.lookup s.key = none) :
    Document.add? ⟨root, []⟩ s.statement = some ⟨root ++ [(s.key, s.value)], []⟩ := by
  simp [Document.add?, statement, Table.within, Table.setDotted, Table.addNew, h]

theorem foldlM_add? {settings : List Setting} (hnodup : (settings.map key).Nodup) (root : Table)
    (h : ∀ s ∈ settings, root.lookup s.key = none) :
    (settings.map statement).foldlM Document.add? ⟨root, []⟩ =
      some ⟨root ++ settings.map fun s => (s.key, s.value), []⟩ := by
  induction settings generalizing root with
  | nil => simp
  | cons s settings ih =>
    obtain ⟨hs, hsettings⟩ := List.forall_mem_cons.mp h
    obtain ⟨hfresh, hnodup⟩ := List.nodup_cons.mp hnodup
    have hnext : ∀ t ∈ settings, (root ++ [(s.key, s.value)]).lookup t.key = none := by
      intro t ht
      have hne : t.key ≠ s.key := fun heq => hfresh (heq ▸ List.mem_map_of_mem ht)
      simp [List.lookup_append, hsettings t ht, hne]
    simp [add?_statement hs, ih hnodup _ hnext]

theorem read?_settings {settings : List Setting} (h : ∀ s ∈ settings, s.Valid)
    (hnodup : (settings.map key).Nodup) :
    Document.read? (String.ofList (settings.flatMap line)) =
      some (settings.map fun s => (s.key, s.value)) := by
  have hfold := foldlM_add? hnodup [] (by simp)
  simp [Document.read?, readAll?_settings h, Document.empty, hfold]

end Setting
end ReferralForest.Toml
