import ReferralForest.Proofs.TomlSettings
import ReferralForest.StoreConfig

/-!
# Configurations read back

What is written for a configuration is read back as that configuration, whatever characters
its name has. Exactly the configurations with a size below `2^63` and no name with 256 quotes
of one kind in a row can be written.
-/

namespace ReferralForest.StoreConfig
open Toml

variable {c : StoreConfig} {text : String}

def settings (c : StoreConfig) : List Setting := [
  ⟨"cache_size", Nat.toDigits 10 c.cacheSize, .scalar (.integer c.cacheSize)⟩,
  ⟨"memory_only", (flagText c.memoryOnly).toList, .scalar (.boolean c.memoryOnly)⟩,
  ⟨"wipe", (flagText c.wipe).toList, .scalar (.boolean c.wipe)⟩,
  ⟨"name", (Text.Form.of c.name.toList).write c.name.toList, .string c.name⟩]

theorem writes_size (h : c.cacheSize < 2 ^ 63) :
    Statement.Writes (Nat.toDigits 10 c.cacheSize) (.scalar (.integer c.cacheSize)) := by
  refine Statement.writes_scalar Nat.toDigits_ne_nil (fun d hd => ?_) (Scalar.read?_toDigits h)
  simp [Scalar.isWordChar, Char.isAlphanum, Scalar.isDigit_of_mem_toDigits hd]

theorem writes_flag (b : Bool) :
    Statement.Writes (flagText b).toList (.scalar (.boolean b)) := by
  cases b with
  | true =>
    exact Statement.writes_scalar (by decide) (List.all_eq_true.mp (by decide)) Scalar.read?_true
  | false =>
    exact Statement.writes_scalar (by decide) (List.all_eq_true.mp (by decide)) Scalar.read?_false

theorem settings_valid (h : c.cacheSize < 2 ^ 63) : ∀ s ∈ c.settings, s.Valid := by
  have hname := Statement.writes_text c.name.toList
  rw [String.ofList_toList] at hname
  have hbare : ∀ key ∈ ["cache_size", "memory_only", "wipe", "name"],
      Statement.Bare key.toList := by decide
  simp only [List.forall_mem_cons] at hbare
  obtain ⟨hbareSize, hbareMemory, hbareWipe, hbareName, -⟩ := hbare
  simp only [settings, List.forall_mem_cons]
  exact ⟨⟨hbareSize, writes_size h⟩, ⟨hbareMemory, writes_flag _⟩, ⟨hbareWipe, writes_flag _⟩,
    ⟨hbareName, hname⟩, List.forall_mem_nil _⟩

theorem ofTable?_settings (c : StoreConfig) :
    ofTable? (c.settings.map fun s => (s.key, s.value)) = some c := by
  simp [settings, ofTable?, size?, flag?, text?, List.lookup_cons]

theorem lines_text (c : StoreConfig) :
    "cache_size = " ++ String.ofList (Nat.toDigits 10 c.cacheSize) ++
      "\nmemory_only = " ++ flagText c.memoryOnly ++
      "\nwipe = " ++ flagText c.wipe ++
      "\nname = " ++ String.ofList ((Text.Form.of c.name.toList).write c.name.toList) ++ "\n" =
        String.ofList (c.settings.flatMap Setting.line) := by
  apply String.toList_inj.mp
  simp [settings, Setting.line]

theorem toToml?_eq (c : StoreConfig) : c.toToml? =
    if c.cacheSize < 2 ^ 63 ∧ Text.isWritable c.name.toList = true then
      some (String.ofList (c.settings.flatMap Setting.line)) else none := by
  have hpow : Numeric.twoPow 63 = 2 ^ 63 := rfl
  rw [toToml?, Text.write?, hpow]
  by_cases hname : Text.isWritable c.name.toList = true
  · rw [if_pos hname, Option.bind_eq_bind, Option.bind_some, lines_text]
    simp only [hname, and_true]
  · rw [if_neg hname, if_neg fun h => hname h.2]
    rfl

theorem ofToml?_lines (h : c.cacheSize < 2 ^ 63) :
    ofToml? (String.ofList (c.settings.flatMap Setting.line)) = some c := by
  have hkeys : (c.settings.map Setting.key).Nodup := by
    simp only [settings, List.map_cons, List.map_nil]
    decide
  rw [ofToml?, Setting.read?_settings (settings_valid h) hkeys]
  exact ofTable?_settings c

/-- A configuration is written and read back as itself exactly if its size is below `2^63` and
its name has no 256 quotes of one kind in a row. -/
theorem toToml?_readsBack_iff (c : StoreConfig) :
    (∃ text, c.toToml? = some text ∧ ofToml? text = some c) ↔
      c.cacheSize < 2 ^ 63 ∧
        ∀ quote ∈ ['"', '\''], ¬List.replicate 256 quote <:+: c.name.toList := by
  rw [toToml?_eq, ← Text.isWritable_iff]
  constructor
  · rintro ⟨text, htext, -⟩
    exact (Option.ite_none_right_eq_some.mp htext).1
  · intro h
    exact ⟨_, if_pos h, ofToml?_lines h.1⟩

theorem toToml?_readsBack_mixed :
    let c : StoreConfig := ⟨9223372036854775807, true, false, "\n\x27\x27\x27\"\"\"\\\r\t\x7fé"⟩
    (c.cacheSize < 2 ^ 63 ∧ ∀ quote ∈ ['"', '\''], ¬List.replicate 256 quote <:+: c.name.toList) ∧
      ∃ text, c.toToml? = some text ∧ ofToml? text = some c := by
  intro c
  have hname : ∀ quote ∈ ['"', '\''], ¬List.replicate 256 quote <:+: c.name.toList := by
    rw [← Text.isWritable_iff]
    decide
  exact ⟨⟨by decide, hname⟩, (toToml?_readsBack_iff c).mpr ⟨by decide, hname⟩⟩

theorem not_readsBack_quotes :
    let c : StoreConfig := { name := String.ofList (List.replicate 256 '\'') }
    c.cacheSize ≤ 2 ^ 63 - 1 ∧ ¬∃ text, c.toToml? = some text ∧ ofToml? text = some c := by
  intro c
  have hname : Text.isWritable c.name.toList = false := by
    rw [String.toList_ofList]
    decide +kernel
  have hnone : c.toToml? = none := by
    rw [toToml?_eq, hname]
    exact if_neg fun h => Bool.false_ne_true h.2
  refine ⟨by decide, ?_⟩
  rintro ⟨text, htext, -⟩
  rw [hnone] at htext
  cases htext

end ReferralForest.StoreConfig
