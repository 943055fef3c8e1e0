import ReferralForest.Proofs.Command

/-!
# Calls keep all of their writes or none

A failure that is armed for a later write than a command makes is not noticed, only
counted down. One that is armed for a write of the command takes back everything the
command did, and is gone, so that the command can be repeated. Errors of any other
kind and refusals leave the entries alone too.
-/

namespace ReferralForest.Command

variable {f : Forest MemoryStore} {c : Command}

def Refused (answer : Except StoreError Outcome) : Prop :=
  (∃ e, answer = .error e) ∨ ∃ a, answer = .ok a ∧ a.isRefusal = true

theorem entries_of_refused (h : Refused (c.run f).1) :
    (c.run f).2.store.entries = f.store.entries := by
  rcases h with ⟨e, he⟩ | ⟨a, ha, hrefusal⟩
  · exact run_eq_error he
  · obtain ⟨m, -, hentries⟩ := run_eq_ok ha
    rw [hentries, Outcome.commits, hrefusal]
    rfl

/-- An armed failure within a command's writes undoes the command and is spent; one
beyond them is counted down. -/
theorem armed_run (c : Command) (entries : ByteMap Bytes) (levels capacity n : Nat) :
    let idle : Forest MemoryStore := ⟨⟨entries, none⟩, levels, capacity⟩
    let armed : Forest MemoryStore := { idle with store := idle.store.failAfter n }
    (c.writes idle ≤ n →
      (c.run armed).1 = (c.run idle).1 ∧
      (c.run armed).2.store.entries = (c.run idle).2.store.entries ∧
      (c.run armed).2.store.writesLeft = some (n - c.writes idle)) ∧
    (n < c.writes idle →
      (c.run armed).1 = .error (.backend .injected) ∧
      StoreError.isFatal (.backend .injected) = false ∧
      BackendFault.message .injected = "injected write failure" ∧
      (c.run armed).2 = idle ∧
      c.run (c.run armed).2 = c.run idle) ∧
    (Refused (c.run idle).1 → (c.run idle).2.store.entries = entries) ∧
    (Refused (c.run armed).1 → (c.run armed).2.store.entries = entries) := by
  intro idle armed
  have hidle : c.run idle = ((c.eval idle).1, { idle with store :=
      { idle.store with entries := MemoryStore.publish Outcome.commits entries (c.eval idle) } }) :=
    run_unarmed rfl
  refine ⟨fun h => ?_, fun h => ?_, entries_of_refused, entries_of_refused⟩
  · have hallows : armed.store.Allows (c.writes armed) := by
      intro k hk
      cases hk
      exact h
    rw [run_of_allows hallows, hidle]
    exact ⟨rfl, rfl, rfl⟩
  · have harmed : c.run armed = (.error (.backend .injected), idle) :=
      run_of_exceeds rfl h
    rw [harmed]
    exact ⟨rfl, rfl, rfl, rfl, rfl⟩

end ReferralForest.Command
