import ReferralForest.Proofs.Footprint

/-!
# Commands

The calls that change a forest are commands, each a program in a transaction of its
own with an outcome that says whether anything was kept. Without a failure that
strikes, a command does to the committed entries what its program does to a map.
-/

namespace ReferralForest

inductive Command
  | insert (r : Referral)
  | remove (r : Referral)
  | credit (kind : AddressType) (start : Address) (change : Int64)
  | offer (seed : CodeHash) (address : Address)
  | push (key : WeightedKey) (address : Address)
  | pop

inductive Outcome
  | done
  | admission (a : Admission)
  | pushed (room : Bool)
  | popped (ticket : Option Ticket)
  deriving DecidableEq

namespace Outcome

/-- A refusal is no error, but nothing was done. -/
def isRefusal : Outcome → Bool
  | admission .noNetValue | admission .ineligible | admission .discarded => true
  | pushed false | popped none => true
  | _ => false

def commits (a : Outcome) : Bool := !a.isRefusal

end Outcome

namespace Tx
variable {T α β : Type} [Transaction T]

theorem run_bind_pure (p : Tx α) (g : α → β) (t : T) :
    (p >>= fun a => pure (g a)).run t = ((p.run t).1.map g, (p.run t).2) := by
  induction p generalizing t with
  | done a => rfl
  | fail e => rfl
  | get k next ih =>
    show (Tx.get k fun v => next v >>= fun a => pure (g a)).run t = _
    rw [run, run]
    cases Transaction.get t k with
    | ok v => exact ih v t
    | error e => rfl
  | put k v next ih =>
    show (Tx.put k v (next >>= fun a => pure (g a))).run t = _
    rw [run, run]
    rcases Transaction.put t k v with ⟨answer, t'⟩
    cases answer with
    | ok u => exact ih t'
    | error e => rfl
  | delete k next ih =>
    show (Tx.delete k fun existed => next existed >>= fun a => pure (g a)).run t = _
    rw [run, run]
    rcases Transaction.delete t k with ⟨answer, t'⟩
    cases answer with
    | ok existed => exact ih existed t'
    | error e => rfl

end Tx

theorem Engine.transact_bind_pure {S T α β : Type} [Transaction T] [Engine S T] (store : S)
    (p : Tx α) (g : α → β) (commits : β → Bool) :
    Engine.transact store (p >>= fun a => pure (g a)) commits =
      ((Engine.transact store p (commits ∘ g)).1.map g,
        (Engine.transact store p (commits ∘ g)).2) := by
  rw [Engine.transact, Engine.transact, Tx.run_bind_pure]
  rcases p.run (Engine.start store) with ⟨answer, t⟩
  cases answer <;> rfl

theorem Forest.transact_unarmed {α : Type} {f : Forest MemoryStore} (h : f.store.writesLeft = none)
    (program : Tx α) (commits : α → Bool) :
    f.transact program commits = ((program.eval f.store.entries).1, { f with store :=
      { f.store with
        entries :=
          MemoryStore.publish commits f.store.entries (program.eval f.store.entries) } }) := by
  rw [transact, MemoryStore.transact_of_allows f.store program commits
    (MemoryStore.allows_unarmed h _), MemoryStore.after_unarmed h]

namespace Command

section Engine
variable {S T : Type} [Transaction T] [Engine S T]

def run (f : Forest S) : Command → Except StoreError Outcome × Forest S
  | insert r => ((f.insert r).1.map fun _ => .done, (f.insert r).2)
  | remove r => ((f.remove r).1.map fun _ => .done, (f.remove r).2)
  | credit kind start change =>
    ((f.credit kind start change).1.map fun _ => .done, (f.credit kind start change).2)
  | offer seed address => ((f.offer seed address).1.map .admission, (f.offer seed address).2)
  | push key address => ((f.push key address).1.map .pushed, (f.push key address).2)
  | pop => (f.pop.1.map .popped, f.pop.2)

def program (levels capacity : Nat) : Command → Tx Outcome
  | insert r => Tx.invite r >>= fun _ => pure .done
  | remove r => Tx.withdraw r >>= fun _ => pure .done
  | credit kind start change => Tx.credit levels kind start change >>= fun _ => pure .done
  | offer seed address => Tx.offer capacity seed address >>= fun a => pure (.admission a)
  | push key address => Tx.heapPush capacity ⟨key, address⟩ >>= fun b => pure (.pushed b)
  | pop => Tx.heapPop >>= fun t => pure (.popped t)

/-- Every command is its program in one transaction, kept unless it is refused. -/
theorem run_eq_transact (f : Forest S) (c : Command) :
    c.run f = f.transact (c.program f.maxLevels f.capacity) Outcome.commits := by
  have hadmission : Outcome.commits ∘ Outcome.admission = Admission.admitted := by
    funext a
    cases a <;> rfl
  have hpushed : Outcome.commits ∘ Outcome.pushed = id := by
    funext b
    cases b <;> rfl
  have hpopped : Outcome.commits ∘ Outcome.popped = Option.isSome := by
    funext t
    cases t <;> rfl
  cases c with
  | insert r => simp only [Forest.transact, program, Engine.transact_bind_pure]; rfl
  | remove r => simp only [Forest.transact, program, Engine.transact_bind_pure]; rfl
  | credit kind start change =>
    simp only [Forest.transact, program, Engine.transact_bind_pure]; rfl
  | offer seed address =>
    simp only [Forest.transact, program, Engine.transact_bind_pure, hadmission]; rfl
  | push key address =>
    simp only [Forest.transact, program, Engine.transact_bind_pure, hpushed]; rfl
  | pop => simp only [Forest.transact, program, Engine.transact_bind_pure, hpopped]; rfl

end Engine

def writes (f : Forest MemoryStore) (c : Command) : Nat :=
  (c.program f.maxLevels f.capacity).writes f.store.entries

def eval (f : Forest MemoryStore) (c : Command) : Except StoreError Outcome × ByteMap Bytes :=
  (c.program f.maxLevels f.capacity).eval f.store.entries

variable {f : Forest MemoryStore} {c : Command}

theorem run_of_allows (h : f.store.Allows (c.writes f)) :
    c.run f = ((c.eval f).1, { f with store := { f.store.after (c.writes f) with
      entries := MemoryStore.publish Outcome.commits f.store.entries (c.eval f) } }) := by
  have htransact := MemoryStore.transact_of_allows f.store
    (c.program f.maxLevels f.capacity) Outcome.commits h
  rw [run_eq_transact, Forest.transact, htransact]
  rfl

theorem run_unarmed (h : f.store.writesLeft = none) :
    c.run f = ((c.eval f).1, { f with store := { f.store with
      entries := MemoryStore.publish Outcome.commits f.store.entries (c.eval f) } }) := by
  rw [run_eq_transact, Forest.transact_unarmed h]
  rfl

theorem run_of_exceeds {n : Nat} (hleft : f.store.writesLeft = some n) (h : n < c.writes f) :
    c.run f = (.error (.backend .injected), { f with store := f.store.clearFailure }) := by
  have htransact := MemoryStore.transact_of_exceeds f.store
    (c.program f.maxLevels f.capacity) Outcome.commits hleft h
  rw [run_eq_transact, Forest.transact, htransact]

theorem limits_run (f : Forest MemoryStore) (c : Command) :
    (c.run f).2.maxLevels = f.maxLevels ∧ (c.run f).2.capacity = f.capacity := by
  rw [run_eq_transact]
  exact ⟨rfl, rfl⟩

theorem run_eq_ok {a : Outcome} (h : (c.run f).1 = .ok a) :
    ∃ m, c.eval f = (.ok a, m) ∧
      (c.run f).2.store.entries = if a.commits then m else f.store.entries := by
  rw [run_eq_transact] at h ⊢
  exact MemoryStore.transact_eq_ok h

theorem run_eq_done {p : Tx Unit} {a : Outcome}
    (hprogram : c.program f.maxLevels f.capacity = p >>= fun _ => pure .done)
    (h : (c.run f).1 = .ok a) :
    a = .done ∧ p.eval f.store.entries = (.ok (), (c.run f).2.store.entries) := by
  obtain ⟨m, heval, hentries⟩ := run_eq_ok h
  rw [eval, hprogram] at heval
  obtain ⟨u, hp, rfl⟩ := Tx.eval_bind_pure_eq_ok heval
  rw [hentries]
  exact ⟨rfl, hp⟩

theorem run_eq_error {e : StoreError} (h : (c.run f).1 = .error e) :
    (c.run f).2.store.entries = f.store.entries := by
  rw [run_eq_transact] at h ⊢
  exact MemoryStore.transact_eq_error h

end Command
end ReferralForest
