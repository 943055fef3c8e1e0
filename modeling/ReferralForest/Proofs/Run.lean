import ReferralForest.Proofs.Command

/-!
# Runs

A run is a list of steps on the store in memory: commands, and between them changes
of the limits and of the writes that are left before one fails. The capacity is a
word of 64 bits. The history of a run keeps each step with the forest that it found
and the answer that it got.
-/

namespace ReferralForest

inductive Step
  | call (c : Command)
  | failAfter (writes : Nat)
  | clearFailure
  | limit (levels : Nat) (capacity : UInt64)

def Step.run (f : Forest MemoryStore) : Step → Except StoreError Outcome × Forest MemoryStore
  | call c => c.run f
  | failAfter writes => (.ok .done, { f with store := f.store.failAfter writes })
  | clearFailure => (.ok .done, { f with store := f.store.clearFailure })
  | limit levels capacity => (.ok .done, { f with maxLevels := levels, capacity := capacity.toNat })

def Step.isInsert : Step → Bool
  | call (.insert _) => true
  | _ => false

def Step.inserts (steps : List Step) : Nat := steps.countP isInsert

theorem Step.inserts_cons (s : Step) (steps : List Step) :
    inserts (s :: steps) = s.isInsert.toNat + inserts steps := by
  rw [inserts, List.countP_cons, Nat.add_comm]
  cases s.isInsert <;> rfl

structure Event where
  before : Forest MemoryStore
  step : Step
  answer : Except StoreError Outcome

namespace Forest

def initial : Forest MemoryStore := { store := {} }

def after (f : Forest MemoryStore) : List Step → Forest MemoryStore
  | [] => f
  | s :: rest => (s.run f).2.after rest

def history (f : Forest MemoryStore) : List Step → List Event
  | [] => []
  | s :: rest => ⟨f, s, (s.run f).1⟩ :: (s.run f).2.history rest

theorem after_of_step {P : Forest MemoryStore → Prop}
    (hstep : ∀ (f : Forest MemoryStore) (s : Step), P f → P (s.run f).2)
    {f : Forest MemoryStore} (h : P f) (steps : List Step) : P (f.after steps) := by
  induction steps generalizing f with
  | nil => exact h
  | cons s rest ih => exact ih (hstep f s h)

end Forest

def FixedBytes.filled {width : Nat} (byte : UInt8) : FixedBytes width :=
  ⟨List.replicate width byte, List.length_replicate⟩

namespace Step

theorem entries_run (f : Forest MemoryStore) (s : Step) :
    (s.run f).2.store.entries = f.store.entries ∨
      ∃ c a, s = .call c ∧ c.eval f = (.ok a, (s.run f).2.store.entries) ∧ a.commits = true := by
  cases s with
  | call c =>
    cases hanswer : (c.run f).1 with
    | error e => exact .inl (Command.run_eq_error hanswer)
    | ok a =>
      obtain ⟨m, heval, hentries⟩ := Command.run_eq_ok hanswer
      by_cases hcommits : a.commits = true
      · rw [if_pos hcommits] at hentries
        have hrun : ((call c).run f).2.store.entries = m := hentries
        exact .inr ⟨c, a, rfl, by rw [hrun, heval], hcommits⟩
      · rw [if_neg hcommits] at hentries
        exact .inl hentries
  | failAfter writes => exact .inl rfl
  | clearFailure => exact .inl rfl
  | limit levels capacity => exact .inl rfl

/-- What commands keep of the entries is kept by every step. -/
theorem entries_run_of_eval {P : ByteMap Bytes → Prop} {f : Forest MemoryStore} {s : Step}
    (h : P f.store.entries) (hcall : ∀ c, s = .call c → P (c.eval f).2) :
    P (s.run f).2.store.entries := by
  rcases s.entries_run f with hsame | ⟨c, a, hs, heval, -⟩
  · rw [hsame]
    exact h
  · have hm := hcall c hs
    rw [heval] at hm
    exact hm

theorem capacity_run {f : Forest MemoryStore} (h : f.capacity < UInt64.size) (s : Step) :
    (s.run f).2.capacity < UInt64.size := by
  cases s with
  | call c =>
    have hsame : ((call c).run f).2.capacity = f.capacity := (Command.limits_run f c).2
    rw [hsame]
    exact h
  | failAfter writes => exact h
  | clearFailure => exact h
  | limit levels capacity => exact capacity.toNat_lt

end Step

namespace Command

def Reads : Command → Bytes → Prop
  | insert _ | remove _ => Key.OfTree
  | credit .. => Key.OfCredit
  | offer _ address => fun k => Key.OfHeap k ∨ k = Key.netValue address
  | push .. | pop => Key.OfHeap

theorem uses_program (levels capacity : Nat) (c : Command) :
    (c.program levels capacity).Uses c.Reads fun k v =>
      match c with
      | insert _ | remove _ => TreeWrite k v
      | credit .. => NetValueWrite k v
      | offer .. | push .. | pop => LotteryWrite k v := by
  cases c with
  | insert r => exact Tx.uses_bind (Tx.uses_invite r) fun _ => trivial
  | remove r => exact Tx.uses_bind (Tx.uses_withdraw r) fun _ => trivial
  | credit kind start change =>
    exact Tx.uses_bind (Tx.uses_creditFrom _ _ _ _ _ _) fun _ => trivial
  | offer seed address => exact Tx.uses_bind (Tx.uses_offer capacity seed address) fun _ => trivial
  | push key address => exact Tx.uses_bind (Tx.uses_heapPush capacity _) fun _ => trivial
  | pop => exact Tx.uses_bind Tx.uses_heapPop fun _ => trivial

theorem confined_program (levels capacity : Nat) (c : Command) :
    (c.program levels capacity).Confined fun k v =>
      match c with
      | insert _ | remove _ => TreeWrite k v
      | credit .. => NetValueWrite k v
      | offer .. | push .. | pop => LotteryWrite k v :=
  (c.uses_program levels capacity).confined

end Command

end ReferralForest
