import ReferralForest.Proofs.Evaluation
import ReferralForest.Store.Script

/-!
# Transactions as private copies

A write transaction of the store in memory cannot be told from operations taken one by
one on a private copy of the committed entries. Reads and the answers of deletions come
from the copy, a read from outside from what was committed. One write fails at most, the
one after those that were left; it leaves the copy alone and the next operation goes on.
In the end the copy takes the place of the committed entries or is dropped.
-/

namespace ReferralForest

def remaining (left : Option Nat) (written : Nat) : Option Nat :=
  left.bind fun n => if written ≤ n then some (n - written) else none

theorem remaining_zero (left : Option Nat) : remaining left 0 = left := by
  cases left <;> rfl

namespace Operation

def isWrite : Operation → Bool
  | put .. | delete _ => true
  | get _ | holds _ | outside _ => false

def writes (ops : List Operation) : Nat := ops.countP isWrite

theorem writes_cons (op : Operation) (ops : List Operation) :
    writes (op :: ops) = op.isWrite.toNat + writes ops := by
  rw [writes, List.countP_cons, Nat.add_comm]
  cases op.isWrite <;> rfl

def onCopy (committed : ByteMap Bytes) (fails : Bool) (copy : ByteMap Bytes) :
    Operation → Except StoreError Answer × ByteMap Bytes
  | put key value =>
    if fails then (.error (.backend .injected), copy) else (.ok .done, copy.insert key value)
  | delete key =>
    if fails then (.error (.backend .injected), copy)
    else (.ok (.flag (copy.get? key).isSome), copy.erase key)
  | get key => (.ok (.value (copy.get? key)), copy)
  | holds key => (.ok (.flag (copy.get? key).isSome), copy)
  | outside key => (.ok (.value (committed.get? key)), copy)

/-- All answers and the copy after them, when some writes came before and the write that
comes after `left` writes fails. -/
def allOnCopy (committed : ByteMap Bytes) (left : Option Nat) :
    (written : Nat) → (copy : ByteMap Bytes) → List Operation →
      List (Except StoreError Answer) × ByteMap Bytes
  | _, copy, [] => ([], copy)
  | written, copy, op :: ops =>
    let (answer, copy) := op.onCopy committed (left = some written) copy
    let (answers, copy) := allOnCopy committed left (written + op.isWrite.toNat) copy ops
    (answer :: answers, copy)

section Copy
variable {committed copy : ByteMap Bytes} {left : Option Nat} {written : Nat}

theorem onCopy_eq_error {fails : Bool} {op : Operation} {e : StoreError} :
    (op.onCopy committed fails copy).1 = .error e ↔
      e = .backend .injected ∧ op.isWrite ∧ fails := by
  cases op <;> cases fails <;> simp [onCopy, isWrite, eq_comm]

theorem length_allOnCopy (ops : List Operation) :
    (allOnCopy committed left written copy ops).1.length = ops.length := by
  induction ops generalizing written copy with
  | nil => rfl
  | cons op ops ih => simp only [allOnCopy, List.length_cons, ih]

theorem getElem?_allOnCopy_eq_error (ops : List Operation) (i : Nat) (e : StoreError) :
    (allOnCopy committed left written copy ops).1[i]? = some (.error e) ↔
      e = .backend .injected ∧ ∃ op, ops[i]? = some op ∧ op.isWrite ∧
        left = some (written + writes (ops.take i)) := by
  induction ops generalizing written copy i with
  | nil => simp [allOnCopy]
  | cons op ops ih =>
    cases i with
    | zero => simp [allOnCopy, onCopy_eq_error, writes]
    | succ i =>
      simp only [allOnCopy, List.getElem?_cons_succ, List.take_succ_cons, writes_cons, ih,
        Nat.add_assoc]

end Copy

theorem runAll_cons {S T : Type} [Transaction T] [Engine S T] {op : Operation} {t t' : T}
    {answer : Except StoreError Answer} (h : op.run S t = (answer, t')) (ops : List Operation) :
    runAll S (op :: ops) t = (answer :: (runAll S ops t').1, (runAll S ops t').2) := by
  rw [runAll, h]

end Operation

namespace MemoryStore

theorem spend_remaining (entries : ByteMap Bytes) (left : Option Nat) (written : Nat) :
    spend ⟨entries, remaining left written⟩ =
      (if left = some written then .error (.backend .injected) else .ok (),
        ⟨entries, remaining left (written + 1)⟩) := by
  cases left with
  | none => rfl
  | some n =>
    rcases Nat.lt_trichotomy written n with hlt | heq | hgt
    · obtain ⟨k, rfl⟩ : ∃ k, n = written + k + 1 := ⟨n - written - 1, by omega⟩
      have hnow : remaining (some (written + k + 1)) written = some (k + 1) := by
        simp [remaining, Nat.add_assoc]
      have hnext : remaining (some (written + k + 1)) (written + 1) = some k := by
        simp [remaining]
      rw [hnow, hnext, if_neg (by simp; omega)]
      rfl
    · -- this write is struck, and no other is after it
      subst heq
      have hnow : remaining (some written) written = some 0 := by simp [remaining]
      have hnext : remaining (some written) (written + 1) = none := by simp [remaining]
      rw [hnow, hnext, if_pos rfl]
      rfl
    · have hnow : remaining (some n) written = none := by simp [remaining, hgt]
      have hnext : remaining (some n) (written + 1) = none :=
        if_neg (Nat.not_le.mpr (Nat.lt_succ_of_lt hgt))
      rw [hnow, hnext, if_neg (by simp; omega)]
      rfl

end MemoryStore

namespace MemoryTxn

/-- A transaction on committed entries that reads from a copy after some writes. -/
structure Follows (committed : ByteMap Bytes) (left : Option Nat) (written : Nat)
    (copy : ByteMap Bytes) (t : MemoryTxn) : Prop where
  store : t.store = ⟨committed, remaining left written⟩
  view : t.view = copy

theorem follows_start (store : MemoryStore) :
    Follows store.entries store.writesLeft 0 store.entries ⟨store, .empty⟩ := by
  refine ⟨?_, store.view_start⟩
  rw [remaining_zero]

namespace Follows
variable {committed copy : ByteMap Bytes} {left : Option Nat} {written : Nat} {t : MemoryTxn}

theorem get (h : Follows committed left written copy t) (key : Bytes) :
    t.get key = copy.get? key := by
  rw [← get?_view, h.view]

theorem counted (h : Follows committed left written copy t) :
    Follows committed left (written + 1) copy
      { t with store := ⟨committed, remaining left (written + 1)⟩ } := by
  refine ⟨rfl, ?_⟩
  rw [← h.view, MemoryTxn.view, MemoryTxn.view, h.store]

theorem put (h : Follows committed left written copy t) (key value : Bytes) :
    ∃ t', t.put key value =
        (if left = some written then .error (.backend .injected) else .ok (), t') ∧
      Follows committed left (written + 1)
        (if left = some written then copy else copy.insert key value) t' := by
  have hspend := MemoryStore.spend_remaining committed left written
  rw [← h.store] at hspend
  rw [MemoryTxn.put, hspend]
  by_cases hstruck : left = some written
  · rw [if_pos hstruck, if_pos hstruck]
    exact ⟨_, rfl, h.counted⟩
  · rw [if_neg hstruck, if_neg hstruck]
    refine ⟨_, rfl, rfl, ?_⟩
    rw [← h.view]
    refine view_stage_some t _ ?_ key value
    rw [h.store]

theorem delete (h : Follows committed left written copy t) (key : Bytes) :
    ∃ t', t.delete key =
        (if left = some written then .error (.backend .injected)
          else .ok (copy.get? key).isSome, t') ∧
      Follows committed left (written + 1)
        (if left = some written then copy else copy.erase key) t' := by
  have hspend := MemoryStore.spend_remaining committed left written
  rw [← h.store] at hspend
  rw [MemoryTxn.delete, hspend, h.get]
  by_cases hstruck : left = some written
  · rw [if_pos hstruck, if_pos hstruck, if_pos hstruck]
    exact ⟨_, rfl, h.counted⟩
  · rw [if_neg hstruck, if_neg hstruck, if_neg hstruck]
    refine ⟨_, rfl, rfl, ?_⟩
    rw [← h.view]
    refine view_stage_none t _ ?_ key
    rw [h.store]

theorem outside (h : Follows committed left written copy t) (key : Bytes) :
    Transaction.get (Engine.start (Engine.abandon t : MemoryStore)) key =
      .ok (committed.get? key) := by
  have hshared : (Engine.abandon t : MemoryStore) = t.store := rfl
  have hread : (MemoryTxn.mk t.store .empty).get key = t.store.entries.get? key :=
    (follows_start t.store).get key
  rw [h.store] at hread hshared
  rw [hshared]
  exact congrArg Except.ok hread

theorem run (h : Follows committed left written copy t) (op : Operation) :
    let copied := op.onCopy committed (left = some written) copy
    ∃ t', op.run MemoryStore t = (copied.1, t') ∧
      Follows committed left (written + op.isWrite.toNat) copied.2 t' := by
  cases op with
  | put key value =>
    obtain ⟨t', hput, h'⟩ := h.put key value
    have hput : Transaction.put t key value = _ := hput
    refine ⟨t', ?_, ?_⟩
    · rw [Operation.run, hput, Operation.onCopy]
      by_cases hstruck : left = some written <;> simp [hstruck, Except.map]
    · simpa only [Operation.onCopy, Operation.isWrite, Bool.toNat_true, decide_eq_true_eq,
        apply_ite Prod.snd] using h'
  | delete key =>
    obtain ⟨t', hdelete, h'⟩ := h.delete key
    have hdelete : Transaction.delete t key = _ := hdelete
    refine ⟨t', ?_, ?_⟩
    · rw [Operation.run, hdelete, Operation.onCopy]
      by_cases hstruck : left = some written <;> simp [hstruck, Except.map]
    · simpa only [Operation.onCopy, Operation.isWrite, Bool.toNat_true, decide_eq_true_eq,
        apply_ite Prod.snd] using h'
  | get key =>
    have hget : Transaction.get t key = .ok (t.get key) := rfl
    refine ⟨t, ?_, h⟩
    rw [Operation.run, hget, h.get]
    rfl
  | holds key =>
    have hget : Transaction.get t key = .ok (t.get key) := rfl
    refine ⟨t, ?_, h⟩
    rw [Operation.run, hget, h.get]
    rfl
  | outside key =>
    refine ⟨t, ?_, h⟩
    rw [Operation.run, h.outside]
    rfl

theorem runAll (h : Follows committed left written copy t) (ops : List Operation) :
    let copied := Operation.allOnCopy committed left written copy ops
    ∃ t', Operation.runAll MemoryStore ops t = (copied.1, t') ∧
      Follows committed left (written + Operation.writes ops) copied.2 t' := by
  induction ops generalizing t written copy with
  | nil => exact ⟨t, rfl, h⟩
  | cons op ops ih =>
    obtain ⟨t₁, hrun, h₁⟩ := h.run op
    obtain ⟨t', hall, h'⟩ := ih h₁
    rw [Operation.runAll_cons hrun, hall, Operation.writes_cons, ← Nat.add_assoc]
    exact ⟨t', rfl, h'⟩

end Follows
end MemoryTxn

/-- A script answers as on a private copy, which is published or dropped in the end. -/
theorem MemoryStore.script_eq_allOnCopy (store : MemoryStore) (ops : List Operation)
    (commits : Bool) :
    let copied := Operation.allOnCopy store.entries store.writesLeft 0 store.entries ops
    Engine.script store ops commits = (copied.1,
      { entries := if commits then copied.2 else store.entries
        writesLeft := remaining store.writesLeft (Operation.writes ops) }) ∧
    copied.1.length = ops.length ∧
    ∀ i e, copied.1[i]? = some (.error e) ↔
      e = .backend .injected ∧ ∃ op, ops[i]? = some op ∧ op.isWrite ∧
        store.writesLeft = some (Operation.writes (ops.take i)) := by
  intro copied
  refine ⟨?_, Operation.length_allOnCopy ops, fun i e => ?_⟩
  · obtain ⟨t', hall, h⟩ := (MemoryTxn.follows_start store).runAll ops
    have hstart : Engine.start store = MemoryTxn.mk store .empty := rfl
    rw [Engine.script, hstart, hall]
    have hstore := h.store
    rw [Nat.zero_add] at hstore
    cases commits with
    | true =>
      have hcommit : Engine.commit t' = t'.commit := rfl
      simp only [if_true, hcommit, MemoryTxn.commit_eq, hstore, h.view, copied]
    | false =>
      have habandon : Engine.abandon t' = t'.store := rfl
      simp only [Bool.false_eq_true, if_false, habandon, hstore, copied]
  · refine (Operation.getElem?_allOnCopy_eq_error ops i e).trans ?_
    rw [Nat.zero_add]

example :
    ((Engine.script (MemoryStore.mk .empty (some 1))
      [.put [1] [7], .delete [1], .get [1], .delete [1], .get [1], .outside [1]] true).1.map
        Except.toOption) =
    [some .done, none, some (.value (some [7])), some (.flag true), some (.value none),
      some (.value none)] := by
  decide +kernel

end ReferralForest
