import ReferralForest.Proofs.HeapInvariant
import ReferralForest.Proofs.Indexes

/-!
# Calls that do not meet

A program that keeps to a set of keys is blind to all others: on two maps that agree on
the set it gives one answer and leaves them in agreement, and it leaves the other keys as
they are. So two programs that keep to disjoint sets can run in either order. The tree,
the net values and the lottery lie under different tags, and beside its own a credit reads
under the tag of parents only and an offer under that of net values.
-/

namespace ReferralForest

def AgreeOn (K : Bytes → Prop) (m m' : ByteMap Bytes) : Prop :=
  ∀ key, K key → m'.get? key = m.get? key

theorem AgreeOn.insert {K : Bytes → Prop} {m m' : ByteMap Bytes} (h : AgreeOn K m m')
    (k v : Bytes) : AgreeOn K (m.insert k v) (m'.insert k v) := by
  intro key hkey
  rw [ByteMap.get?_insert, ByteMap.get?_insert, h key hkey]

theorem AgreeOn.erase {K : Bytes → Prop} {m m' : ByteMap Bytes} (h : AgreeOn K m m')
    (k : Bytes) : AgreeOn K (m.erase k) (m'.erase k) := by
  intro key hkey
  rw [ByteMap.get?_erase, ByteMap.get?_erase, h key hkey]

namespace Tx
variable {α β : Type} {K L : Bytes → Prop}

abbrev Within (K : Bytes → Prop) (p : Tx α) : Prop := p.Uses K fun k _ => K k

theorem eval_agreeOn {p : Tx α} (hp : p.Within K) {m m' : ByteMap Bytes} (h : AgreeOn K m m') :
    (p.eval m').1 = (p.eval m).1 ∧ AgreeOn K (p.eval m).2 (p.eval m').2 := by
  induction p generalizing m m' with
  | done a => exact ⟨rfl, h⟩
  | fail e => exact ⟨rfl, h⟩
  | get k next ih =>
    rw [eval, eval, h k hp.1]
    exact ih _ (hp.2 _) h
  | put k v next ih => exact ih hp.2 (h.insert k v)
  | delete k next ih =>
    rw [eval, eval, h k hp.1]
    exact ih _ (hp.2 _) (h.erase k)

def kept (commits : α → Bool) (p : Tx α) (m : ByteMap Bytes) : ByteMap Bytes :=
  MemoryStore.publish commits m (p.eval m)

theorem kept_agreeOn (commits : α → Bool) {p : Tx α} (hp : p.Within K) {m m' : ByteMap Bytes}
    (h : AgreeOn K m m') : AgreeOn K (p.kept commits m) (p.kept commits m') := by
  obtain ⟨hanswer, hmap⟩ := eval_agreeOn hp h
  rw [kept, kept]
  generalize p.eval m = r at hanswer hmap
  generalize p.eval m' = r' at hanswer hmap
  obtain ⟨answer, after⟩ := r
  obtain ⟨answer', after'⟩ := r'
  obtain rfl : answer' = answer := hanswer
  cases answer' with
  | error e => exact h
  | ok a =>
    by_cases hcommits : commits a = true
    · simpa only [MemoryStore.publish, if_pos hcommits] using hmap
    · simpa only [MemoryStore.publish, if_neg hcommits] using h

theorem get?_kept_of_not (commits : α → Bool) {p : Tx α} (hp : p.Within K) (m : ByteMap Bytes)
    {key : Bytes} (hkey : ¬K key) : (p.kept commits m).get? key = m.get? key := by
  have hsame := get?_eval_of_not hp.confined m fun _ => hkey
  rw [kept]
  generalize p.eval m = r at hsame
  obtain ⟨answer, after⟩ := r
  cases answer with
  | error e => rfl
  | ok a =>
    rw [MemoryStore.publish]
    split
    · exact hsame
    · rfl

section Disjoint
variable {p : Tx α} {q : Tx β} (hp : p.Within K) (hq : q.Within L) (hKL : ∀ key, K key → ¬L key)
include hp hq hKL

/-- A program answers the same after another one that keeps to other keys. -/
theorem eval_kept (commits : α → Bool) (m : ByteMap Bytes) :
    (q.eval (p.kept commits m)).1 = (q.eval m).1 :=
  (eval_agreeOn hq fun _ hL => get?_kept_of_not commits hp m fun hK => hKL _ hK hL).1

theorem kept_comm (commits : α → Bool) (commits' : β → Bool) (m : ByteMap Bytes) :
    q.kept commits' (p.kept commits m) = p.kept commits (q.kept commits' m) := by
  have hafterp : AgreeOn L m (p.kept commits m) :=
    fun _ hL => get?_kept_of_not commits hp m fun hK => hKL _ hK hL
  have hafterq : AgreeOn K m (q.kept commits' m) :=
    fun _ hK => get?_kept_of_not commits' hq m (hKL _ hK)
  apply ByteMap.ext_get?
  intro key
  by_cases hK : K key
  · rw [get?_kept_of_not commits' hq _ (hKL key hK), kept_agreeOn commits hp hafterq key hK]
  · rw [get?_kept_of_not commits hp _ hK]
    by_cases hL : L key
    · rw [kept_agreeOn commits' hq hafterp key hL]
    · rw [get?_kept_of_not commits' hq _ hL, get?_kept_of_not commits' hq _ hL,
        get?_kept_of_not commits hp _ hK]

end Disjoint
end Tx

namespace Command

def tags : Command → List UInt8
  | insert _ | remove _ => [Key.referralTag, Key.parentTag, Key.childrenTag]
  | credit .. => [Key.netValueTag, Key.parentTag]
  | offer .. => [Key.sizeTag, Key.slotTag, Key.netValueTag]
  | push .. | pop => [Key.sizeTag, Key.slotTag]

def Area (c : Command) (key : Bytes) : Prop := ∃ tag ∈ c.tags, key.head? = some tag

theorem within_program (levels capacity : Nat) (c : Command) :
    (c.program levels capacity).Within c.Area := by
  refine (c.uses_program levels capacity).mono (fun key hread => ?_) fun key value hwrite => ?_
  · cases c with
    | insert | remove => cases hread <;> exact ⟨_, by simp [tags, Key.Subject.tag], rfl⟩
    | credit => cases hread <;> exact ⟨_, by simp [tags, Key.Subject.tag], rfl⟩
    | offer =>
      rcases hread with hheap | rfl
      · cases hheap <;> exact ⟨_, by simp [tags], rfl⟩
      · exact ⟨_, by simp [tags, Key.Subject.tag], rfl⟩
    | push | pop => cases hread <;> exact ⟨_, by simp [tags], rfl⟩
  · cases c with
    | insert | remove => cases hwrite <;> exact ⟨_, by simp [tags, Key.Subject.tag], rfl⟩
    | credit => cases hwrite; exact ⟨_, by simp [tags, Key.Subject.tag], rfl⟩
    | offer | push | pop => cases hwrite <;> exact ⟨_, by simp [tags], rfl⟩

/-- A call to the tree and one to the lottery, or a credit and a push or a pop. -/
inductive Apart : Command → Command → Prop
  | tree {c d : Command} (hc : c.isTree = true) (hd : d.isLottery = true) : Apart c d
  | push (kind : AddressType) (start : Address) (change : Int64) (key : WeightedKey)
      (address : Address) : Apart (.credit kind start change) (.push key address)
  | pop (kind : AddressType) (start : Address) (change : Int64) :
      Apart (.credit kind start change) .pop

theorem Apart.area {c d : Command} (h : Apart c d) (key : Bytes) (hc : c.Area key) :
    ¬d.Area key := by
  have htags : ∀ tag ∈ c.tags, tag ∉ d.tags := by
    cases h with
    | tree hc hd =>
      cases c <;> cases hc <;> cases d <;> cases hd <;>
        simp only [tags, List.forall_mem_cons, List.not_mem_nil, false_imp_iff, implies_true,
          and_true] <;> decide
    | push | pop =>
      simp only [tags, List.forall_mem_cons, List.not_mem_nil, false_imp_iff, implies_true,
        and_true]
      decide
  obtain ⟨tag, htag, hkey⟩ := hc
  rintro ⟨tag', htag', hkey'⟩
  cases hkey.symm.trans hkey'
  exact htags tag htag htag'

variable {f : Forest MemoryStore} {c d : Command}

theorem run_eq_kept (hunarmed : f.store.writesLeft = none) (c : Command) :
    let p := c.program f.maxLevels f.capacity
    c.run f = ((p.eval f.store.entries).1, { f with
      store := { f.store with entries := p.kept Outcome.commits f.store.entries } }) :=
  run_unarmed hunarmed

theorem writesLeft_run (hunarmed : f.store.writesLeft = none) (c : Command) :
    (c.run f).2.store.writesLeft = none := by
  rw [run_eq_kept hunarmed]
  exact hunarmed

/-- Calls that are apart answer the same in either order and leave the same forest. -/
theorem run_comm (hunarmed : f.store.writesLeft = none) (h : Apart c d) :
    (d.run (c.run f).2).1 = (d.run f).1 ∧ (c.run (d.run f).2).1 = (c.run f).1 ∧
      (d.run (c.run f).2).2 = (c.run (d.run f).2).2 := by
  have hc := c.within_program f.maxLevels f.capacity
  have hd := d.within_program f.maxLevels f.capacity
  rw [run_eq_kept (writesLeft_run hunarmed c), run_eq_kept (writesLeft_run hunarmed d),
    run_eq_kept hunarmed c, run_eq_kept hunarmed d]
  refine ⟨Tx.eval_kept hc hd h.area _ _, ?_, ?_⟩
  · exact Tx.eval_kept hd hc (fun key hL hK => h.area key hK hL) _ _
  · have hcomm := Tx.kept_comm hc hd h.area Outcome.commits Outcome.commits f.store.entries
    simp only [hcomm]

/-- A damaged heap: its size says two, and of its slots only the second is there. -/
def halfHeap : Forest MemoryStore where
  store := {
    entries := (ByteMap.empty.insert Key.heapSize (HeapSize.toBytes 2)).insert (Key.slot 1) [0] }

theorem run_comm_halfHeap :
    let c : Command := .remove ⟨.filled 1, .filled 2, .filled 3, .wallet⟩
    halfHeap.store.writesLeft = none ∧ Apart c .pop ∧
      (pop.run halfHeap).1 = .error (.invariant (.missingSlot 0 2)) ∧
      (pop.run (c.run halfHeap).2).1 = .error (.invariant (.missingSlot 0 2)) ∧
      (c.run (pop.run halfHeap).2).1 = .ok .done ∧
      (pop.run (c.run halfHeap).2).2 = (c.run (pop.run halfHeap).2).2 := by
  intro c
  have hapart : Apart c .pop := .tree rfl rfl
  obtain ⟨hpop, hremove, hsame⟩ := run_comm (f := halfHeap) rfl hapart
  have hfails : (pop.run halfHeap).1 = .error (.invariant (.missingSlot 0 2)) := rfl
  have hdone : (c.run halfHeap).1 = .ok .done := rfl
  exact ⟨rfl, hapart, hfails, hpop.trans hfails, hremove.trans hdone, hsame⟩

end Command
end ReferralForest
