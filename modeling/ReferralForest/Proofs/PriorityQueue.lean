import Mathlib.Data.Multiset.ZeroCons
import ReferralForest.Proofs.HeapInvariant

/-!
# The lottery heap as a priority queue

Whatever else a store contains, its heap behaves as a bounded queue of tickets in which
the smallest key goes first. A push adds its ticket while there is room, a pop takes a
smallest ticket away, both leave a heap of the tickets that are left, and nothing outside
the heap changes. So popping until nothing is left lists all tickets in ascending order.
Only a heap of more than `2^63 + 1` tickets may have no positions for a pop to sink to.
-/

namespace ReferralForest
open Heap
open Tx (firstChildless)

namespace Forest

structure Queue (f : Forest MemoryStore) (l : List Ticket) : Prop where
  unarmed : f.store.writesLeft = none
  word : f.capacity < UInt64.size
  stored : Stored f.store.entries l

structure Requeued (f f' : Forest MemoryStore) (l' : List Ticket) : Prop where
  queue : f'.Queue l'
  levels : f'.maxLevels = f.maxLevels
  capacity : f'.capacity = f.capacity
  same : ∀ key, key ≠ Key.heapSize → key.head? ≠ some Key.slotTag →
    f'.store.entries.get? key = f.store.entries.get? key

variable {f f' f'' : Forest MemoryStore} {l l' l'' : List Ticket}

theorem Queue.requeued_self (h : f.Queue l) : f.Requeued f l := ⟨h, rfl, rfl, fun _ _ _ => rfl⟩

theorem Requeued.trans (h : f.Requeued f' l') (h' : f'.Requeued f'' l'') : f.Requeued f'' l'' :=
  ⟨h'.queue, h'.levels.trans h.levels, h'.capacity.trans h.capacity,
    fun key hsize hslot => (h'.same key hsize hslot).trans (h.same key hsize hslot)⟩

theorem Queue.requeued (h : f.Queue l) {α : Type} {p : Tx α}
    (hp : p.Uses Key.OfHeap LotteryWrite) (hstored : Stored (p.eval f.store.entries).2 l') :
    f.Requeued { f with store := { f.store with entries := (p.eval f.store.entries).2 } } l' := by
  refine ⟨⟨h.unarmed, h.word, hstored⟩, rfl, rfl, fun key hsize hslot => ?_⟩
  refine Tx.get?_eval_of_not hp.confined f.store.entries fun v hwrite => ?_
  cases hwrite with
  | size n => exact hsize rfl
  | slot position ticket => exact hslot rfl
  | noSlot position => exact hslot rfl

theorem Queue.push_full (h : f.Queue l) (hfull : f.capacity ≤ l.length) (key : WeightedKey)
    (address : Address) : f.push key address = (.ok false, f) := by
  rw [push, transact_unarmed h.unarmed, eval_heapPush_full h.stored hfull]
  rfl

theorem Queue.push_room (h : f.Queue l) (hroom : l.length < f.capacity) (key : WeightedKey)
    (address : Address) :
    ∃ f' l', f.push key address = (.ok true, f') ∧ f.Requeued f' l' ∧
      l'.Perm (⟨key, address⟩ :: l) := by
  obtain ⟨m, l', heval, hstored, hperm⟩ :=
    eval_heapPush_room h.stored hroom h.word ⟨key, address⟩
  have hm : m = ((Tx.heapPush f.capacity ⟨key, address⟩).eval f.store.entries).2 := by rw [heval]
  refine ⟨_, l', ?_, h.requeued (Tx.uses_heapPush f.capacity ⟨key, address⟩) (hm ▸ hstored), hperm⟩
  rw [push, transact_unarmed h.unarmed, heval]
  rfl

theorem Queue.pop_nil (h : f.Queue []) : f.pop = (.ok none, f) := by
  rw [pop, transact_unarmed h.unarmed, eval_heapPop_nil h.stored]
  rfl

theorem Queue.pop_cons {least : Ticket} {rest : List Ticket} (h : f.Queue (least :: rest)) :
    (∃ f' l', f.pop = (.ok (some least), f') ∧ f.Requeued f' l' ∧ l'.Perm rest) ∨
      f.pop = (.error .outOfRange, f) ∧ firstChildless < rest.length := by
  rcases eval_heapPop_cons h.stored with ⟨m, l', heval, hstored, hperm⟩ | ⟨m, heval, hdeep⟩
  · left
    have hm : m = (Tx.heapPop.eval f.store.entries).2 := by rw [heval]
    refine ⟨_, l', ?_, h.requeued Tx.uses_heapPop (hm ▸ hstored), hperm⟩
    rw [pop, transact_unarmed h.unarmed, heval]
    rfl
  · right
    refine ⟨?_, hdeep⟩
    rw [pop, transact_unarmed h.unarmed, heval]
    rfl

theorem Queue.pop_least (h : f.Queue l) (hpos : l ≠ []) :
    (∃ e f' l', f.pop = (.ok (some e), f') ∧ f.Requeued f' l' ∧ l.Perm (e :: l') ∧
      ∀ t ∈ l, e.key ≤ t.key) ∨
      f.pop = (.error .outOfRange, f) ∧ firstChildless + 1 < l.length := by
  cases l with
  | nil => exact absurd rfl hpos
  | cons least rest =>
    rcases h.pop_cons with ⟨f', l', hpop, hrequeued, hperm⟩ | ⟨hpop, hdeep⟩
    · exact .inl ⟨least, f', l', hpop, hrequeued, (hperm.cons least).symm, h.stored.head_le⟩
    · exact .inr ⟨hpop, Nat.succ_lt_succ hdeep⟩

theorem Queue.drain (h : f.Queue l) (hdepth : l.length ≤ firstChildless + 1) :
    let pops := List.replicate (l.length + 1) (Step.call .pop)
    ∃ popped : List Ticket, popped.Perm l ∧ popped.Pairwise (fun t u => t.key ≤ u.key) ∧
      (f.history pops).map Event.answer =
        popped.map (fun t => .ok (.popped (some t))) ++ [.ok (.popped none)] ∧
      f.Requeued (f.after pops) [] := by
  induction hn : l.length generalizing f l with
  | zero =>
    obtain rfl := List.eq_nil_of_length_eq_zero hn
    have hrun : (Step.call .pop).run f = (.ok (.popped none), f) := by
      show Command.run f .pop = _
      rw [Command.run, h.pop_nil]
      rfl
    refine ⟨[], .refl _, .nil, ?_, ?_⟩
    · simp only [List.replicate, history, hrun, List.map_cons, List.map_nil, List.nil_append]
    · simp only [List.replicate, after, hrun]
      exact h.requeued_self
  | succ n ih =>
    have hpos : l ≠ [] := by
      rintro rfl
      cases hn
    rcases h.pop_least hpos with ⟨e, f', l', hpop, hrequeued, hperm, hle⟩ | ⟨-, hdeep⟩
    · have hlen := hperm.length_eq
      rw [List.length_cons] at hlen
      obtain ⟨popped, hpopped, hsorted, hanswers, hend⟩ :=
        ih hrequeued.queue (by omega) (by omega)
      have hrun : (Step.call .pop).run f = (.ok (.popped (some e)), f') := by
        show Command.run f .pop = _
        rw [Command.run, hpop]
        rfl
      refine ⟨e :: popped, (hpopped.cons e).trans hperm.symm, ?_, ?_, ?_⟩
      · refine List.pairwise_cons.mpr ⟨fun t ht => hle t ?_, hsorted⟩
        exact hperm.mem_iff.mpr (List.mem_cons_of_mem e (hpopped.mem_iff.mp ht))
      · simp only [List.replicate_succ (n := n + 1), history, hrun, List.map_cons, List.cons_append]
        rw [hanswers]
      · simp only [List.replicate_succ (n := n + 1), after, hrun]
        exact hrequeued.trans hend
    · omega

/-- What a bounded queue that gives out its smallest tickets first does. -/
structure Serves (f : Forest MemoryStore) (l : List Ticket) : Prop where
  size : f.heapSize = .ok l.length
  listed : f.tickets = .ok l
  pushFull : f.capacity ≤ l.length → ∀ key address, f.push key address = (.ok false, f)
  pushRoom : l.length < f.capacity → ∀ key address,
    ∃ f' l', f.push key address = (.ok true, f') ∧ f.Requeued f' l' ∧
      l'.length = l.length + 1 ∧ (l' : Multiset Ticket) = ⟨key, address⟩ ::ₘ l
  popNone : l = [] → f.pop = (.ok none, f)
  popLeast : l ≠ [] →
    (∃ e f' l', f.pop = (.ok (some e), f') ∧ f.Requeued f' l' ∧ l'.length + 1 = l.length ∧
      (l : Multiset Ticket) = e ::ₘ l' ∧ ∀ t ∈ l, e.key ≤ t.key) ∨
      f.pop = (.error .outOfRange, f) ∧ firstChildless + 1 < l.length
  drain : l.length ≤ firstChildless + 1 →
    let pops := List.replicate (l.length + 1) (Step.call .pop)
    ∃ popped : List Ticket, (popped : Multiset Ticket) = l ∧
      popped.Pairwise (fun t u => t.key ≤ u.key) ∧
      (f.history pops).map Event.answer =
        popped.map (fun t => .ok (.popped (some t))) ++ [.ok (.popped none)] ∧
      f.Requeued (f.after pops) [] ∧
      ∀ key, key.head? = some Key.slotTag → (f.after pops).store.entries.get? key = none

/-- A well-formed heap serves its tickets in ascending order, whatever else is stored. -/
theorem Queue.serves (h : f.Queue l) : f.Serves l where
  size := heapSize_of_stored h.stored
  listed := tickets_of_stored h.stored
  pushFull := fun hfull key address => h.push_full hfull key address
  pushRoom := by
    intro hroom key address
    obtain ⟨f', l', hpush, hrequeued, hperm⟩ := h.push_room hroom key address
    exact ⟨f', l', hpush, hrequeued, hperm.length_eq, Multiset.coe_eq_coe.mpr hperm⟩
  popNone := by
    rintro rfl
    exact h.pop_nil
  popLeast := by
    intro hpos
    refine (h.pop_least hpos).imp_left ?_
    rintro ⟨e, f', l', hpop, hrequeued, hperm, hle⟩
    exact ⟨e, f', l', hpop, hrequeued, hperm.length_eq.symm, Multiset.coe_eq_coe.mpr hperm, hle⟩
  drain := by
    intro hdepth
    obtain ⟨popped, hperm, hsorted, hanswers, hend⟩ := h.drain hdepth
    refine ⟨popped, Multiset.coe_eq_coe.mpr hperm, hsorted, hanswers, hend, fun key hkey => ?_⟩
    by_contra hne
    obtain ⟨i, hi, -⟩ := hend.queue.stored.slots key hkey hne
    exact absurd hi i.not_lt_zero

def levelTickets : List Ticket := [⟨⟨.one⟩, .filled 1⟩, ⟨⟨.one⟩, .filled 2⟩]

/-- A heap whose first slot has a flag bit that no decimal has, beside an entry that cannot
be read. -/
def oddlyWritten : Forest MemoryStore where
  store := { entries := (((ByteMap.empty.insert (Key.parent (.filled 1)) [7]).insert (Key.slot 0)
    (1 :: (Ticket.toBytes ⟨⟨.one⟩, .filled 1⟩).tail)).insert (Key.slot 1)
    (Ticket.toBytes ⟨⟨.one⟩, .filled 2⟩)).insert Key.heapSize (HeapSize.toBytes 2) }
  capacity := 2

theorem serves_oddlyWritten :
    oddlyWritten.Queue levelTickets ∧ oddlyWritten.Serves levelTickets := by
  have hqueue : oddlyWritten.Queue levelTickets := by
    refine ⟨rfl, by decide, rfl, by decide, ?_, ?_, ?_⟩
    · intro i t ht
      match i, ht with
      | 0, ht =>
        cases ht
        exact ⟨_, rfl, rfl⟩
      | 1, ht =>
        cases ht
        exact ⟨_, rfl, rfl⟩
    · intro i parent child hpos hparent hchild
      have hlt := lt_length hchild
      obtain rfl : i = 1 := by
        simp only [levelTickets, List.length_cons, List.length_nil] at hlt
        omega
      cases hparent
      cases hchild
      exact WeightedKey.le_refl _
    · intro key hkey hget
      simp only [oddlyWritten, ByteMap.get?_insert] at hget
      split at hget
      · rename_i hsize
        subst hsize
        cases hkey
      split at hget
      · rename_i hslot
        exact ⟨1, by decide, hslot.symm⟩
      split at hget
      · rename_i hslot
        exact ⟨0, by decide, hslot.symm⟩
      split at hget
      · rename_i hparent
        subst hparent
        cases hkey
      · exact absurd rfl hget
  exact ⟨hqueue, hqueue.serves⟩

end Forest
end ReferralForest
