import ReferralForest.Proofs.Reservoir
import ReferralForest.Proofs.Run

/-!
# The lottery heap along a run

The entries of every run store some list of tickets as a heap: it starts empty, the
commands of the lottery put another such list in its place, and all other commands
write under other tags. A command adds a ticket only while there is room for it.
-/

namespace ReferralForest
open Heap

variable {f : Forest MemoryStore} {l : List Ticket}

theorem Heap.Stored.eval_confined {α : Type} {W : Bytes → Option Bytes → Prop} {p : Tx α}
    {m : ByteMap Bytes} (h : Stored m l) (hp : p.Confined W)
    (hW : ∀ k v, W k v → k.head? ≠ some Key.sizeTag ∧ k.head? ≠ some Key.slotTag) :
    Stored (p.eval m).2 l := by
  refine h.congr fun key hkey => Tx.get?_eval_of_not hp m fun v hv => ?_
  obtain ⟨hsize, hslot⟩ := hW key v hv
  rcases hkey with hkey | hkey
  · exact hsize hkey
  · exact hslot hkey

theorem TreeWrite.not_lottery (k : Bytes) (v : Option Bytes) (h : TreeWrite k v) :
    k.head? ≠ some Key.sizeTag ∧ k.head? ≠ some Key.slotTag := by
  rcases h.tag with htag | htag | htag <;> rw [htag] <;> decide

theorem NetValueWrite.not_lottery (k : Bytes) (v : Option Bytes) (h : NetValueWrite k v) :
    k.head? ≠ some Key.sizeTag ∧ k.head? ≠ some Key.slotTag := by
  rw [h.tag]
  decide

def Command.isLottery : Command → Bool
  | offer .. | push .. | pop => true
  | insert _ | remove _ | credit .. => false

theorem Command.stored_eval_of_apart (h : Stored f.store.entries l) {c : Command}
    (hc : c.isLottery = false) : Stored (c.eval f).2 l := by
  have hconfined := c.confined_program f.maxLevels f.capacity
  cases c with
  | insert r => exact h.eval_confined hconfined TreeWrite.not_lottery
  | remove r => exact h.eval_confined hconfined TreeWrite.not_lottery
  | credit kind start change => exact h.eval_confined hconfined NetValueWrite.not_lottery
  | offer seed address => cases hc
  | push key address => cases hc
  | pop => cases hc

/-- An answered command leaves a stored heap, with no more tickets than there is room for
and with at most one more than before. -/
theorem Command.stored_eval (h : Stored f.store.entries l) (hcapacity : f.capacity < UInt64.size)
    {c : Command} {a : Outcome} {m : ByteMap Bytes} (heval : c.eval f = (.ok a, m)) :
    ∃ l', Stored m l' ∧ l'.length ≤ max f.capacity l.length ∧ l'.length ≤ l.length + 1 := by
  have hm : m = (c.eval f).2 := by rw [heval]
  cases c with
  | insert r => exact ⟨l, hm ▸ stored_eval_of_apart h rfl, by omega⟩
  | remove r => exact ⟨l, hm ▸ stored_eval_of_apart h rfl, by omega⟩
  | credit kind start change => exact ⟨l, hm ▸ stored_eval_of_apart h rfl, by omega⟩
  | offer seed address =>
    obtain ⟨admission, hoffer, -⟩ := Tx.eval_bind_pure_eq_ok heval
    obtain ⟨value?, mid, hread, -⟩ := Tx.eval_bind_eq_ok hoffer
    obtain ⟨rfl, -⟩ := Tx.eval_readAs_eq_ok hread
    rw [eval_offer hread] at hoffer
    split at hoffer
    · cases hoffer
      exact ⟨l, h, by omega⟩
    split at hoffer
    · cases hoffer
      exact ⟨l, h, by omega⟩
    · rename_i key _
      rcases eval_consider h hcapacity ⟨key, address⟩ with
        ⟨a', m', l', hconsider, hstored, hconsidered⟩ | ⟨m', hconsider, -⟩ | ⟨m', hconsider, -⟩
      · rw [hconsider] at hoffer
        cases hoffer
        exact ⟨l', hstored, hconsidered.length_le⟩
      · rw [hconsider] at hoffer
        cases hoffer
      · rw [hconsider] at hoffer
        cases hoffer
  | push key address =>
    obtain ⟨room, hpush, -⟩ := Tx.eval_bind_pure_eq_ok heval
    rcases Nat.lt_or_ge l.length f.capacity with hroom | hfull
    · obtain ⟨m', l', hpush', hstored, hperm⟩ := eval_heapPush_room h hroom hcapacity ⟨key, address⟩
      rw [hpush'] at hpush
      cases hpush
      have hlen := hperm.length_eq
      rw [List.length_cons] at hlen
      exact ⟨l', hstored, by omega⟩
    · rw [eval_heapPush_full h hfull] at hpush
      cases hpush
      exact ⟨l, h, by omega⟩
  | pop =>
    obtain ⟨ticket, hpop, -⟩ := Tx.eval_bind_pure_eq_ok heval
    cases l with
    | nil =>
      rw [eval_heapPop_nil h] at hpop
      cases hpop
      exact ⟨[], h, by omega⟩
    | cons least rest =>
      rcases eval_heapPop_cons h with ⟨m', l', hpop', hstored, hperm⟩ | ⟨m', hpop', -⟩
      · rw [hpop'] at hpop
        cases hpop
        have hlen := hperm.length_eq
        rw [List.length_cons]
        exact ⟨l', hstored, by omega⟩
      · rw [hpop'] at hpop
        cases hpop

theorem Step.stored_run (h : Stored f.store.entries l) (hcapacity : f.capacity < UInt64.size)
    (s : Step) :
    ∃ l', Stored (s.run f).2.store.entries l' ∧ l'.length ≤ max f.capacity l.length ∧
      l'.length ≤ l.length + 1 := by
  rcases s.entries_run f with hsame | ⟨c, a, rfl, heval, -⟩
  · rw [hsame]
    exact ⟨l, h, by omega⟩
  · exact c.stored_eval h hcapacity heval

namespace Forest

def Sampling (f : Forest MemoryStore) : Prop :=
  f.capacity < UInt64.size ∧ ∃ l, Stored f.store.entries l

theorem sampling_after (h : f.Sampling) (steps : List Step) : (f.after steps).Sampling := by
  refine after_of_step (P := Sampling) (fun f s hf => ?_) h steps
  obtain ⟨hcapacity, l, hstored⟩ := hf
  obtain ⟨l', hstored', -⟩ := s.stored_run hstored hcapacity
  exact ⟨s.capacity_run hcapacity, l', hstored'⟩

theorem sampling_initial : initial.Sampling := ⟨by decide, [], stored_empty⟩

theorem stored_after (h : Stored f.store.entries l) (hcapacity : f.capacity < UInt64.size)
    (steps : List Step) :
    ∃ l', Stored (f.after steps).store.entries l' ∧ l'.length ≤ l.length + steps.length := by
  induction steps generalizing f l with
  | nil => exact ⟨l, h, Nat.le_refl _⟩
  | cons s rest ih =>
    obtain ⟨l', hstored, -, hlen⟩ := s.stored_run h hcapacity
    obtain ⟨l'', hstored', hlen'⟩ := ih hstored (s.capacity_run hcapacity)
    exact ⟨l'', hstored', by rw [List.length_cons]; omega⟩

def SlotHolds (f : Forest MemoryStore) (position : Nat) (ticket : Ticket) : Prop :=
  ∃ value, f.store.entries.get? (Key.slot position) = some value ∧ Ticket.ofBytes value = .ok ticket

structure SoundHeap (f : Forest MemoryStore) (size : Nat) : Prop where
  counted : f.heapSize = .ok size
  slots : ∀ key, key.head? = some Key.slotTag →
    ((f.store.entries.get? key).isSome ↔ ∃ i < size, key = Key.slot i)
  decoded : ∀ i < size, ∃ ticket, f.SlotHolds i ticket
  ordered : ∀ i parent child, 1 ≤ i → i < size → f.SlotHolds ((i - 1) / 2) parent →
    f.SlotHolds i child → parent.key ≤ child.key
  least : ∃ key? tickets, f.leastKey? = .ok key? ∧ f.tickets = .ok tickets ∧
    tickets.length = size ∧ (key? = none ↔ size = 0) ∧ ∀ key ∈ key?, ∀ t ∈ tickets, key ≤ t.key

theorem slotHolds_of_stored (h : Stored f.store.entries l) {i : Nat} {t : Ticket}
    (hi : i < l.length)
    (ht : f.SlotHolds i t) : l[i]? = some t := by
  obtain ⟨value, hget, hdecode⟩ := ht
  have hslot : l[i]? = some l[i] := List.getElem?_eq_getElem hi
  obtain ⟨value', hget', hdecode'⟩ := h.holds i l[i] hslot
  cases hget.symm.trans hget'
  cases hdecode.symm.trans hdecode'
  exact hslot

theorem soundHeap_of_stored (h : Stored f.store.entries l) : f.SoundHeap l.length := by
  have hholds : ∀ i (hi : i < l.length), f.SlotHolds i l[i] := fun i hi =>
    h.holds i l[i] (List.getElem?_eq_getElem hi)
  refine ⟨heapSize_of_stored h, fun key hkey => ?_, fun i hi => ⟨l[i], hholds i hi⟩, ?_, ?_⟩
  · refine ⟨fun hsome => h.slots key hkey (Option.isSome_iff_ne_none.mp hsome), ?_⟩
    rintro ⟨i, hi, rfl⟩
    exact (h.holds i l[i] (List.getElem?_eq_getElem hi)).isSome
  · intro i parent child hpos hi hparent hchild
    exact h.ordered i parent child hpos (slotHolds_of_stored h (by omega) hparent)
      (slotHolds_of_stored h hi hchild)
  · refine ⟨_, l, leastKey?_of_stored h, tickets_of_stored h, rfl, by cases l <;> simp, ?_⟩
    intro key hkey
    cases l with
    | nil => cases hkey
    | cons least rest =>
      cases hkey
      exact h.head_le

theorem heapSize_run (h : Stored f.store.entries l) (hcapacity : f.capacity < UInt64.size)
    (hfull : f.capacity ≤ l.length) (s : Step) :
    ∃ size, (s.run f).2.heapSize = .ok size ∧ size ≤ l.length := by
  obtain ⟨l', hstored, hle, -⟩ := s.stored_run h hcapacity
  exact ⟨l'.length, heapSize_of_stored hstored, by omega⟩

theorem capacity_run_of_fixed {s : Step}
    (hfixed : ∀ levels capacity, s = .limit levels capacity → capacity.toNat = f.capacity) :
    (s.run f).2.capacity = f.capacity := by
  cases s with
  | call c => exact (Command.limits_run f c).2
  | failAfter writes => rfl
  | clearFailure => rfl
  | limit levels capacity => exact hfixed levels capacity rfl

theorem capacity_after_of_fixed {steps : List Step}
    (hfixed : ∀ levels capacity, Step.limit levels capacity ∈ steps → capacity.toNat = f.capacity) :
    (f.after steps).capacity = f.capacity := by
  induction steps generalizing f with
  | nil => rfl
  | cons s rest ih =>
    have hsame : (s.run f).2.capacity = f.capacity := capacity_run_of_fixed
      fun levels capacity hs => hfixed levels capacity (hs ▸ List.mem_cons_self)
    refine (ih fun levels capacity hmem => ?_).trans hsame
    rw [hsame]
    exact hfixed levels capacity (List.mem_cons_of_mem s hmem)

theorem heapSize_after_of_fixed (h : Stored f.store.entries l)
    (hcapacity : f.capacity < UInt64.size)
    (hle : l.length ≤ f.capacity) (steps : List Step)
    (hfixed : ∀ levels capacity, Step.limit levels capacity ∈ steps → capacity.toNat = f.capacity) :
    ∃ size, (f.after steps).heapSize = .ok size ∧ size ≤ f.capacity := by
  induction steps generalizing f l with
  | nil => exact ⟨l.length, heapSize_of_stored h, hle⟩
  | cons s rest ih =>
    obtain ⟨l', hstored, hle', -⟩ := s.stored_run h hcapacity
    have hsame : (s.run f).2.capacity = f.capacity := capacity_run_of_fixed
      fun levels capacity hs => hfixed levels capacity (hs ▸ List.mem_cons_self)
    have hrest := ih hstored (by omega) (by omega) fun levels capacity hmem =>
      hsame.symm ▸ hfixed levels capacity (List.mem_cons_of_mem _ hmem)
    rw [hsame] at hrest
    exact hrest

/-- Every run keeps the lottery heap sound and adds to it only below the capacity in force. -/
theorem soundHeap_after (steps : List Step) :
    let f := initial.after steps
    ∃ size, f.SoundHeap size ∧
      (f.capacity ≤ size → ∀ s : Step,
        ∃ size', (s.run f).2.heapSize = .ok size' ∧ size' ≤ size) ∧
      (size ≤ f.capacity → ∀ more : List Step,
        (∀ levels capacity, Step.limit levels capacity ∈ more → capacity.toNat = f.capacity) →
        ∃ size', (f.after more).heapSize = .ok size' ∧ size' ≤ f.capacity) := by
  intro f
  obtain ⟨hcapacity, l, hstored⟩ := sampling_after sampling_initial steps
  refine ⟨l.length, soundHeap_of_stored hstored, fun hfull s => ?_, fun hle more hfixed => ?_⟩
  · exact heapSize_run hstored hcapacity hfull s
  · exact heapSize_after_of_fixed hstored hcapacity hle more hfixed

end Forest
end ReferralForest
