import ReferralForest.Proofs.HeapStore

/-!
# The stored reservoir

What an offer makes of the stored tickets depends on how many there are and on the
smallest key alone: there is room, or the smallest ticket gives way, or the offer is
dropped. The queries of a forest read off the list that its entries store.
-/

namespace ReferralForest

namespace Heap
open Tx (firstChildless)

inductive Considered (capacity : Nat) (ticket : Ticket) :
    List Ticket → Admission → List Ticket → Prop
  | inserted {l l' : List Ticket} (hroom : l.length < capacity) (hperm : l'.Perm (ticket :: l)) :
      Considered capacity ticket l .inserted l'
  | replaced {least : Ticket} {rest l' : List Ticket} (hfull : rest.length + 1 = capacity)
      (hleast : ∀ t ∈ rest, least.key ≤ t.key) (hlt : least.key < ticket.key)
      (hperm : l'.Perm (ticket :: rest)) :
      Considered capacity ticket (least :: rest) (.replaced least) l'
  | discarded {l : List Ticket} (hfull : l.length = capacity) (hle : ∀ t ∈ l, ticket.key ≤ t.key) :
      Considered capacity ticket l .discarded l

variable {m m' : ByteMap Bytes} {l : List Ticket} {capacity : Nat} {ticket : Ticket}

theorem Stored.head_le {least : Ticket} {rest : List Ticket} (h : Stored m (least :: rest)) :
    ∀ t ∈ least :: rest, least.key ≤ t.key := h.ordered.root_le rfl

theorem eval_consider_full (h : Stored m l) (hfull : l.length = capacity)
    (hcapacity : capacity < UInt64.size) (ticket : Ticket) :
    (∃ a m' l', (Tx.consider capacity ticket).eval m = (.ok a, m') ∧ Stored m' l' ∧
      Considered capacity ticket l a l') ∨
    ∃ m', (Tx.consider capacity ticket).eval m = (.error .outOfRange, m') ∧
      firstChildless < l.length := by
  rw [Tx.consider, Tx.eval_bind_ok h.size, if_neg (by omega), if_neg (by omega)]
  cases l with
  | nil =>
    left
    rw [if_pos List.length_nil]
    exact ⟨.discarded, m, [], rfl, h, .discarded hfull fun t ht => by cases ht⟩
  | cons least rest =>
    have hlen : rest.length + 1 = capacity := by simpa using hfull
    rw [if_neg (by simp), Tx.eval_bind_ok (eval_readOccupied (h.holds 0 least rfl) _)]
    split
    · rename_i hlt
      rcases eval_heapPop_cons h with ⟨m₁, l₁, hpop, hstored, hperm⟩ | ⟨m₁, hpop, hdeep⟩
      · left
        have hroom : l₁.length < capacity := by
          have := hperm.length_eq
          omega
        obtain ⟨m', l', hpush, hstored', hperm'⟩ :=
          eval_heapPush_room hstored hroom hcapacity ticket
        refine ⟨.replaced least, m', l', ?_, hstored', ?_⟩
        · rw [Tx.eval_bind_ok hpop]
          exact Tx.eval_bind_ok hpush
        · exact .replaced hlen (fun t ht => h.head_le t (List.mem_cons_of_mem _ ht)) hlt
            (hperm'.trans (hperm.cons ticket))
      · right
        exact ⟨m₁, Tx.eval_bind_error hpop, Nat.lt_succ_of_lt hdeep⟩
    · rename_i hge
      left
      refine ⟨.discarded, m, least :: rest, rfl, h, .discarded hfull fun t ht => ?_⟩
      exact WeightedKey.le_trans (WeightedKey.not_lt.mp hge) (h.head_le t ht)

/-- An offer is decided by the stored tickets, unless they are too many. -/
theorem eval_consider (h : Stored m l) (hcapacity : capacity < UInt64.size) (ticket : Ticket) :
    (∃ a m' l', (Tx.consider capacity ticket).eval m = (.ok a, m') ∧ Stored m' l' ∧
      Considered capacity ticket l a l') ∨
    (∃ m', (Tx.consider capacity ticket).eval m = (.error .outOfRange, m') ∧
      firstChildless < l.length) ∨
    (∃ m', (Tx.consider capacity ticket).eval m =
      (.error (.invariant (.heapOverCapacity l.length capacity)), m') ∧ capacity < l.length) := by
  rcases Nat.lt_trichotomy l.length capacity with hroom | hfull | hover
  · left
    obtain ⟨m', l', hpush, hstored, hperm⟩ := eval_heapPush_room h hroom hcapacity ticket
    refine ⟨.inserted, m', l', ?_, hstored, .inserted hroom hperm⟩
    rw [Tx.consider, Tx.eval_bind_ok h.size, if_neg (by omega), if_pos hroom]
    exact Tx.eval_bind_ok hpush
  · exact (eval_consider_full h hfull hcapacity ticket).imp id .inl
  · right
    right
    refine ⟨m, ?_, hover⟩
    rw [Tx.consider, Tx.eval_bind_ok h.size, if_pos hover]
    rfl

theorem eval_offer {value? : Option NetValue} {address : Address}
    (h : (Tx.readNetValue address).eval m = (.ok value?, m)) (capacity : Nat) (seed : CodeHash) :
    (Tx.offer capacity seed address).eval m =
      match value? with
      | none => (.ok .noNetValue, m)
      | some value =>
        match WeightedKey.ofDraw? seed.lowWord value.amount.toInt with
        | none => (.ok .ineligible, m)
        | some key => (Tx.consider capacity ⟨key, address⟩).eval m := by
  rw [Tx.offer, Tx.eval_bind_ok h]
  cases value? with
  | none => rfl
  | some value =>
    simp only
    cases WeightedKey.ofDraw? seed.lowWord value.amount.toInt <;> rfl

theorem Considered.length_le {a : Admission} {l' : List Ticket}
    (h : Considered capacity ticket l a l') :
    l'.length ≤ max capacity l.length ∧ l'.length ≤ l.length + 1 := by
  cases h with
  | inserted hroom hperm =>
    have hlen := hperm.length_eq
    rw [List.length_cons] at hlen
    omega
  | replaced hfull hleast hlt hperm =>
    have hlen := hperm.length_eq
    rw [List.length_cons] at hlen ⊢
    omega
  | discarded hfull hle => omega

theorem eval_readTickets (h : Holds m l) (size : Nat) {position count : Nat}
    (hend : position + count = l.length) :
    (Tx.readTickets size position count).eval m = (.ok (l.drop position), m) := by
  induction count generalizing position with
  | zero =>
    rw [List.drop_of_length_le (by omega)]
    rfl
  | succ count ih =>
    have hlt : position < l.length := by omega
    have hslot := h position l[position] (List.getElem?_eq_getElem hlt)
    rw [Tx.readTickets, Tx.eval_bind_ok (eval_readOccupied hslot size),
      Tx.eval_bind_ok (ih (by omega)), List.drop_eq_getElem_cons hlt]
    rfl

end Heap

namespace Forest
variable {f : Forest MemoryStore} {l : List Ticket}
open Heap

theorem heapSize_of_stored (h : Stored f.store.entries l) : f.heapSize = .ok l.length := by
  rw [heapSize, view, Engine.view_readOnly Tx.uses_readHeapSize.confined, h.size]

theorem tickets_of_stored (h : Stored f.store.entries l) : f.tickets = .ok l := by
  have hconfined : (Tx.readHeapSize >>= fun size => Tx.readTickets size 0 size).ReadOnly :=
    (Tx.uses_bind Tx.uses_readHeapSize fun size => Tx.uses_readTickets size 0 size).confined
  have hread := eval_readTickets h.holds l.length (Nat.zero_add l.length)
  rw [tickets, view, Engine.view_readOnly hconfined, Tx.eval_bind_ok h.size, hread, List.drop_zero]

theorem leastKey?_of_stored (h : Stored f.store.entries l) :
    f.leastKey? = .ok (l.head?.map Ticket.key) := by
  have hconfined : (Tx.readSlot 0 >>= fun t => pure (t.map Ticket.key)).ReadOnly :=
    Tx.confined_bind (Tx.confined_readAs _ _) fun _ => trivial
  rw [leastKey?, view, Engine.view_readOnly hconfined]
  cases l with
  | nil =>
    have hnone : f.store.entries.get? (Key.slot 0) = none := by
      apply Classical.byContradiction
      intro hne
      obtain ⟨i, hi, -⟩ := h.slots (Key.slot 0) rfl hne
      exact absurd hi i.not_lt_zero
    rw [Tx.readSlot, Tx.eval_bind_ok (Tx.eval_readAs_none hnone)]
    rfl
  | cons least rest =>
    obtain ⟨value, hget, hread⟩ := h.holds 0 least rfl
    rw [Tx.readSlot, Tx.eval_bind_ok (Tx.eval_readAs_some hget hread)]
    rfl

end Forest
end ReferralForest
