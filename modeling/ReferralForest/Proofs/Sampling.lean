import Mathlib.Algebra.BigOperators.Group.Multiset.Basic
import Mathlib.Data.Multiset.Sort
import Mathlib.Data.Int.Order.Basic
import Mathlib.Tactic.Abel
import ReferralForest.Proofs.HeapInvariant

/-!
# The reservoir keeps the largest tickets

Along a run of offers the tickets that were offered are the ones kept, the ones that
had to give way and the ones that were dropped. Nothing is lost before the reservoir
is full, and from then on whatever is lost has a key no larger than any that is kept.
So the kept keys are the first ones of all offered keys in descending order, whatever
the order of the offers, and the smallest key is the last of these.
-/

namespace ReferralForest

def Ticket.rank (t : Ticket) : Int := t.key.rank.units

/-- Tickets that were kept and tickets that were lost, the former no smaller. -/
structure Kept (capacity : Nat) (kept : List Ticket) (lost : Multiset Ticket) : Prop where
  within : kept.length ≤ capacity
  full : lost ≠ 0 → kept.length = capacity
  above : ∀ t ∈ kept, ∀ u ∈ lost, u.rank ≤ t.rank

namespace Kept
variable {capacity : Nat} {kept kept' : List Ticket} {lost : Multiset Ticket}

theorem empty (capacity : Nat) : Kept capacity [] 0 :=
  ⟨Nat.zero_le _, fun h => absurd rfl h, fun t ht => by cases ht⟩

theorem length_eq (h : Kept capacity kept lost) :
    kept.length = min capacity (Multiset.card ((kept : Multiset Ticket) + lost)) := by
  have hwithin := h.within
  rw [Multiset.card_add, Multiset.coe_card]
  by_cases hlost : lost = 0
  · rw [hlost, Multiset.card_zero]
    omega
  · have hfull := h.full hlost
    omega

def lostBy (ticket : Ticket) : Admission → Multiset Ticket
  | .replaced evicted => {evicted}
  | .discarded => {ticket}
  | .noNetValue | .ineligible | .inserted => 0

theorem consider (h : Kept capacity kept lost) {ticket : Ticket} {a : Admission}
    (hconsidered : Heap.Considered capacity ticket kept a kept') :
    Kept capacity kept' (lost + lostBy ticket a) ∧
      (kept : Multiset Ticket) + {ticket} = (kept' : Multiset Ticket) + lostBy ticket a := by
  cases hconsidered with
  | inserted hroom hperm =>
    have hlost : lost = 0 := by
      by_contra hne
      exact absurd (h.full hne) (Nat.ne_of_lt hroom)
    have hlen := hperm.length_eq
    rw [List.length_cons] at hlen
    subst hlost
    refine ⟨⟨by omega, fun hne => absurd rfl hne, fun t _ u hu => ?_⟩, ?_⟩
    · exact absurd hu (Multiset.notMem_zero u)
    · rw [lostBy, Multiset.coe_eq_coe.mpr hperm]
      simp only [← Multiset.cons_coe, ← Multiset.singleton_add]
      abel
  | @replaced least rest l' hfull hleast hlt hperm =>
    have hlen := hperm.length_eq
    rw [List.length_cons] at hlen
    refine ⟨⟨by omega, fun _ => by omega, fun t ht u hu => ?_⟩, ?_⟩
    · have hleast_le : least.rank ≤ t.rank := by
        rcases List.mem_cons.mp (hperm.mem_iff.mp ht) with rfl | ht
        · exact WeightedKey.le_of_lt hlt
        · exact hleast t ht
      rcases Multiset.mem_add.mp hu with hu | hu
      · exact le_trans (h.above least List.mem_cons_self u hu) hleast_le
      · rw [lostBy, Multiset.mem_singleton] at hu
        exact hu ▸ hleast_le
    · rw [lostBy, Multiset.coe_eq_coe.mpr hperm]
      simp only [← Multiset.cons_coe, ← Multiset.singleton_add]
      abel
  | discarded hfull hle =>
    refine ⟨⟨by omega, fun _ => hfull, fun t ht u hu => ?_⟩, rfl⟩
    rcases Multiset.mem_add.mp hu with hu | hu
    · exact h.above t ht u hu
    · rw [lostBy, Multiset.mem_singleton] at hu
      exact hu ▸ hle t ht

end Kept

end ReferralForest
