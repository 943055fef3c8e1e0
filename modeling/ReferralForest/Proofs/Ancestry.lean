import Mathlib.Logic.Relation
import ReferralForest.Proofs.WellFormed

/-!
# Ancestors

The inviters stored in a map make a parent function on addresses. It has no cycle
when some rank falls with every step towards the root. An address that nobody has as
parent can be given one without a change to who is below whom among the others.
-/

namespace ReferralForest

/-- The first address is the second one or has it among its ancestors. -/
def Below (parent : Address → Option Address) : Address → Address → Prop :=
  Relation.ReflTransGen fun a b => parent a = some b

section Below
variable {parent parent' : Address → Option Address} {a p x : Address}

theorem below_refl (parent : Address → Option Address) (a : Address) : Below parent a a :=
  Relation.ReflTransGen.refl

theorem below_iff_of_root (hroot : parent a = none) : Below parent a x ↔ x = a := by
  constructor
  · intro h
    rcases Relation.ReflTransGen.cases_head h with heq | ⟨b, hb, -⟩
    · exact heq.symm
    · rw [hroot] at hb
      cases hb
  · rintro rfl
    exact below_refl parent x

theorem below_iff_of_parent (hp : parent a = some p) :
    Below parent a x ↔ x = a ∨ Below parent p x := by
  constructor
  · intro h
    rcases Relation.ReflTransGen.cases_head h with heq | ⟨b, hb, hbelow⟩
    · exact .inl heq.symm
    · cases hp.symm.trans hb
      exact .inr hbelow
  · rintro (rfl | h)
    · exact below_refl parent x
    · exact Relation.ReflTransGen.head hp h

theorem below_rank_le {rank : Address → Nat} (hrank : ∀ a p, parent a = some p → rank p ≤ rank a)
    (h : Below parent a x) : rank x ≤ rank a := by
  induction h with
  | refl => exact Nat.le_refl _
  | tail _ hstep ih => exact Nat.le_trans (hrank _ _ hstep) ih

theorem not_below_parent {rank : Address → Nat}
    (hrank : ∀ a p, parent a = some p → rank p < rank a) (hp : parent a = some p) :
    ¬Below parent p a := by
  intro h
  have hle := below_rank_le (fun b q hq => Nat.le_of_lt (hrank b q hq)) h
  exact Nat.not_lt.mpr hle (hrank a p hp)

theorem parent_self_of_transGen {rank : Address → Nat}
    (hrank : ∀ a p, parent a = some p → rank p < rank a ∨ p = a)
    (h : Relation.TransGen (fun a b => parent a = some b) a a) : parent a = some a := by
  obtain ⟨p, hp, hback⟩ := Relation.TransGen.head'_iff.mp h
  have hle : rank a ≤ rank p :=
    below_rank_le (fun b q hq => (hrank b q hq).elim Nat.le_of_lt fun heq => heq ▸ Nat.le_refl _)
      hback
  rcases hrank a p hp with hlt | rfl
  · exact absurd hle (Nat.not_le.mpr hlt)
  · exact hp

theorem below_of_leaf {leaf : Address} (hsame : ∀ b, b ≠ leaf → parent' b = parent b)
    (hleaf : ∀ b, b ≠ leaf → parent b ≠ some leaf) (ha : a ≠ leaf) (h : Below parent a x) :
    Below parent' a x := by
  induction h using Relation.ReflTransGen.head_induction_on with
  | refl => exact below_refl parent' x
  | @head b c hstep _ ih =>
    have hc : c ≠ leaf := by
      rintro rfl
      exact hleaf b ha hstep
    exact Relation.ReflTransGen.head ((hsame b ha).trans hstep) (ih hc)

theorem below_iff_of_leaf {leaf : Address} (hsame : ∀ b, b ≠ leaf → parent' b = parent b)
    (hleaf : ∀ b, b ≠ leaf → parent b ≠ some leaf) (ha : a ≠ leaf) :
    Below parent' a x ↔ Below parent a x := by
  have hleaf' : ∀ b, b ≠ leaf → parent' b ≠ some leaf := fun b hb => by
    rw [hsame b hb]
    exact hleaf b hb
  exact ⟨below_of_leaf (fun b hb => (hsame b hb).symm) hleaf' ha, below_of_leaf hsame hleaf ha⟩

theorem exists_rank_of_leaf {leaf : Address} (hsame : ∀ b, b ≠ leaf → parent' b = parent b)
    (hleaf : ∀ b, parent' b ≠ some leaf) {rank : Address → Nat}
    (hrank : ∀ a p, parent a = some p → rank p < rank a) :
    ∃ rank' : Address → Nat, ∀ a p, parent' a = some p → rank' p < rank' a := by
  refine ⟨fun b => if b = leaf then (parent' leaf).elim 0 fun p => rank p + 1 else rank b, ?_⟩
  intro b p hp
  have hpleaf : p ≠ leaf := by
    rintro rfl
    exact hleaf b hp
  simp only [if_neg hpleaf]
  by_cases hb : b = leaf
  · subst hb
    rw [if_pos rfl, hp]
    exact Nat.lt_succ_self (rank p)
  · rw [if_neg hb]
    rw [hsame b hb] at hp
    exact hrank b p hp

end Below

theorem Address.nonRoot_eq_some {a p : Address} : a.nonRoot = some p ↔ a = p ∧ a ≠ .root := by
  have hzero : a.isZero = true ↔ a = .root := by simp [FixedBytes.isZero, Address.root]
  by_cases h : a = .root
  · subst h
    simp [nonRoot, hzero.mpr rfl]
  · simp [nonRoot, mt hzero.mp h, h]

def parentOf (m : ByteMap Bytes) (a : Address) : Option Address :=
  match ((Tx.readParent a).eval m).1 with
  | .ok parent? => parent?.bind Address.nonRoot
  | .error _ => none

variable {m m' : ByteMap Bytes}

theorem parentOf_eq {a : Address} {parent? : Option Address}
    (h : (Tx.readParent a).eval m = (.ok parent?, m)) :
    parentOf m a = parent?.bind Address.nonRoot := by
  rw [parentOf, h]

theorem parentOf_congr {a : Address} (h : m'.get? (Key.parent a) = m.get? (Key.parent a)) :
    parentOf m' a = parentOf m a := by
  obtain ⟨r, hr, hr'⟩ := Tx.eval_readAs_congr ParentEntry.ofBytes h
  rw [parentOf, parentOf, Tx.readParent, hr, hr']

theorem Forest.inviter?_eq {f : Forest MemoryStore} (h : WellFormed f.store.entries) (a : Address) :
    f.inviter? a = .ok (parentOf f.store.entries a) := by
  obtain ⟨parent?, hread⟩ := h.eval_readParent a
  have hconfined : (Tx.readParent a >>= fun p => pure (p.bind Address.nonRoot)).ReadOnly :=
    Tx.confined_bind (Tx.confined_readAs _ _) fun _ => trivial
  rw [inviter?, view, Engine.view_readOnly hconfined, Tx.eval_bind_ok hread, parentOf_eq hread]
  rfl

end ReferralForest
