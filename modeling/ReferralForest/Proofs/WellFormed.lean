import ReferralForest.Proofs.Keys
import ReferralForest.Proofs.Records
import ReferralForest.Proofs.Run

/-!
# Entries that can be read

A map is well formed when each of its entries was written by some command. Programs
of commands keep maps well formed, and in a well-formed map every record under the
key of an address or a code can be read. The maps of all runs are of this kind.
-/

namespace ReferralForest

def Written (k : Bytes) (v : Option Bytes) : Prop :=
  TreeWrite k v ∨ NetValueWrite k v ∨ LotteryWrite k v

def WellFormed (m : ByteMap Bytes) : Prop :=
  ∀ key, m.get? key = none ∨ Written key (m.get? key)

theorem wellFormed_empty : WellFormed .empty := fun _ => .inl rfl

namespace WellFormed
variable {m : ByteMap Bytes}

theorem eval {α : Type} {W : Bytes → Option Bytes → Prop} {p : Tx α} (h : WellFormed m)
    (hp : p.Confined W) (hW : ∀ k v, W k v → Written k v) : WellFormed (p.eval m).2 := by
  intro key
  rcases Tx.get?_eval hp m key with hsame | hwrite
  · rw [hsame]
    exact h key
  · exact .inr (hW key _ hwrite)

theorem insert {k v : Bytes} (h : WellFormed m) (hwrite : Written k (some v)) :
    WellFormed (m.insert k v) := by
  intro key
  rw [ByteMap.get?_insert]
  by_cases hk : k = key
  · rw [if_pos hk]
    exact .inr (hk ▸ hwrite)
  · rw [if_neg hk]
    exact h key

theorem tree (h : WellFormed m) (key : Bytes)
    (htag : key.head? = some Key.referralTag ∨ key.head? = some Key.parentTag ∨
      key.head? = some Key.childrenTag) :
    m.get? key = none ∨ TreeWrite key (m.get? key) := by
  refine (h key).imp id fun hwritten => ?_
  rcases hwritten with htree | hnet | hlottery
  · exact htree
  · rw [hnet.tag] at htag
    exact absurd htag (by decide)
  · rcases hlottery.tag with hkey | hkey <;> rw [hkey] at htag <;> exact absurd htag (by decide)

theorem get?_netValue (h : WellFormed m) (address : Address) :
    m.get? (Key.netValue address) = none ∨
      ∃ r : NetValue, m.get? (Key.netValue address) = some r.toBytes := by
  refine (h (Key.netValue address)).imp id fun hwritten => ?_
  generalize hkey : Key.netValue address = key at hwritten
  rcases hwritten with htree | hnet | hlottery
  · rcases htree.tag with htag | htag | htag <;> rw [← hkey] at htag <;> cases htag
  · generalize m.get? key = v at hnet
    cases hnet with
    | record _ r => exact ⟨r, rfl⟩
  · rcases hlottery.tag with htag | htag <;> rw [← hkey] at htag <;> cases htag

theorem get?_parent (h : WellFormed m) (address : Address) :
    m.get? (Key.parent address) = none ∨
      ∃ p, m.get? (Key.parent address) = some (ParentEntry.toBytes p) := by
  rcases h.tree (Key.parent address) (.inr (.inl rfl)) with hnone | hwrite
  · exact .inl hnone
  · generalize hkey : Key.parent address = key at hwrite
    generalize m.get? key = v at hwrite
    cases hwrite with
    | parent _ p => exact .inr ⟨p, rfl⟩
    | noParent => exact .inl rfl
    | referral | noReferral | children | noChildren =>
      exact absurd hkey (Key.Subject.key_ne nofun)

theorem get?_referral (h : WellFormed m) (code : CodeHash) :
    m.get? (Key.referral code) = none ∨
      ∃ r : Referral, r.code = code ∧ m.get? (Key.referral code) = some r.toBytes := by
  rcases h.tree (Key.referral code) (.inl rfl) with hnone | hwrite
  · exact .inl hnone
  · generalize hkey : Key.referral code = key at hwrite
    generalize m.get? key = v at hwrite
    cases hwrite with
    | referral r =>
      exact .inr ⟨r, (Key.Subject.referral.inj (Key.Subject.key_inj.mp hkey)).symm, rfl⟩
    | noReferral => exact .inl rfl
    | parent | noParent | children | noChildren =>
      exact absurd hkey (Key.Subject.key_ne nofun)

theorem get?_children (h : WellFormed m) (address : Address) :
    m.get? (Key.children address) = none ∨
      ∃ list, m.get? (Key.children address) = some (Children.toBytes list) := by
  rcases h.tree (Key.children address) (.inr (.inr rfl)) with hnone | hwrite
  · exact .inl hnone
  · generalize hkey : Key.children address = key at hwrite
    generalize m.get? key = v at hwrite
    cases hwrite with
    | children _ list => exact .inr ⟨list, rfl⟩
    | noChildren => exact .inl rfl
    | referral | noReferral | parent | noParent =>
      exact absurd hkey (Key.Subject.key_ne nofun)

theorem eval_readNetValue (h : WellFormed m) (address : Address) :
    ∃ value?, (Tx.readNetValue address).eval m = (.ok value?, m) := by
  rcases h.get?_netValue address with hnone | ⟨r, hsome⟩
  · exact ⟨none, Tx.eval_readAs_none hnone⟩
  · exact ⟨some r, Tx.eval_readAs_some hsome (NetValue.ofBytes_toBytes r)⟩

theorem eval_readParent (h : WellFormed m) (address : Address) :
    ∃ parent?, (Tx.readParent address).eval m = (.ok parent?, m) := by
  rcases h.get?_parent address with hnone | ⟨p, hsome⟩
  · exact ⟨none, Tx.eval_readAs_none hnone⟩
  · exact ⟨some p, Tx.eval_readAs_some hsome (ParentEntry.ofBytes_toBytes p)⟩

theorem eval_readReferral (h : WellFormed m) (code : CodeHash) :
    ∃ referral?, (Tx.readReferral code).eval m = (.ok referral?, m) := by
  rcases h.get?_referral code with hnone | ⟨r, -, hsome⟩
  · exact ⟨none, Tx.eval_readAs_none hnone⟩
  · exact ⟨some r, Tx.eval_readAs_some hsome (Referral.ofBytes_toBytes r)⟩

theorem eval_readChildren (h : WellFormed m) (address : Address) :
    ∃ list, (Tx.readChildren address).eval m = (.ok list, m) := by
  rcases h.get?_children address with hnone | ⟨list, hsome⟩
  · refine ⟨[], ?_⟩
    rw [Tx.readChildren, Tx.eval_bind_ok (Tx.eval_readAs_none hnone)]
    rfl
  · obtain ⟨shown, hdecode, -⟩ := Children.ofBytes_append list []
    rw [List.append_nil] at hdecode
    refine ⟨shown, ?_⟩
    rw [Tx.readChildren, Tx.eval_bind_ok (Tx.eval_readAs_some hsome hdecode)]
    rfl

end WellFormed

theorem Forest.netValue?_eq {f : Forest MemoryStore} {address : Address} {value? : Option NetValue}
    (h : (Tx.readNetValue address).eval f.store.entries = (.ok value?, f.store.entries)) :
    f.netValue? address = .ok value? := by
  have hconfined : (Tx.readNetValue address).ReadOnly := Tx.confined_readAs _ _
  rw [netValue?, view, Engine.view_readOnly hconfined, h]

theorem Command.wellFormed_eval {f : Forest MemoryStore} (h : WellFormed f.store.entries)
    (c : Command) : WellFormed (c.eval f).2 := by
  refine h.eval (c.confined_program f.maxLevels f.capacity) fun k v hwrite => ?_
  cases c with
  | insert r => exact .inl hwrite
  | remove r => exact .inl hwrite
  | credit kind start change => exact .inr (.inl hwrite)
  | offer seed address => exact .inr (.inr hwrite)
  | push key address => exact .inr (.inr hwrite)
  | pop => exact .inr (.inr hwrite)

theorem Step.wellFormed_run {f : Forest MemoryStore} (h : WellFormed f.store.entries) (s : Step) :
    WellFormed (s.run f).2.store.entries :=
  entries_run_of_eval h fun c _ => c.wellFormed_eval h

theorem Forest.wellFormed_after (steps : List Step) :
    WellFormed (initial.after steps).store.entries :=
  after_of_step (P := fun f => WellFormed f.store.entries) (fun _ s h => s.wellFormed_run h)
    wellFormed_empty steps

end ReferralForest
