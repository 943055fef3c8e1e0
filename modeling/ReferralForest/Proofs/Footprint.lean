import ReferralForest.Proofs.Evaluation
import ReferralForest.Forest.Invitation
import ReferralForest.Forest.NetValue
import ReferralForest.Forest.Reservoir

/-!
# What a program may read and write

A program uses some keys to read and some writes when it reads and writes nothing else,
whatever it finds. After a program that is confined to a set of writes every key is as it
was or holds one of the allowed values. The operations of the forest fall into three parts
that write under different tags: referrals and who invited whom, net values, and the
lottery. Beside its own part a credit reads parents, and an offer one net value.
-/

namespace ReferralForest

namespace Tx
variable {α β : Type} {W : Bytes → Option Bytes → Prop}

/-- All writes of a program are in `W`; a deletion is a write without a value. -/
def Confined (W : Bytes → Option Bytes → Prop) : Tx α → Prop
  | done _ => True
  | fail _ => True
  | get _ next => ∀ v, (next v).Confined W
  | put k v next => W k (some v) ∧ next.Confined W
  | delete k next => W k none ∧ ∀ existed, (next existed).Confined W

theorem confined_bind {t : Tx α} {f : α → Tx β} (ht : t.Confined W) (hf : ∀ a, (f a).Confined W) :
    (t >>= f).Confined W := by
  induction t with
  | done a => exact hf a
  | fail e => trivial
  | get k next ih => exact fun v => ih v (ht v)
  | put k v next ih => exact ⟨ht.1, ih ht.2⟩
  | delete k next ih => exact ⟨ht.1, fun existed => ih existed (ht.2 existed)⟩

theorem confined_readAs (k : Bytes) (decode : Bytes → Except Malformed α) :
    (readAs k decode).Confined W := by
  intro v
  cases v with
  | none => trivial
  | some v =>
    simp only
    split <;> trivial

theorem get?_eval {p : Tx α} (h : p.Confined W) (m : ByteMap Bytes) (key : Bytes) :
    (p.eval m).2.get? key = m.get? key ∨ W key ((p.eval m).2.get? key) := by
  induction p generalizing m with
  | done a => exact .inl rfl
  | fail e => exact .inl rfl
  | get k next ih => exact ih (m.get? k) (h (m.get? k)) m
  | put k v next ih =>
    rcases ih h.2 (m.insert k v) with hsame | hnew
    · rw [ByteMap.get?_insert] at hsame
      by_cases hk : k = key
      · rw [if_pos hk] at hsame
        exact .inr (by rw [eval, hsame, ← hk]; exact h.1)
      · rw [if_neg hk] at hsame
        exact .inl hsame
    · exact .inr hnew
  | delete k next ih =>
    rcases ih (m.get? k).isSome (h.2 _) (m.erase k) with hsame | hnew
    · rw [ByteMap.get?_erase] at hsame
      by_cases hk : k = key
      · rw [if_pos hk] at hsame
        exact .inr (by rw [eval, hsame, ← hk]; exact h.1)
      · rw [if_neg hk] at hsame
        exact .inl hsame
    · exact .inr hnew

theorem get?_eval_of_not {p : Tx α} (h : p.Confined W) (m : ByteMap Bytes) {key : Bytes}
    (hkey : ∀ v, ¬W key v) : (p.eval m).2.get? key = m.get? key :=
  (get?_eval h m key).resolve_right (hkey _)

abbrev ReadOnly (p : Tx α) : Prop := p.Confined fun _ _ => False

/-- A program reads keys in `R` alone and makes writes in `W` alone, and where it fails by
itself that is no fault of a store. -/
def Uses (R : Bytes → Prop) (W : Bytes → Option Bytes → Prop) : Tx α → Prop
  | done _ => True
  | fail e => ∀ fault, e ≠ .backend fault
  | get k next => R k ∧ ∀ v, (next v).Uses R W
  | put k v next => W k (some v) ∧ next.Uses R W
  | delete k next => W k none ∧ ∀ existed, (next existed).Uses R W

section Uses
variable {R R' : Bytes → Prop} {W' : Bytes → Option Bytes → Prop}

theorem Uses.confined {p : Tx α} (h : p.Uses R W) : p.Confined W := by
  induction p with
  | done a => trivial
  | fail e => trivial
  | get k next ih => exact fun v => ih v (h.2 v)
  | put k v next ih => exact ⟨h.1, ih h.2⟩
  | delete k next ih => exact ⟨h.1, fun existed => ih existed (h.2 existed)⟩

theorem Uses.mono {p : Tx α} (h : p.Uses R W) (hR : ∀ k, R k → R' k)
    (hW : ∀ k v, W k v → W' k v) : p.Uses R' W' := by
  induction p with
  | done a => trivial
  | fail e => exact h
  | get k next ih => exact ⟨hR k h.1, fun v => ih v (h.2 v)⟩
  | put k v next ih => exact ⟨hW k _ h.1, ih h.2⟩
  | delete k next ih => exact ⟨hW k _ h.1, fun existed => ih existed (h.2 existed)⟩

theorem Uses.eval_ne_backend {p : Tx α} (h : p.Uses R W) (m : ByteMap Bytes)
    (fault : BackendFault) : (p.eval m).1 ≠ .error (.backend fault) := by
  induction p generalizing m with
  | done a => exact nofun
  | fail e => exact fun heq => h fault (Except.error.inj heq)
  | get k next ih => exact ih (m.get? k) (h.2 _) m
  | put k v next ih => exact ih h.2 _
  | delete k next ih => exact ih _ (h.2 _) _

theorem uses_bind {p : Tx α} {f : α → Tx β} (hp : p.Uses R W) (hf : ∀ a, (f a).Uses R W) :
    (p >>= f).Uses R W := by
  induction p with
  | done a => exact hf a
  | fail e => exact hp
  | get k next ih => exact ⟨hp.1, fun v => ih v (hp.2 v)⟩
  | put k v next ih => exact ⟨hp.1, ih hp.2⟩
  | delete k next ih => exact ⟨hp.1, fun existed => ih existed (hp.2 existed)⟩

theorem uses_readAs {k : Bytes} (h : R k) (decode : Bytes → Except Malformed α) :
    (readAs k decode).Uses R W := by
  refine ⟨h, fun v => ?_⟩
  cases v with
  | none => trivial
  | some v =>
    simp only
    split
    · trivial
    · exact fun _ => nofun

theorem uses_write {k v : Bytes} (h : W k (some v)) : (write k v).Uses R W := ⟨h, trivial⟩

theorem uses_remove {k : Bytes} (h : W k none) : (remove k).Uses R W := ⟨h, fun _ => trivial⟩

theorem uses_invariant (v : Violation) : (fail (.invariant v) : Tx α).Uses R W := fun _ => nofun

end Uses

theorem writes_readOnly {p : Tx α} (h : p.ReadOnly) (m : ByteMap Bytes) : p.writes m = 0 := by
  induction p generalizing m with
  | done a => rfl
  | fail e => rfl
  | get k next ih => exact ih (m.get? k) (h (m.get? k)) m
  | put k v next ih => exact h.1.elim
  | delete k next ih => exact h.1.elim

theorem writes_readAs {α : Type} (k : Bytes) (decode : Bytes → Except Malformed α)
    (m : ByteMap Bytes) : (readAs k decode).writes m = 0 :=
  writes_readOnly (confined_readAs k decode) m

end Tx

theorem Engine.view_readOnly {α : Type} {p : Tx α} (h : p.ReadOnly) (store : MemoryStore) :
    Engine.view store p = (p.eval store.entries).1 := by
  have hrun := MemoryTxn.run_of_allows p ⟨store, .empty⟩
  rw [Tx.writes_readOnly h, MemoryStore.view_start] at hrun
  exact (hrun fun n _ => n.zero_le).1

inductive TreeWrite : Bytes → Option Bytes → Prop
  | referral (r : Referral) : TreeWrite (Key.referral r.code) (some r.toBytes)
  | noReferral (code : CodeHash) : TreeWrite (Key.referral code) none
  | parent (child parent : Address) :
      TreeWrite (Key.parent child) (some (ParentEntry.toBytes parent))
  | noParent (child : Address) : TreeWrite (Key.parent child) none
  | children (parent : Address) (list : List Address) :
      TreeWrite (Key.children parent) (some (Children.toBytes list))
  | noChildren (parent : Address) : TreeWrite (Key.children parent) none

inductive NetValueWrite : Bytes → Option Bytes → Prop
  | record (address : Address) (r : NetValue) :
      NetValueWrite (Key.netValue address) (some r.toBytes)

inductive LotteryWrite : Bytes → Option Bytes → Prop
  | size (n : Nat) : LotteryWrite Key.heapSize (some (HeapSize.toBytes n))
  | slot (position : Nat) (ticket : Ticket) :
      LotteryWrite (Key.slot position) (some ticket.toBytes)
  | noSlot (position : Nat) : LotteryWrite (Key.slot position) none

theorem TreeWrite.tag {k : Bytes} {v : Option Bytes} (h : TreeWrite k v) :
    k.head? = some Key.referralTag ∨ k.head? = some Key.parentTag ∨
      k.head? = some Key.childrenTag := by
  cases h with
  | referral r => exact .inl rfl
  | noReferral code => exact .inl rfl
  | parent child parent => exact .inr (.inl rfl)
  | noParent child => exact .inr (.inl rfl)
  | children parent list => exact .inr (.inr rfl)
  | noChildren parent => exact .inr (.inr rfl)

theorem NetValueWrite.tag {k : Bytes} {v : Option Bytes} (h : NetValueWrite k v) :
    k.head? = some Key.netValueTag := by
  cases h
  rfl

theorem LotteryWrite.tag {k : Bytes} {v : Option Bytes} (h : LotteryWrite k v) :
    k.head? = some Key.sizeTag ∨ k.head? = some Key.slotTag := by
  cases h with
  | size n => exact .inl rfl
  | slot position ticket => exact .inr rfl
  | noSlot position => exact .inr rfl

namespace Key

inductive OfTree : Bytes → Prop
  | referral (code : CodeHash) : OfTree (Key.referral code)
  | parent (a : Address) : OfTree (Key.parent a)
  | children (a : Address) : OfTree (Key.children a)

inductive OfCredit : Bytes → Prop
  | netValue (a : Address) : OfCredit (Key.netValue a)
  | parent (a : Address) : OfCredit (Key.parent a)

inductive OfHeap : Bytes → Prop
  | size : OfHeap Key.heapSize
  | slot (position : Nat) : OfHeap (Key.slot position)

end Key

namespace Tx

section Reads
variable {W : Bytes → Option Bytes → Prop}

theorem uses_inviterOf (r : Referral) : (inviterOf r).Uses Key.OfTree W :=
  uses_bind (uses_readAs (.referral r.previous) _) fun inviting => by cases inviting <;> trivial

theorem uses_readChildren (address : Address) : (readChildren address).Uses Key.OfTree W :=
  uses_bind (uses_readAs (.children address) _) fun _ => trivial

theorem uses_readHeapSize : readHeapSize.Uses Key.OfHeap W :=
  uses_bind (uses_readAs .size _) fun _ => trivial

theorem uses_readOccupied (position size : Nat) :
    (readOccupied position size).Uses Key.OfHeap W := by
  refine uses_bind (uses_readAs (.slot position) _) fun ticket => ?_
  cases ticket with
  | some ticket => trivial
  | none => exact uses_invariant _

theorem uses_readTickets (size position count : Nat) :
    (readTickets size position count).Uses Key.OfHeap W := by
  induction count generalizing position with
  | zero => trivial
  | succ count ih =>
    exact uses_bind (uses_readOccupied _ _) fun _ =>
      uses_bind (ih (position + 1)) fun _ => trivial

end Reads

theorem uses_invite (r : Referral) : (invite r).Uses Key.OfTree TreeWrite :=
  uses_bind (uses_write (.referral r)) fun _ =>
    uses_bind (uses_inviterOf r) fun parent =>
      uses_bind (uses_write (.parent r.address parent)) fun _ =>
        uses_bind (uses_readChildren parent) fun _ => uses_write (.children parent _)

theorem uses_withdraw (r : Referral) : (withdraw r).Uses Key.OfTree TreeWrite := by
  refine uses_bind (uses_remove (.noReferral r.code)) fun _ =>
    uses_bind (uses_inviterOf r) fun parent =>
      uses_bind (uses_remove (.noParent r.address)) fun _ =>
        uses_bind (uses_readChildren parent) fun children => ?_
  simp only
  split
  · exact uses_bind (uses_remove (.noChildren parent)) fun _ => trivial
  · exact uses_write (.children parent _)

theorem uses_creditOne (address : Address) (change : Int64) (stamp : NetValue → NetValue) :
    (creditOne address change stamp).Uses Key.OfCredit NetValueWrite := by
  refine uses_bind (uses_readAs (.netValue address) _) fun record => ?_
  simp only
  split
  · exact uses_write (.record address _)
  · exact uses_invariant _

theorem uses_creditFrom (start : Address) (limit : Nat) (change : Int64) (levels : Nat)
    (stamp : NetValue → NetValue) (address : Address) :
    (creditFrom start limit change levels stamp address).Uses Key.OfCredit NetValueWrite := by
  induction levels generalizing stamp address with
  | zero => exact uses_invariant _
  | succ levels ih =>
    refine uses_bind (uses_creditOne address change stamp) fun _ =>
      uses_bind (uses_readAs (.parent address) _) fun parent => ?_
    split
    · exact ih id _
    · trivial

theorem uses_siftUp (ticket : Ticket) (size position : Nat) :
    (siftUp ticket size position).Uses Key.OfHeap LotteryWrite := by
  induction position using Nat.strongRecOn with
  | ind position ih =>
    rw [siftUp]
    split
    · exact uses_write (.slot position ticket)
    · refine uses_bind (uses_readOccupied _ _) fun parent => ?_
      split
      · exact uses_write (.slot position ticket)
      · exact uses_bind (uses_write (.slot position parent)) fun _ => ih _ (by omega)

theorem uses_heapPush (capacity : Nat) (ticket : Ticket) :
    (heapPush capacity ticket).Uses Key.OfHeap LotteryWrite := by
  refine uses_bind uses_readHeapSize fun size => ?_
  split
  · trivial
  · exact uses_bind (uses_write (.size (size + 1))) fun _ =>
      uses_bind (uses_siftUp ticket (size + 1) size) fun _ => trivial

theorem uses_settle (ticket child : Ticket) (position : Nat) {next : Tx Unit}
    (h : next.Uses Key.OfHeap LotteryWrite) :
    (settle ticket child position next).Uses Key.OfHeap LotteryWrite := by
  rw [settle]
  split
  · exact uses_write (.slot position ticket)
  · exact uses_bind (uses_write (.slot position child)) fun _ => h

theorem uses_siftDown (ticket : Ticket) (size position : Nat) :
    (siftDown ticket size position).Uses Key.OfHeap LotteryWrite := by
  fun_induction siftDown ticket size position with
  | case1 position hout => exact fun _ => nofun
  | case2 position hin hleft => exact uses_write (.slot position ticket)
  | case3 position hin hleft ihOnly ihr ihl =>
    refine uses_bind (uses_readOccupied _ _) fun left => ?_
    split
    · rename_i hright
      exact uses_settle _ _ _ (ihOnly hright)
    · rename_i hright
      refine uses_bind (uses_readOccupied _ _) fun right => ?_
      split
      · exact uses_settle _ _ _ (ihr hright)
      · exact uses_settle _ _ _ (ihl hright)

theorem uses_heapPop : heapPop.Uses Key.OfHeap LotteryWrite := by
  refine uses_bind uses_readHeapSize fun size => ?_
  split
  · trivial
  · refine uses_bind (uses_readOccupied _ _) fun least =>
      uses_bind (uses_readOccupied _ _) fun last =>
        uses_bind (uses_remove (.noSlot _)) fun _ =>
          uses_bind (uses_write (.size _)) fun _ => ?_
    split
    · exact uses_bind (uses_siftDown _ _ _) fun _ => trivial
    · trivial

theorem uses_consider (capacity : Nat) (ticket : Ticket) :
    (consider capacity ticket).Uses Key.OfHeap LotteryWrite := by
  refine uses_bind uses_readHeapSize fun size => ?_
  split
  · exact uses_invariant _
  split
  · exact uses_bind (uses_heapPush capacity ticket) fun _ => trivial
  split
  · trivial
  refine uses_bind (uses_readOccupied _ _) fun least => ?_
  split
  · refine uses_bind uses_heapPop fun evicted => ?_
    split
    · exact uses_bind (uses_heapPush capacity ticket) fun _ => trivial
    · exact uses_invariant _
  · trivial

theorem uses_offer (capacity : Nat) (seed : CodeHash) (address : Address) :
    (offer capacity seed address).Uses (fun k => Key.OfHeap k ∨ k = Key.netValue address)
      LotteryWrite := by
  refine uses_bind (uses_readAs (.inr rfl) _) fun value => ?_
  split
  · trivial
  split
  · trivial
  · exact (uses_consider capacity _).mono (fun _ => .inl) fun _ _ => id

end Tx
end ReferralForest
