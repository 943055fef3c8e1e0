import ReferralForest.Proofs.CreditWalk
import ReferralForest.Proofs.Indexes

/-!
# What an invitation does to the tree

An invitation writes a referral, its parent and the parent's list of children. In a
well-formed map it always succeeds. The parent is found with the new referral already
there, so one that names its own code becomes its own parent; any other code finds the
parent as the map was before. No other parent changes, and no amount.
-/

namespace ReferralForest

variable {m : ByteMap Bytes}

def invited (m : ByteMap Bytes) (r : Referral) (parent : Address) (list : List Address) :
    ByteMap Bytes :=
  ((m.insert (Key.referral r.code) r.toBytes).insert (Key.parent r.address)
    (ParentEntry.toBytes parent)).insert (Key.children parent) (Children.toBytes list)

def joinedUnder (m : ByteMap Bytes) (r : Referral) : Address :=
  if r.code = r.previous then r.address else namedAt m r.previous

theorem namedAt_insert_referral (m : ByteMap Bytes) (r : Referral) :
    namedAt (m.insert (Key.referral r.code) r.toBytes) r.previous = joinedUnder m r := by
  simp only [namedAt, referralAt, decodedAt_insert, Key.Subject.key_inj,
    Key.Subject.referral.injEq, Referral.ofBytes_toBytes, Except.toOption, joinedUnder]
  split <;> rfl

theorem eval_invite_eq (h : WellFormed m) (r : Referral) :
    (Tx.invite r).eval m = (.ok (), invited m r (joinedUnder m r)
      (childrenAt m (joinedUnder m r) ++ [r.address])) := by
  have hreferral : WellFormed (m.insert (Key.referral r.code) r.toBytes) :=
    h.insert (.inl (.referral r))
  have hinviter := hreferral.eval_inviterOf r
  rw [namedAt_insert_referral] at hinviter
  generalize joinedUnder m r = parent at hinviter ⊢
  have hparent : WellFormed ((m.insert (Key.referral r.code) r.toBytes).insert
      (Key.parent r.address) (ParentEntry.toBytes parent)) :=
    hreferral.insert (.inl (.parent r.address parent))
  have hsame : childrenAt ((m.insert (Key.referral r.code) r.toBytes).insert
      (Key.parent r.address) (ParentEntry.toBytes parent)) parent = childrenAt m parent := by
    simp only [childrenAt, decodedAt_insert, Key.Subject.key_inj, reduceCtorEq, if_false]
  have hchildren := hparent.eval_childrenAt parent
  rw [hsame] at hchildren
  rw [Tx.invite, Tx.eval_bind_ok (Tx.eval_write _ _ m), Tx.eval_bind_ok hinviter,
    Tx.eval_bind_ok (Tx.eval_write _ _ _), Tx.eval_bind_ok hchildren]
  rfl

theorem eval_invite (h : WellFormed m) {r : Referral} (hother : r.previous ≠ r.code) :
    ∃ inviter? list, (Tx.readReferral r.previous).eval m = (.ok inviter?, m) ∧
      (Tx.invite r).eval m =
        (.ok (), invited m r ((inviter?.map Referral.address).getD .root) list) := by
  have heval := eval_invite_eq h r
  rw [joinedUnder, if_neg (Ne.symm hother)] at heval
  exact ⟨_, _, h.eval_referralAt r.previous, heval⟩

section Invited
variable {r : Referral} {parent : Address} {list : List Address}

theorem WellFormed.invited (h : WellFormed m) : WellFormed (invited m r parent list) :=
  ((h.insert (.inl (.referral r))).insert (.inl (.parent r.address parent))).insert
    (.inl (.children parent list))

theorem amountOf_invited (m : ByteMap Bytes) (x : Address) :
    amountOf (invited m r parent list) x = amountOf m x := by
  apply amountOf_congr
  simp only [invited, ByteMap.get?_insert, Key.Subject.key_inj, reduceCtorEq, if_false]

theorem referralAt_invited (m : ByteMap Bytes) (code : CodeHash) :
    referralAt (invited m r parent list) code =
      if r.code = code then some r else referralAt m code := by
  simp only [referralAt, invited, decodedAt_insert, Key.Subject.key_inj, reduceCtorEq,
    Key.Subject.referral.injEq, if_false, Referral.ofBytes_toBytes, Except.toOption]

theorem parentAt_invited (m : ByteMap Bytes) (b : Address) :
    parentAt (invited m r parent list) b =
      if r.address = b then some parent else parentAt m b := by
  simp only [parentAt, invited, decodedAt_insert, Key.Subject.key_inj, reduceCtorEq,
    Key.Subject.parent.injEq, if_false, ParentEntry.ofBytes_toBytes, Except.toOption]

theorem childrenAt_invited (m : ByteMap Bytes) (h : list.length < Bytes.count 8) (p : Address) :
    childrenAt (invited m r parent list) p = if parent = p then list else childrenAt m p := by
  simp only [childrenAt, invited, decodedAt_insert, Key.Subject.key_inj,
    Key.Subject.children.injEq, reduceCtorEq, if_false, Children.ofBytes_toBytes h, Except.toOption]
  split <;> rfl

theorem get?_invited (m : ByteMap Bytes) (key : Bytes) :
    (invited m r parent list).get? key =
      if Key.children parent = key then some (Children.toBytes list)
      else if Key.parent r.address = key then some (ParentEntry.toBytes parent)
      else if Key.referral r.code = key then some r.toBytes
      else m.get? key := by
  simp only [invited, ByteMap.get?_insert]

theorem get?_invited_children (m : ByteMap Bytes) (p : Address) :
    (invited m r parent list).get? (Key.children p) =
      if parent = p then some (Children.toBytes list) else m.get? (Key.children p) := by
  simp only [get?_invited, Key.Subject.key_inj, Key.Subject.children.injEq, reduceCtorEq, if_false]

theorem get?_invited_parent (m : ByteMap Bytes) (b : Address) :
    (invited m r parent list).get? (Key.parent b) =
      if r.address = b then some (ParentEntry.toBytes parent) else m.get? (Key.parent b) := by
  simp only [get?_invited, Key.Subject.key_inj, reduceCtorEq, Key.Subject.parent.injEq, if_false]

theorem parentOf_invited_self (m : ByteMap Bytes) (r : Referral) (parent : Address)
    (list : List Address) : parentOf (invited m r parent list) r.address = parent.nonRoot := by
  have hget : (invited m r parent list).get? (Key.parent r.address) =
      some (ParentEntry.toBytes parent) := by
    rw [get?_invited_parent, if_pos rfl]
  rw [parentOf_eq (Tx.eval_readAs_some hget (ParentEntry.ofBytes_toBytes parent))]
  rfl

theorem parentOf_invited_of_ne (m : ByteMap Bytes) {b : Address} (hb : b ≠ r.address) :
    parentOf (invited m r parent list) b = parentOf m b := by
  apply parentOf_congr
  rw [get?_invited_parent, if_neg (Ne.symm hb)]

theorem readReferral_invited {code : CodeHash} {r' : Referral}
    (h : (Tx.readReferral code).eval (invited m r parent list) =
      (.ok (some r'), invited m r parent list)) :
    r' = r ∨ (Tx.readReferral code).eval m = (.ok (some r'), m) := by
  have hget : (invited m r parent list).get? (Key.referral code) =
      if r.code = code then some r.toBytes else m.get? (Key.referral code) := by
    simp only [get?_invited, Key.Subject.key_inj, reduceCtorEq, Key.Subject.referral.injEq,
      if_false]
  by_cases hcode : r.code = code
  · rw [if_pos hcode] at hget
    have hread := h.symm.trans (Tx.eval_readAs_some hget (Referral.ofBytes_toBytes r))
    exact .inl (Option.some.inj (Except.ok.inj (congrArg Prod.fst hread)))
  · rw [if_neg hcode] at hget
    exact .inr (Tx.eval_readAs_of_eq hget.symm h)

end Invited

end ReferralForest
