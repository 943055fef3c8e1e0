import ReferralForest.Proofs.Invitations

/-!
# What a withdrawal does to the tree

A withdrawal takes a referral away, the parent of its address, and the address from the
children of the inviter that its previous code names then: with the referral itself
gone, and with whatever has come and gone since the invitation. A list that becomes
empty goes too.
-/

namespace ReferralForest

variable {m : ByteMap Bytes}

def leftUnder (m : ByteMap Bytes) (r : Referral) : Address :=
  if r.code = r.previous then .root else namedAt m r.previous

def withdrawn (m : ByteMap Bytes) (r : Referral) (parent : Address) (list : List Address) :
    ByteMap Bytes :=
  let rest := (m.erase (Key.referral r.code)).erase (Key.parent r.address)
  if list.isEmpty then rest.erase (Key.children parent)
  else rest.insert (Key.children parent) (Children.toBytes list)

theorem namedAt_erase_referral (m : ByteMap Bytes) (r : Referral) :
    namedAt (m.erase (Key.referral r.code)) r.previous = leftUnder m r := by
  simp only [namedAt, referralAt, decodedAt_erase, Key.Subject.key_inj, Key.Subject.referral.injEq,
    leftUnder]
  split <;> rfl

theorem WellFormed.erase (h : WellFormed m) (k : Bytes) : WellFormed (m.erase k) := by
  intro key
  rw [ByteMap.get?_erase]
  split
  · exact .inl rfl
  · exact h key

theorem eval_withdraw (h : WellFormed m) (r : Referral) :
    (Tx.withdraw r).eval m = (.ok (), withdrawn m r (leftUnder m r)
      ((childrenAt m (leftUnder m r)).filter (· ≠ r.address))) := by
  have hreferral := h.erase (Key.referral r.code)
  have hinviter := hreferral.eval_inviterOf r
  rw [namedAt_erase_referral] at hinviter
  generalize leftUnder m r = parent at hinviter ⊢
  have hsame : childrenAt ((m.erase (Key.referral r.code)).erase (Key.parent r.address)) parent =
      childrenAt m parent := by
    simp only [childrenAt, decodedAt_erase, Key.Subject.key_inj, reduceCtorEq, if_false]
  have hchildren := (hreferral.erase (Key.parent r.address)).eval_childrenAt parent
  rw [hsame] at hchildren
  generalize hlist : (childrenAt m parent).filter (· ≠ r.address) = list
  rw [Tx.withdraw]
  show ((Tx.inviterOf r) >>= fun _ => _).eval (m.erase (Key.referral r.code)) = _
  rw [Tx.eval_bind_ok hinviter]
  show ((Tx.readChildren parent) >>= fun _ => _).eval
    ((m.erase (Key.referral r.code)).erase (Key.parent r.address)) = _
  rw [Tx.eval_bind_ok hchildren, withdrawn]
  simp only [hlist]
  split <;> rfl

section Withdrawn
variable {r : Referral} {parent : Address} {list : List Address}

theorem WellFormed.withdrawn (h : WellFormed m) : WellFormed (withdrawn m r parent list) := by
  have hrest := (h.erase (Key.referral r.code)).erase (Key.parent r.address)
  rw [ReferralForest.withdrawn]
  split
  · exact hrest.erase _
  · exact hrest.insert (.inl (.children parent list))

theorem referralAt_withdrawn (m : ByteMap Bytes) (code : CodeHash) :
    referralAt (withdrawn m r parent list) code =
      if r.code = code then none else referralAt m code := by
  rw [withdrawn]
  split <;> simp only [referralAt, decodedAt_insert, decodedAt_erase, Key.Subject.key_inj,
    reduceCtorEq, Key.Subject.referral.injEq, if_false]

theorem parentAt_withdrawn (m : ByteMap Bytes) (b : Address) :
    parentAt (withdrawn m r parent list) b = if r.address = b then none else parentAt m b := by
  rw [withdrawn]
  split <;> simp only [parentAt, decodedAt_insert, decodedAt_erase, Key.Subject.key_inj,
    reduceCtorEq, Key.Subject.parent.injEq, if_false]

theorem get?_withdrawn (m : ByteMap Bytes) (key : Bytes) :
    (withdrawn m r parent list).get? key =
      if Key.children parent = key then
        if list.isEmpty then none else some (Children.toBytes list)
      else if Key.parent r.address = key then none
      else if Key.referral r.code = key then none
      else m.get? key := by
  rw [withdrawn]
  cases list <;> simp only [List.isEmpty, if_true, if_false, Bool.false_eq_true,
    ByteMap.get?_insert, ByteMap.get?_erase]

theorem get?_withdrawn_children (m : ByteMap Bytes) (p : Address) :
    (withdrawn m r parent list).get? (Key.children p) =
      if parent = p then if list.isEmpty then none else some (Children.toBytes list)
      else m.get? (Key.children p) := by
  simp only [get?_withdrawn, Key.Subject.key_inj, Key.Subject.children.injEq, reduceCtorEq,
    if_false]

theorem childrenAt_withdrawn (m : ByteMap Bytes) (h : list.length < Bytes.count 8) (p : Address) :
    childrenAt (withdrawn m r parent list) p = if parent = p then list else childrenAt m p := by
  rw [childrenAt, decodedAt, get?_withdrawn_children]
  by_cases hp : parent = p
  · rw [if_pos hp, if_pos hp]
    cases list with
    | nil => rfl
    | cons a list =>
      rw [if_neg (by simp), Option.bind_some, Children.ofBytes_toBytes h]
      rfl
  · rw [if_neg hp, if_neg hp]
    rfl

end Withdrawn
end ReferralForest
