import ReferralForest.Forest.Basic

/-!
# Referrals and who invited whom

Beside the referrals the store keeps the inviter of each address and, for each
inviter, the list of addresses it invited in the order they came. The inviter is
found through the code of the inviting referral, after the referral's own record
has been written or deleted; when no referral has that code it is the root
sentinel.
-/

namespace ReferralForest
namespace Tx

def inviterOf (r : Referral) : Tx Address := do
  match ← readReferral r.previous with
  | some inviting => return inviting.address
  | none => return .root

def invite (r : Referral) : Tx Unit := do
  write (Key.referral r.code) r.toBytes
  let parent ← inviterOf r
  write (Key.parent r.address) (ParentEntry.toBytes parent)
  let children ← readChildren parent
  write (Key.children parent) (Children.toBytes (children ++ [r.address]))

/-- Removing a referral that is not stored is no error. -/
def withdraw (r : Referral) : Tx Unit := do
  let _ ← remove (Key.referral r.code)
  let parent ← inviterOf r
  let _ ← remove (Key.parent r.address)
  let children := (← readChildren parent).filter (· ≠ r.address)
  if children.isEmpty then
    let _ ← remove (Key.children parent)
  else
    write (Key.children parent) (Children.toBytes children)

end Tx

namespace Forest
variable {S T : Type} [Transaction T] [Engine S T]

def insert (f : Forest S) (r : Referral) : Except StoreError Unit × Forest S :=
  f.transact (Tx.invite r) fun _ => true

def remove (f : Forest S) (r : Referral) : Except StoreError Unit × Forest S :=
  f.transact (Tx.withdraw r) fun _ => true

def referral? (f : Forest S) (code : CodeHash) : Except StoreError (Option Referral) :=
  f.view (Tx.readReferral code)

def inviter? (f : Forest S) (address : Address) : Except StoreError (Option Address) :=
  f.view do return (← Tx.readParent address).bind Address.nonRoot

def parentEntry? (f : Forest S) (address : Address) : Except StoreError (Option Address) :=
  f.view (Tx.readParent address)

def children (f : Forest S) (address : Address) : Except StoreError (List Address) :=
  f.view (Tx.readChildren address)

def hasCode (f : Forest S) (code : CodeHash) : Except StoreError Bool :=
  f.view do return (← Tx.read (Key.referral code)).isSome

def isReferred (f : Forest S) (address : Address) : Except StoreError Bool :=
  f.view do return (← Tx.read (Key.parent address)).isSome

end Forest
end ReferralForest
