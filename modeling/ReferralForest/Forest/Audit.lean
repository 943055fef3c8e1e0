import ReferralForest.Forest.Basic

/-!
# Audit of the stored indexes

The check reads all namespaces and lists what does not fit: parents and children
must be two views of one relation, every referral's address must have a parent,
the lottery slots must be exactly the positions below the heap size and in heap
order, and the reserved namespace must be empty. It writes nothing and goes on
after a finding; only a heap size that does not decode stops it.
-/

namespace ReferralForest

inductive Finding
  | malformedParent
  | malformedChildren
  | unlistedChild (child parent : Address)
  | unmatchedChild (child parent : Address)
  | malformedReferral (cause : Malformed)
  | missingParent (code : CodeHash) (address : Address)
  | overCapacity (size capacity : Nat)
  | slotBeyondSize (position size : Nat)
  | malformedSlot
  | missingSlot (position : Nat)
  | disorderedSlot (position : Nat)
  | reservedKey
  deriving DecidableEq

def Finding.message : Finding → String
  | malformedParent => "malformed parent entry"
  | malformedChildren => "malformed children entry"
  | unlistedChild child parent =>
    child.text ++ " has parent " ++ parent.text ++ " but is not among its children"
  | unmatchedChild child parent =>
    child.text ++ " is listed under " ++ parent.text ++ " without a matching parent entry"
  | malformedReferral cause => "malformed referral: " ++ (StoreError.serialization cause).message
  | missingParent code address =>
    "referral " ++ code.text ++ " for " ++ address.text ++ " has no parent entry"
  | overCapacity size capacity => (Violation.heapOverCapacity size capacity).message
  | slotBeyondSize position size =>
    "lottery slot " ++ toString position ++ " lies beyond heap size " ++ toString size
  | malformedSlot => "malformed lottery slot"
  | missingSlot position => "lottery slot " ++ toString position ++ " is missing"
  | disorderedSlot position =>
    "lottery slot " ++ toString position ++ " is smaller than its parent"
  | reservedKey => "entries present under the reserved key-id namespace"

structure Report where
  referrals : Nat
  parents : Nat
  slots : Nat
  findings : List Finding
  deriving DecidableEq

def Report.isHealthy (r : Report) : Bool := r.findings.isEmpty

namespace Audit

def decodeAll {α β : Type} (decode : Bytes × Bytes → Except β α) :
    List (Bytes × Bytes) → List α × List β
  | [] => ([], [])
  | e :: rest =>
    let (good, bad) := decodeAll decode rest
    match decode e with
    | .ok a => (a :: good, bad)
    | .error b => (good, b :: bad)

def parentOf (e : Bytes × Bytes) : Except Finding (Address × Address) :=
  match Key.address? Key.parentTag e.1, ParentEntry.ofBytes e.2 with
  | some child, .ok parent => .ok (child, parent)
  | _, _ => .error .malformedParent

def childrenOf (e : Bytes × Bytes) : Except Finding (Address × List Address) :=
  match Key.address? Key.childrenTag e.1, Children.ofBytes e.2 with
  | some parent, .ok children => .ok (parent, children)
  | _, _ => .error .malformedChildren

def slotOf (size : Nat) (e : Bytes × Bytes) : Except Finding (Nat × Ticket) :=
  match Key.position? e.1, Ticket.ofBytes e.2 with
  | some position, .ok ticket =>
    if position < size then .ok (position, ticket) else .error (.slotBeyondSize position size)
  | _, _ => .error .malformedSlot

def referralFinding? (parents : List (Address × Address)) (e : Bytes × Bytes) : Option Finding :=
  match Referral.ofBytes e.2 with
  | .ok r =>
    if (parents.lookup r.address).isSome then none else some (.missingParent r.code r.address)
  | .error cause => some (.malformedReferral cause)

def slotFinding? (slots : List (Nat × Ticket)) (position : Nat) : Option Finding :=
  match slots.lookup position with
  | none => some (.missingSlot position)
  | some ticket =>
    if position = 0 then none else
      match slots.lookup ((position - 1) / 2) with
      | some parent => if ticket.key < parent.key then some (.disorderedSlot position) else none
      | none => none

def treeFindings (parentEntries childrenEntries referralEntries : List (Bytes × Bytes)) :
    List Finding :=
  let (parents, badParents) := decodeAll parentOf parentEntries
  let (lists, badLists) := decodeAll childrenOf childrenEntries
  let unlisted := parents.filterMap fun (child, parent) =>
    if ((lists.lookup parent).getD []).contains child then none
    else some (.unlistedChild child parent)
  let unmatched := lists.flatMap fun (parent, children) => children.filterMap fun child =>
    if parents.lookup child = some parent then none else some (.unmatchedChild child parent)
  badParents ++ badLists ++ unlisted ++ unmatched ++
    referralEntries.filterMap (referralFinding? parents)

def heapFindings (size capacity : Nat) (slotEntries : List (Bytes × Bytes)) : List Finding :=
  let (slots, badSlots) := decodeAll (slotOf size) slotEntries
  let beyond := if capacity < size then [.overCapacity size capacity] else []
  beyond ++ badSlots ++ (List.range size).filterMap (slotFinding? slots)

end Audit

namespace Forest
variable {S T : Type} [Transaction T] [Engine S T]
open Audit

def audit (f : Forest S) : Except StoreError Report := do
  let parents ← Engine.scan f.store [Key.parentTag]
  let children ← Engine.scan f.store [Key.childrenTag]
  let referrals ← Engine.scan f.store [Key.referralTag]
  let size ← f.view Tx.readHeapSize
  let slots ← Engine.scan f.store [Key.slotTag]
  let reserved ← Engine.scan f.store [Key.reservedTag]
  return {
    referrals := referrals.length
    parents := parents.length
    slots := slots.length
    findings :=
      treeFindings parents children referrals ++ heapFindings size f.capacity slots ++
        if reserved.isEmpty then [] else [.reservedKey] }

end Forest
end ReferralForest
