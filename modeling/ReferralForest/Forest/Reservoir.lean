import ReferralForest.Forest.Heap

/-!
# The lottery reservoir

The reservoir keeps the tickets with the largest keys that were ever offered. A
candidate's weight is its net value at the time and its draw comes from a seed;
one that has no positive value cannot take part. While there is room every
ticket is kept; in a full reservoir a ticket takes the place of the smallest one
if its key is larger.
-/

namespace ReferralForest

inductive Admission
  | noNetValue
  | ineligible
  | inserted
  | replaced (evicted : Ticket)
  | discarded
  deriving DecidableEq

namespace Admission

def admitted : Admission → Bool
  | inserted | replaced _ => true
  | noNetValue | ineligible | discarded => false

def name : Admission → String
  | noNetValue => "NoAnv"
  | ineligible => "Ineligible"
  | inserted => "Inserted"
  | replaced _ => "Replaced"
  | discarded => "Discarded"

def evicted? : Admission → Option Ticket
  | replaced ticket => some ticket
  | _ => none

end Admission

namespace Tx

def consider (capacity : Nat) (ticket : Ticket) : Tx Admission := do
  let size ← readHeapSize
  if capacity < size then fail (.invariant (.heapOverCapacity size capacity))
  else if size < capacity then
    let _ ← heapPush capacity ticket
    return .inserted
  else if size = 0 then return .discarded
  else if (← readOccupied 0 size).key < ticket.key then
    match ← heapPop with
    | some evicted =>
      let _ ← heapPush capacity ticket
      return .replaced evicted
    | none => fail (.invariant (.missingSlot 0 size))
  else return .discarded

/-- Offers `address` with its current net value as weight and the low word of `seed`
as draw. -/
def offer (capacity : Nat) (seed : CodeHash) (address : Address) : Tx Admission := do
  match ← readNetValue address with
  | none => return .noNetValue
  | some value =>
    match WeightedKey.ofDraw? seed.lowWord value.amount.toInt with
    | none => return .ineligible
    | some key => consider capacity ⟨key, address⟩

end Tx

namespace Forest
variable {S T : Type} [Transaction T] [Engine S T]

def offer (f : Forest S) (seed : CodeHash) (address : Address) :
    Except StoreError Admission × Forest S :=
  f.transact (Tx.offer f.capacity seed address) Admission.admitted

def push (f : Forest S) (key : WeightedKey) (address : Address) :
    Except StoreError Bool × Forest S :=
  f.transact (Tx.heapPush f.capacity ⟨key, address⟩) id

def pop (f : Forest S) : Except StoreError (Option Ticket) × Forest S :=
  f.transact Tx.heapPop Option.isSome

def leastKey? (f : Forest S) : Except StoreError (Option WeightedKey) :=
  f.view do return (← Tx.readSlot 0).map Ticket.key

def heapSize (f : Forest S) : Except StoreError Nat := f.view Tx.readHeapSize

def tickets (f : Forest S) : Except StoreError (List Ticket) :=
  f.view do
    let size ← Tx.readHeapSize
    Tx.readTickets size 0 size

end Forest
end ReferralForest
