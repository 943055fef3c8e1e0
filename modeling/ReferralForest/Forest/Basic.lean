import ReferralForest.Key
import ReferralForest.Record
import ReferralForest.Store.Engine

/-!
# The referral forest and its stored fields

A forest is a store with two limits: how many levels a walk to the root may take
and how many tickets the lottery reservoir holds. Each stored field is read
through its key and its record, both inside a transaction and on the committed
entries.
-/

namespace ReferralForest

structure Forest (S : Type) where
  store : S
  /-- Only a cycle among the referrals is as deep as the default. -/
  maxLevels : Nat := 4294967295
  capacity : Nat := 1000

namespace Forest
variable {S T α : Type} [Transaction T] [Engine S T]

def transact (f : Forest S) (program : Tx α) (commits : α → Bool) :
    Except StoreError α × Forest S :=
  let (answer, store) := Engine.transact f.store program commits
  (answer, { f with store })

def view (f : Forest S) (program : Tx α) : Except StoreError α := Engine.view f.store program

end Forest

namespace Tx

def readReferral (code : CodeHash) : Tx (Option Referral) :=
  readAs (Key.referral code) Referral.ofBytes

def readParent (address : Address) : Tx (Option Address) :=
  readAs (Key.parent address) ParentEntry.ofBytes

def readChildren (address : Address) : Tx (List Address) := do
  return (← readAs (Key.children address) Children.ofBytes).getD []

def readNetValue (address : Address) : Tx (Option NetValue) :=
  readAs (Key.netValue address) NetValue.ofBytes

def readHeapSize : Tx Nat := do
  return (← readAs Key.heapSize HeapSize.ofBytes).getD 0

def readSlot (position : Nat) : Tx (Option Ticket) :=
  readAs (Key.slot position) Ticket.ofBytes

def readOccupied (position size : Nat) : Tx Ticket := do
  match ← readSlot position with
  | some ticket => return ticket
  | none => fail (.invariant (.missingSlot position size))

def writeHeapSize (size : Nat) : Tx Unit := write Key.heapSize (HeapSize.toBytes size)

def writeSlot (position : Nat) (ticket : Ticket) : Tx Unit :=
  write (Key.slot position) ticket.toBytes

end Tx
end ReferralForest
