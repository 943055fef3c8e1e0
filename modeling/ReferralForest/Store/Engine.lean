import ReferralForest.ByteMap
import ReferralForest.Store.Transaction

/-!
# Engines

An engine holds committed entries in key order and runs one write transaction at
a time. A transaction sees its own writes; nobody else does before it commits,
and one that is abandoned leaves no entry behind. What an engine refuses, and
what it remembers besides its entries, is its own affair.
-/

namespace ReferralForest

class Transaction (T : Type) where
  get : T → Bytes → Except StoreError (Option Bytes)
  put : T → Bytes → Bytes → Except StoreError Unit × T
  delete : T → Bytes → Except StoreError Bool × T

class Engine (S : Type) (T : outParam Type) where
  entries : S → ByteMap Bytes
  scan : S → Bytes → Except StoreError (List (Bytes × Bytes))
  start : S → T
  commit : T → S
  abandon : T → S

namespace Tx
variable {T α : Type} [Transaction T]

def run : Tx α → T → Except StoreError α × T
  | done a, t => (.ok a, t)
  | fail e, t => (.error e, t)
  | get k next, t =>
    match Transaction.get t k with
    | .ok v => (next v).run t
    | .error e => (.error e, t)
  | put k v next, t =>
    match Transaction.put t k v with
    | (.ok _, t) => next.run t
    | (.error e, t) => (.error e, t)
  | delete k next, t =>
    match Transaction.delete t k with
    | (.ok existed, t) => (next existed).run t
    | (.error e, t) => (.error e, t)

end Tx

namespace Engine
variable {S T α : Type} [Transaction T] [Engine S T]

/-- Runs a program in a transaction of its own, which commits when the program
succeeds with an answer that `commits`. -/
def transact (store : S) (program : Tx α) (commits : α → Bool) : Except StoreError α × S :=
  match program.run (Engine.start store) with
  | (.ok a, t) => (.ok a, if commits a then Engine.commit t else Engine.abandon t)
  | (.error e, t) => (.error e, Engine.abandon t)

def view (store : S) (program : Tx α) : Except StoreError α :=
  (program.run (Engine.start store)).1

end Engine
end ReferralForest
