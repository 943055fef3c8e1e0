import ReferralForest.Store.Engine

/-!
# Scripts of single operations

A script is a list of operations in one write transaction. Unlike a program it
goes on after an operation that fails, and may read from outside while the
transaction is open: that read asks the store as it is then, which everybody
shares and which would be left if the transaction were abandoned at once. In the
end the transaction commits or is abandoned.
-/

namespace ReferralForest

inductive Operation
  | put (key value : Bytes)
  | delete (key : Bytes)
  | get (key : Bytes)
  | holds (key : Bytes)
  | outside (key : Bytes)
  deriving DecidableEq

inductive Answer
  | done
  | flag (b : Bool)
  | value (v : Option Bytes)
  deriving DecidableEq

namespace Operation
variable (S : Type) {T : Type} [Transaction T] [Engine S T]

def run (t : T) : Operation → Except StoreError Answer × T
  | put key value =>
    let (r, t) := Transaction.put t key value
    (r.map fun _ => .done, t)
  | delete key =>
    let (r, t) := Transaction.delete t key
    (r.map .flag, t)
  | get key => ((Transaction.get t key).map .value, t)
  | holds key => ((Transaction.get t key).map fun v => .flag v.isSome, t)
  | outside key =>
    let shared : S := Engine.abandon t
    ((Transaction.get (Engine.start shared) key).map .value, t)

def runAll : List Operation → T → List (Except StoreError Answer) × T
  | [], t => ([], t)
  | op :: ops, t =>
    let (r, t) := op.run S t
    let (rs, t) := runAll ops t
    (r :: rs, t)

end Operation

def Engine.script {S T : Type} [Transaction T] [Engine S T] (store : S) (ops : List Operation)
    (commits : Bool) : List (Except StoreError Answer) × S :=
  let (answers, t) := Operation.runAll S ops (Engine.start store)
  (answers, if commits then Engine.commit t else Engine.abandon t)

end ReferralForest
