import ReferralForest.Forest.Basic

/-!
# Aggregate net values

A change to the value of an address is added to its record and to the record of
every ancestor, in one transaction. The walk goes from parent to parent and ends
at a root; one that is longer than the limit is a cycle. The first record takes
the given type and its own address as origin, the others keep theirs.
-/

namespace ReferralForest

namespace NetValue

def credit (r : NetValue) (address : Address) (change : Int64) : Except Violation NetValue :=
  let sum := r.amount.toInt + change.toInt
  if sum < Int64.minValue.toInt ∨ Int64.maxValue.toInt < sum then
    .error (.netValueOverflow address change.toInt)
  else if sum < 0 then .error (.negativeNetValue address sum)
  else .ok { r with amount := Int64.ofInt sum }

end NetValue

namespace Tx

def creditOne (address : Address) (change : Int64) (stamp : NetValue → NetValue) : Tx Unit := do
  let record := (← readNetValue address).getD .fresh
  match (stamp record).credit address change with
  | .ok record => write (Key.netValue address) record.toBytes
  | .error violation => fail (.invariant violation)

/-- Credits `address` and its ancestors with `levels` levels left of `limit`. -/
def creditFrom (start : Address) (limit : Nat) (change : Int64) :
    (levels : Nat) → (stamp : NetValue → NetValue) → Address → Tx Unit
  | 0, _, _ => fail (.invariant (.cycleDetected start limit))
  | levels + 1, stamp, address => do
    creditOne address change stamp
    match (← readParent address).bind Address.nonRoot with
    | some parent => creditFrom start limit change levels id parent
    | none => return ()

def credit (limit : Nat) (kind : AddressType) (start : Address) (change : Int64) : Tx Unit :=
  creditFrom start limit change limit (fun r => { r with kind, origin := start }) start

end Tx

namespace Forest
variable {S T : Type} [Transaction T] [Engine S T]

def credit (f : Forest S) (kind : AddressType) (start : Address) (change : Int64) :
    Except StoreError Unit × Forest S :=
  f.transact (Tx.credit f.maxLevels kind start change) fun _ => true

def netValue? (f : Forest S) (address : Address) : Except StoreError (Option NetValue) :=
  f.view (Tx.readNetValue address)

def netValueOf? (e : Bytes × Bytes) : Option NetValue :=
  if (Key.address? Key.netValueTag e.1).isSome then (NetValue.ofBytes e.2).toOption else none

/-- Every record in key order; entries of another form are left out. -/
def netValues (f : Forest S) : Except StoreError (List NetValue) := do
  return (← Engine.scan f.store [Key.netValueTag]).filterMap netValueOf?

def rewardable (f : Forest S) : Except StoreError (List NetValue) := do
  return (← f.netValues).filter (·.kind.isRewardable)

end Forest
end ReferralForest
