import ReferralForest.Error
import ReferralForest.WeightedKey

/-!
# Stored records

A referral names a new address, the code that identifies it and the code of the
inviting referral. A net value is what one address and everyone below it are
worth together. A ticket is a weighted key with the address that drew it.

Fields are written one after the other, numbers at fixed width with the least
significant byte first, a list after its length in eight bytes. Reading takes
fields in order, stops at the first that is missing or wrong, and leaves any
bytes beyond the last field alone. Tickets have an exact length.
-/

namespace ReferralForest
open Numeric

structure Referral where
  code : CodeHash
  address : Address
  previous : CodeHash
  kind : AddressType
  deriving DecidableEq

structure NetValue where
  kind : AddressType
  origin : Address
  amount : Int64
  deriving DecidableEq

structure Ticket where
  key : WeightedKey
  address : Address
  deriving DecidableEq

abbrev Field (α : Type) := Bytes → Except Malformed (α × Bytes)

namespace Field

def fixed (width : Nat) : Field (FixedBytes width) := fun b =>
  match FixedBytes.ofBytes? width (b.take width) with
  | some front => .ok (front, b.drop width)
  | none => .error .endOfInput

def word : Field Nat := fun b => do
  let (bytes, rest) ← fixed 8 b
  return (Bytes.ofLittleEndian bytes.toBytes, rest)

def addressType : Field AddressType
  | [] => .error .endOfInput
  | byte :: rest =>
    match AddressType.ofByte byte with
    | .ok kind => .ok (kind, rest)
    | .error e => .error (.value e)

def addresses : Nat → Field (List Address)
  | 0, b => .ok ([], b)
  | count + 1, b => do
    let (address, b) ← fixed 20 b
    let (others, b) ← addresses count b
    return (address :: others, b)

end Field

namespace Referral

def toBytes (r : Referral) : Bytes :=
  r.code.toBytes ++ r.address.toBytes ++ r.previous.toBytes ++ [r.kind.toByte]

def ofBytes (b : Bytes) : Except Malformed Referral := do
  let (code, b) ← Field.fixed 32 b
  let (address, b) ← Field.fixed 20 b
  let (previous, b) ← Field.fixed 32 b
  let (kind, _) ← Field.addressType b
  return ⟨code, address, previous, kind⟩

end Referral

namespace NetValue

def fresh : NetValue := ⟨.unset, .root, 0⟩

def toBytes (r : NetValue) : Bytes :=
  r.kind.toByte :: r.origin.toBytes ++ Bytes.littleEndian 8 r.amount.toUInt64.toNat

def ofBytes (b : Bytes) : Except Malformed NetValue := do
  let (kind, b) ← Field.addressType b
  let (origin, b) ← Field.fixed 20 b
  let (amount, _) ← Field.word b
  return ⟨kind, origin, (UInt64.ofNat amount).toInt64⟩

end NetValue

namespace Children

def toBytes (children : List Address) : Bytes :=
  Bytes.littleEndian 8 children.length ++ children.flatMap FixedBytes.toBytes

def ofBytes (b : Bytes) : Except Malformed (List Address) := do
  let (count, b) ← Field.word b
  let (children, _) ← Field.addresses count b
  return children

end Children

namespace WeightedKey

def toBytes (k : WeightedKey) : Bytes := k.rank.toBytes

def ofBytes (b : Bytes) : Except ValueError WeightedKey :=
  match Decimal.ofBytes? b with
  | some rank => .ok ⟨rank⟩
  | none => .error (.invalidLength .weightedKey b.length)

end WeightedKey

namespace Ticket

def toBytes (e : Ticket) : Bytes := e.key.toBytes ++ e.address.toBytes

def ofBytes (b : Bytes) : Except Malformed Ticket :=
  match Decimal.ofBytes? (b.take 16), FixedBytes.ofBytes? 20 (b.drop 16) with
  | some rank, some address => .ok ⟨⟨rank⟩, address⟩
  | _, _ => .error (.slotLength b.length)

end Ticket

namespace ParentEntry

def toBytes (parent : Address) : Bytes := parent.toBytes

def ofBytes (b : Bytes) : Except Malformed Address :=
  match Address.ofBytes b with
  | .ok parent => .ok parent
  | .error e => .error (.value e)

end ParentEntry

namespace HeapSize

def toBytes (size : Nat) : Bytes := Bytes.bigEndian 8 size

def ofBytes (b : Bytes) : Except Malformed Nat :=
  if b.length = 8 then .ok (Bytes.ofBigEndian b) else .error .heapSizeLength

end HeapSize
end ReferralForest
