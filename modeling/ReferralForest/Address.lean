import ReferralForest.Bytes

/-!
# Addresses, code hashes and address types

An address is 20 bytes and a code hash 32. The zero address is the root
sentinel, recorded as the inviter of every referral whose inviting referral is
unknown. Only wallets and plain scripts take part in rewards.
-/

namespace ReferralForest

inductive FixedKind
  | address
  | codeHash
  | weightedKey
  deriving DecidableEq

namespace FixedKind

def name : FixedKind → String
  | address => "address"
  | codeHash => "code hash"
  | weightedKey => "weighted key"

def width : FixedKind → Nat
  | address => 20
  | codeHash => 32
  | weightedKey => 16

end FixedKind

inductive ValueError
  | unknownAddressType (byte : UInt8)
  | invalidLength (kind : FixedKind) (actual : Nat)
  deriving DecidableEq

def ValueError.message : ValueError → String
  | unknownAddressType byte => "unknown address type byte: " ++ toString byte.toNat
  | invalidLength kind actual =>
    "invalid length for " ++ kind.name ++ ": expected " ++ toString kind.width ++
      ", got " ++ toString actual

structure FixedBytes (width : Nat) where
  toBytes : Bytes
  length_eq : toBytes.length = width
  deriving DecidableEq

namespace FixedBytes
variable {width : Nat}

def zero (width : Nat) : FixedBytes width := ⟨List.replicate width 0, List.length_replicate⟩

def ofBytes? (width : Nat) (b : Bytes) : Option (FixedBytes width) :=
  if h : b.length = width then some ⟨b, h⟩ else none

theorem ofBytes?_toBytes (x : FixedBytes width) : ofBytes? width x.toBytes = some x :=
  dif_pos x.length_eq

theorem ofBytes?_eq_some {b : Bytes} {x : FixedBytes width} :
    ofBytes? width b = some x ↔ b = x.toBytes := by
  constructor
  · intro h
    simp only [ofBytes?] at h
    split at h
    · cases h; rfl
    · cases h
  · rintro rfl; exact ofBytes?_toBytes x

def isZero (x : FixedBytes width) : Bool := x == zero width

def text (x : FixedBytes width) : String := Bytes.hex x.toBytes

def shortText (x : FixedBytes width) : String := Bytes.hex (x.toBytes.take 4)

end FixedBytes

abbrev Address := FixedBytes 20

namespace Address

def root : Address := FixedBytes.zero 20

def ofBytes (b : Bytes) : Except ValueError Address :=
  match FixedBytes.ofBytes? 20 b with
  | some a => .ok a
  | none => .error (.invalidLength .address b.length)

def debugText (a : Address) : String := "Address(" ++ a.shortText ++ ")"

def nonRoot (a : Address) : Option Address := if a.isZero then none else some a

end Address

abbrev CodeHash := FixedBytes 32

namespace CodeHash

def ofBytes (b : Bytes) : Except ValueError CodeHash :=
  match FixedBytes.ofBytes? 32 b with
  | some c => .ok c
  | none => .error (.invalidLength .codeHash b.length)

def debugText (c : CodeHash) : String := "CodeHash(" ++ c.shortText ++ ")"

def lowWord (c : CodeHash) : Nat := Bytes.ofLittleEndian (c.toBytes.take 8)

end CodeHash

/-- An ancestor credited only through its descendants has no type yet. -/
inductive AddressType
  | unset
  | wallet
  | script
  | parameterizedScript
  deriving DecidableEq

namespace AddressType

def toByte : AddressType → UInt8
  | unset => 0
  | wallet => 1
  | script => 2
  | parameterizedScript => 3

def ofByte (byte : UInt8) : Except ValueError AddressType :=
  if byte = 0 then .ok unset
  else if byte = 1 then .ok wallet
  else if byte = 2 then .ok script
  else if byte = 3 then .ok parameterizedScript
  else .error (.unknownAddressType byte)

theorem ofByte_toByte (t : AddressType) : ofByte t.toByte = .ok t := by cases t <;> rfl

def name : AddressType → String
  | unset => "Unset"
  | wallet => "Wallet"
  | script => "Script"
  | parameterizedScript => "ParameterizedScript"

def isRewardable : AddressType → Bool
  | wallet | script => true
  | unset | parameterizedScript => false

end AddressType
end ReferralForest
