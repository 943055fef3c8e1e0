import ReferralForest.Address

/-!
# Keys

Every key is a one-byte tag followed by a suffix of fixed width: an address for
the children, the parent and the net value of an address, a code hash for a
referral, eight bytes of a position, most significant first, for a slot of the
lottery heap, and nothing for the size of that heap. One tag is reserved; no key
is ever written under it.
-/

namespace ReferralForest.Key

def childrenTag : UInt8 := 0x63
def referralTag : UInt8 := 0x72
def reservedTag : UInt8 := 0x6b
def parentTag : UInt8 := 0x70
def netValueTag : UInt8 := 0x61
def sizeTag : UInt8 := 0x73
def slotTag : UInt8 := 0x76

inductive Subject
  | children (a : Address)
  | parent (a : Address)
  | netValue (a : Address)
  | referral (c : CodeHash)
  | slot (position : Fin UInt64.size)
  | heapSize

namespace Subject

def tag : Subject → UInt8
  | children _ => childrenTag
  | parent _ => parentTag
  | netValue _ => netValueTag
  | referral _ => referralTag
  | slot _ => slotTag
  | heapSize => sizeTag

def suffix : Subject → Bytes
  | children a | parent a | netValue a => a.toBytes
  | referral c => c.toBytes
  | slot position => Bytes.bigEndian 8 position
  | heapSize => []

def key (s : Subject) : Bytes := s.tag :: s.suffix

end Subject

abbrev children (a : Address) : Bytes := (Subject.children a).key
abbrev parent (a : Address) : Bytes := (Subject.parent a).key
abbrev netValue (a : Address) : Bytes := (Subject.netValue a).key
abbrev referral (c : CodeHash) : Bytes := (Subject.referral c).key
def heapSize : Bytes := [sizeTag]
def slot (position : Nat) : Bytes := slotTag :: Bytes.bigEndian 8 position

def address? (tag : UInt8) : Bytes → Option Address
  | t :: suffix => if t = tag then FixedBytes.ofBytes? 20 suffix else none
  | [] => none

def position? : Bytes → Option Nat
  | t :: suffix =>
    if t = slotTag ∧ suffix.length = 8 then some (Bytes.ofBigEndian suffix) else none
  | [] => none

theorem address?_eq_some {tag : UInt8} {key : Bytes} {a : Address} :
    address? tag key = some a ↔ key = tag :: a.toBytes := by
  cases key with
  | nil => simp [address?]
  | cons t suffix =>
    simp only [address?, List.cons.injEq]
    split
    · rename_i h
      simp [h, FixedBytes.ofBytes?_eq_some]
    · rename_i h
      simp [h]

end ReferralForest.Key
