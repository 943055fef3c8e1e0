/-!
# Byte strings

Keys and values are byte strings in lexicographic order, the order of `List`.
Words are written little end or big end first at a fixed width. A byte string
that some longer string begins with has a least string above all such
extensions unless it holds nothing but `0xff`; that string bounds every scan of
a namespace.
-/

namespace ReferralForest

abbrev Bytes := List UInt8

namespace Bytes

def hexDigit (n : Nat) : Char :=
  if n < 10 then Char.ofNat (48 + n) else Char.ofNat (87 + n)

def hex (b : Bytes) : String :=
  String.ofList (b.flatMap fun x => [hexDigit (x.toNat / 16), hexDigit (x.toNat % 16)])

def littleEndian : Nat → Nat → Bytes
  | 0, _ => []
  | width + 1, n => UInt8.ofNat n :: littleEndian width (n / 256)

def ofLittleEndian : Bytes → Nat
  | [] => 0
  | b :: bs => b.toNat + 256 * ofLittleEndian bs

def bigEndian (width n : Nat) : Bytes := (littleEndian width n).reverse

def ofBigEndian (b : Bytes) : Nat := ofLittleEndian b.reverse

theorem length_littleEndian (width n : Nat) : (littleEndian width n).length = width := by
  induction width generalizing n with
  | zero => rfl
  | succ width ih => simp [littleEndian, ih]

theorem length_bigEndian (width n : Nat) : (bigEndian width n).length = width := by
  simp [bigEndian, length_littleEndian]

def count (width : Nat) : Nat := Nat.pow 256 width

theorem count_succ (width : Nat) : count (width + 1) = 256 * count width :=
  Nat.mul_comm (count width) 256

theorem ofLittleEndian_littleEndian (width n : Nat) :
    ofLittleEndian (littleEndian width n) = n % count width := by
  induction width generalizing n with
  | zero => simp [littleEndian, ofLittleEndian, count, Nat.mod_one]
  | succ width ih =>
    have hbyte : (UInt8.ofNat n).toNat = n % 256 := UInt8.toNat_ofNat'
    rw [littleEndian, ofLittleEndian, ih, hbyte, count_succ, Nat.mod_mul]

theorem littleEndian_ofLittleEndian (b : Bytes) :
    littleEndian b.length (ofLittleEndian b) = b := by
  induction b with
  | nil => rfl
  | cons x xs ih =>
    have hx := x.toNat_lt
    have hdiv : (x.toNat + 256 * ofLittleEndian xs) / 256 = ofLittleEndian xs := by omega
    have hmod : UInt8.ofNat (x.toNat + 256 * ofLittleEndian xs) = x := by
      apply UInt8.toNat_inj.mp
      rw [UInt8.toNat_ofNat']
      omega
    simp only [List.length_cons, littleEndian, ofLittleEndian, hdiv, hmod, ih]

theorem ofLittleEndian_lt (b : Bytes) : ofLittleEndian b < count b.length := by
  induction b with
  | nil => exact Nat.one_pos
  | cons x xs ih =>
    have hx := x.toNat_lt
    simp only [ofLittleEndian, List.length_cons, count_succ]
    omega

theorem ofBigEndian_bigEndian (width n : Nat) :
    ofBigEndian (bigEndian width n) = n % count width := by
  simp [ofBigEndian, bigEndian, ofLittleEndian_littleEndian]

theorem bigEndian_ofBigEndian (b : Bytes) : bigEndian b.length (ofBigEndian b) = b := by
  have h := littleEndian_ofLittleEndian b.reverse
  rw [List.length_reverse] at h
  simp [bigEndian, ofBigEndian, h]

/-- The least string above every string that begins with the given one. -/
def upperBound? : Bytes → Option Bytes
  | [] => none
  | b :: bs =>
    match upperBound? bs with
    | some bound => some (b :: bound)
    | none => if b < 0xff then some [b + 1] else none

def inScan (first key : Bytes) : Bool :=
  decide (first ≤ key) &&
    match upperBound? first with
    | some bound => decide (key < bound)
    | none => true

end Bytes
end ReferralForest
