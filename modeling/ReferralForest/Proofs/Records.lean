import ReferralForest.Record

/-!
# Records read back

What was written is read back, whatever bytes come after a record that has no exact
length. Each field takes its own bytes off the front, so a record reads back field
by field.
-/

namespace ReferralForest
open Numeric

namespace Field

theorem fixed_append {width : Nat} (x : FixedBytes width) (rest : Bytes) :
    fixed width (x.toBytes ++ rest) = .ok (x, rest) := by
  have htake : (x.toBytes ++ rest).take width = x.toBytes :=
    List.take_left' x.length_eq
  have hdrop : (x.toBytes ++ rest).drop width = rest := List.drop_left' x.length_eq
  rw [fixed, htake, hdrop, FixedBytes.ofBytes?_toBytes]

theorem word_append (n : Nat) (rest : Bytes) :
    word (Bytes.littleEndian 8 n ++ rest) = .ok (n % Bytes.count 8, rest) := by
  have hfixed := fixed_append ⟨Bytes.littleEndian 8 n, Bytes.length_littleEndian 8 n⟩ rest
  rw [word, hfixed]
  simp only [bind, Except.bind, pure, Except.pure, Bytes.ofLittleEndian_littleEndian]

theorem addressType_cons (kind : AddressType) (rest : Bytes) :
    addressType (kind.toByte :: rest) = .ok (kind, rest) := by
  rw [addressType, AddressType.ofByte_toByte]

theorem addresses_append (list : List Address) (rest : Bytes) :
    addresses list.length (list.flatMap FixedBytes.toBytes ++ rest) = .ok (list, rest) := by
  induction list with
  | nil => rfl
  | cons a list ih =>
    rw [List.flatMap_cons, List.append_assoc, List.length_cons, addresses, fixed_append]
    simp only [bind, Except.bind, ih, pure, Except.pure]

end Field

theorem Referral.ofBytes_append (r : Referral) (rest : Bytes) :
    Referral.ofBytes (r.toBytes ++ rest) = .ok r := by
  simp only [ofBytes, toBytes, List.append_assoc, List.cons_append, List.nil_append,
    Field.fixed_append, Field.addressType_cons, bind, Except.bind, pure, Except.pure]

theorem Referral.ofBytes_toBytes (r : Referral) : Referral.ofBytes r.toBytes = .ok r := by
  simpa using Referral.ofBytes_append r []

theorem Int64.ofWord_toWord (x : Int64) :
    (UInt64.ofNat (x.toUInt64.toNat % Bytes.count 8)).toInt64 = x := by
  have hlt : x.toUInt64.toNat < Bytes.count 8 := x.toUInt64.toNat_lt
  rw [Nat.mod_eq_of_lt hlt, UInt64.ofNat_toNat]
  rfl

theorem NetValue.ofBytes_append (r : NetValue) (rest : Bytes) :
    NetValue.ofBytes (r.toBytes ++ rest) = .ok r := by
  simp only [ofBytes, toBytes, List.append_assoc, List.cons_append, Field.fixed_append,
    Field.word_append, Field.addressType_cons, Int64.ofWord_toWord, bind, Except.bind, pure,
    Except.pure]

theorem NetValue.ofBytes_toBytes (r : NetValue) : NetValue.ofBytes r.toBytes = .ok r := by
  simpa using NetValue.ofBytes_append r []

theorem Children.length_toBytes (list : List Address) :
    (Children.toBytes list).length = 8 + 20 * list.length := by
  have hwidth (a : Address) : a.toBytes.length = 20 := a.length_eq
  induction list with
  | nil => rfl
  | cons a rest ih =>
    simp only [toBytes, List.flatMap_cons, List.length_append, List.length_cons,
      Bytes.length_littleEndian, hwidth] at ih ⊢
    omega

/-- A list that is too long for its count of eight bytes reads back shortened. -/
theorem Children.ofBytes_append (list : List Address) (rest : Bytes) :
    ∃ shown, Children.ofBytes (Children.toBytes list ++ rest) = .ok shown ∧
      (list.length < Bytes.count 8 → shown = list) := by
  let count := list.length % Bytes.count 8
  have hcount : count ≤ list.length := Nat.mod_le _ _
  have hlist : list = list.take count ++ list.drop count := (List.take_append_drop _ _).symm
  have hread := Field.addresses_append (list.take count)
    ((list.drop count).flatMap FixedBytes.toBytes ++ rest)
  rw [List.length_take_of_le hcount, ← List.append_assoc, ← List.flatMap_append, ← hlist] at hread
  refine ⟨list.take count, ?_, fun h => ?_⟩
  · rw [toBytes, ofBytes, List.append_assoc, Field.word_append]
    simp only [bind, Except.bind, pure, Except.pure]
    rw [hread]
  · rw [show count = list.length from Nat.mod_eq_of_lt h, List.take_length]

theorem Children.ofBytes_toBytes {list : List Address} (h : list.length < Bytes.count 8) :
    Children.ofBytes (Children.toBytes list) = .ok list := by
  obtain ⟨shown, hread, hshown⟩ := Children.ofBytes_append list []
  rw [List.append_nil] at hread
  rw [hread, hshown h]

namespace Numeric.Decimal

theorem ofBytes?_toBytes (x : Decimal) : ofBytes? x.toBytes = some x := by
  obtain ⟨negative, mantissa, scale, hm, hs⟩ := x
  have hlen : (Bytes.littleEndian 12 mantissa).length = 12 := Bytes.length_littleEndian 12 mantissa
  have hmant : Bytes.ofLittleEndian (Bytes.littleEndian 12 mantissa) = mantissa :=
    (Bytes.ofLittleEndian_littleEndian 12 mantissa).trans (Nat.mod_eq_of_lt hm)
  have hscale : (UInt8.ofNat scale).toNat % 32 = scale := by
    rw [UInt8.toNat_ofNat']
    omega
  have hsign : decide ((0x80 : UInt8) ≤ if negative then 0x80 else 0) = negative := by
    cases negative <;> rfl
  simp only [toBytes, List.cons_append, List.nil_append, ofBytes?, hlen, hsign, hmant, hscale,
    ofRaw, hs, dif_pos]

end Numeric.Decimal

theorem Ticket.ofBytes_toBytes (e : Ticket) : Ticket.ofBytes e.toBytes = .ok e := by
  have hkey : e.key.toBytes.length = 16 := Decimal.length_toBytes e.key.rank
  have htake : e.toBytes.take 16 = e.key.rank.toBytes := List.take_left' hkey
  have hdrop : e.toBytes.drop 16 = e.address.toBytes := List.drop_left' hkey
  rw [ofBytes, htake, hdrop, Decimal.ofBytes?_toBytes, FixedBytes.ofBytes?_toBytes]

theorem ParentEntry.ofBytes_toBytes (parent : Address) :
    ParentEntry.ofBytes (ParentEntry.toBytes parent) = .ok parent := by
  rw [ofBytes, toBytes, Address.ofBytes, FixedBytes.ofBytes?_toBytes]

theorem HeapSize.ofBytes_toBytes (size : Nat) :
    HeapSize.ofBytes (HeapSize.toBytes size) = .ok (size % Bytes.count 8) := by
  rw [ofBytes, toBytes, if_pos (Bytes.length_bigEndian 8 size), Bytes.ofBigEndian_bigEndian]

end ReferralForest
