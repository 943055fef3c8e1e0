import ReferralForest.Proofs.Keys

/-!
# The key schema

All indexes share one space of keys. The first byte of a key tells its kind and with it the
length, so that no key begins another one. Words written most significant byte first stand in
the order of the numbers, so the slots of the heap stand in the order of their positions.
-/

namespace ReferralForest

namespace Bytes

theorem ofLittleEndian_append (b : Bytes) (x : UInt8) :
    ofLittleEndian (b ++ [x]) = ofLittleEndian b + count b.length * x.toNat := by
  induction b with
  | nil => simp [ofLittleEndian, count]
  | cons y ys ih =>
    rw [List.cons_append, ofLittleEndian, ih, ofLittleEndian, List.length_cons, count_succ,
      Nat.mul_assoc, Nat.mul_add, Nat.add_assoc]

theorem ofBigEndian_cons (x : UInt8) (b : Bytes) :
    ofBigEndian (x :: b) = count b.length * x.toNat + ofBigEndian b := by
  rw [ofBigEndian, List.reverse_cons, ofLittleEndian_append, List.length_reverse, Nat.add_comm,
    ofBigEndian]

theorem ofBigEndian_lt (b : Bytes) : ofBigEndian b < count b.length := by
  rw [ofBigEndian, ← List.length_reverse]
  exact ofLittleEndian_lt b.reverse

theorem lt_iff_ofBigEndian_lt {b c : Bytes} (h : b.length = c.length) :
    b < c ↔ ofBigEndian b < ofBigEndian c := by
  induction b generalizing c with
  | nil =>
    obtain rfl : c = [] := List.length_eq_zero_iff.mp h.symm
    simp
  | cons x xs ih =>
    cases c with
    | nil => cases h
    | cons y ys =>
      have hlen : xs.length = ys.length := Nat.succ.inj h
      have hxs := ofBigEndian_lt xs
      have hys := ofBigEndian_lt ys
      rw [List.cons_lt_cons_iff, ih hlen, ofBigEndian_cons, ofBigEndian_cons, ← hlen]
      rw [← hlen] at hys
      -- the first bytes decide, for what follows them is less than one unit of theirs
      rcases Nat.lt_trichotomy x.toNat y.toNat with hlt | heq | hgt
      · have hunit := Nat.mul_le_mul_left (count xs.length) (Nat.succ_le_of_lt hlt)
        rw [Nat.mul_succ] at hunit
        exact iff_of_true (.inl hlt) (by omega)
      · obtain rfl := UInt8.toNat_inj.mp heq
        simp
      · have hunit := Nat.mul_le_mul_left (count xs.length) (Nat.succ_le_of_lt hgt)
        rw [Nat.mul_succ] at hunit
        refine iff_of_false ?_ (by omega)
        rintro (hlt | ⟨rfl, -⟩)
        · exact Nat.lt_asymm hgt hlt
        · exact Nat.lt_irrefl _ hgt

end Bytes

namespace Key

theorem slot_lt_slot {p q : Nat} (hp : p < UInt64.size) (hq : q < UInt64.size) :
    slot p < slot q ↔ p < q := by
  have hlen : (Bytes.bigEndian 8 p).length = (Bytes.bigEndian 8 q).length := by
    rw [Bytes.length_bigEndian, Bytes.length_bigEndian]
  rw [slot, slot, List.cons_lt_cons_iff, Bytes.lt_iff_ofBigEndian_lt hlen,
    Bytes.ofBigEndian_bigEndian, Bytes.ofBigEndian_bigEndian, Bytes.count_eight,
    Nat.mod_eq_of_lt hp, Nat.mod_eq_of_lt hq]
  simp [UInt8.lt_irrefl]

namespace Subject
variable {s t : Subject}

theorem head?_key (s : Subject) : s.key.head? = some s.tag := by
  cases s <;> rfl

theorem tag_ne_reserved (s : Subject) : s.tag ≠ reservedTag := by
  cases s <;> exact ne_of_beq_false rfl

def width (tag : UInt8) : Nat :=
  if tag = referralTag then 33 else if tag = slotTag then 9 else if tag = sizeTag then 1 else 21

theorem length_key (s : Subject) : s.key.length = width s.tag := by
  cases s with
  | children a | parent a | netValue a => exact congrArg Nat.succ a.length_eq
  | referral c => exact congrArg Nat.succ c.length_eq
  | slot position => exact congrArg Nat.succ (Bytes.length_bigEndian 8 position)
  | heapSize => rfl

theorem tag_eq_of_prefix (h : s.key <+: t.key) : s.tag = t.tag := by
  obtain ⟨rest, hrest⟩ := h
  have hhead := congrArg List.head? hrest
  rw [List.head?_append, head?_key, head?_key] at hhead
  exact Option.some.inj hhead

/-- A key has the length of all keys under its tag, so one that begins another is that other. -/
theorem eq_of_prefix (h : s.key <+: t.key) : s = t := by
  have hlen : s.key.length = t.key.length := by
    rw [length_key, length_key, tag_eq_of_prefix h]
  exact key_inj.mp (h.eq_of_length hlen)

end Subject

/-- A key is that of one subject only, is under no reserved tag and begins no other key; slots
stand in the order of their positions; the two readers of keys accept exactly what is written. -/
theorem schema_unambiguous :
    (∀ s t : Subject, s.key = t.key ↔ s = t) ∧
    (∀ s : Subject, ¬[reservedTag] <+: s.key) ∧
    (∀ s t : Subject, s.key <+: t.key ↔ s = t) ∧
    (∀ p q : Fin UInt64.size, slot p < slot q ↔ p < q) ∧
    (∀ tag key a, address? tag key = some a ↔ key = tag :: a.toBytes) ∧
    (∀ key p, position? key = some p ↔ key = slot p ∧ p < UInt64.size) := by
  refine ⟨fun _ _ => Subject.key_inj, fun s hs => ?_,
    fun s t => ⟨Subject.eq_of_prefix, fun h => h ▸ List.prefix_rfl⟩,
    fun p q => slot_lt_slot p.isLt q.isLt, fun _ _ _ => address?_eq_some,
    fun _ _ => position?_eq_some⟩
  obtain ⟨rest, hrest⟩ := hs
  have hhead := Subject.head?_key s
  rw [← hrest] at hhead
  exact s.tag_ne_reserved (Option.some.inj hhead).symm

end Key
end ReferralForest
