import ReferralForest.Key

/-!
# Keys apart

Keys under different tags differ, and so do the slot keys of different positions of
64 bits.
-/

namespace ReferralForest

theorem Bytes.count_eight : count 8 = UInt64.size := rfl

namespace Key

theorem slot_inj {p q : Nat} (hp : p < UInt64.size) (hq : q < UInt64.size) :
    slot p = slot q ↔ p = q := by
  refine ⟨fun h => ?_, fun h => h ▸ rfl⟩
  have hbytes : Bytes.bigEndian 8 p = Bytes.bigEndian 8 q := (List.cons.inj h).2
  have hread := congrArg Bytes.ofBigEndian hbytes
  rw [Bytes.ofBigEndian_bigEndian, Bytes.ofBigEndian_bigEndian, Bytes.count_eight,
    Nat.mod_eq_of_lt hp, Nat.mod_eq_of_lt hq] at hread
  exact hread

theorem position?_eq_some {key : Bytes} {p : Nat} :
    position? key = some p ↔ key = slot p ∧ p < UInt64.size := by
  cases key with
  | nil => simp [position?, slot]
  | cons t suffix =>
    rw [position?, slot, List.cons.injEq]
    constructor
    · intro h
      split at h
      · rename_i hslot
        obtain ⟨rfl, hlen⟩ := hslot
        cases h
        have hread := Bytes.bigEndian_ofBigEndian suffix
        have hlt := Bytes.ofLittleEndian_lt suffix.reverse
        rw [hlen] at hread
        rw [List.length_reverse, hlen, Bytes.count_eight] at hlt
        exact ⟨⟨rfl, hread.symm⟩, hlt⟩
      · cases h
    · rintro ⟨⟨rfl, rfl⟩, hp⟩
      rw [if_pos ⟨rfl, Bytes.length_bigEndian 8 p⟩, Bytes.ofBigEndian_bigEndian, Bytes.count_eight,
        Nat.mod_eq_of_lt hp]

theorem ne_of_tag {tag tag' : UInt8} {suffix suffix' : Bytes} (h : tag ≠ tag') :
    tag :: suffix ≠ tag' :: suffix' := fun heq => h (List.cons.inj heq).1

theorem heapSize_ne_slot (p : Nat) : heapSize ≠ slot p := ne_of_tag (by decide)

theorem tagged_inj {width : Nat} {tag : UInt8} {x y : FixedBytes width} :
    tag :: x.toBytes = tag :: y.toBytes ↔ x = y := by
  refine ⟨fun h => ?_, fun h => h ▸ rfl⟩
  obtain ⟨x, hx⟩ := x
  obtain ⟨y, hy⟩ := y
  cases (List.cons.inj h).2
  rfl

theorem Subject.key_inj {s t : Subject} : s.key = t.key ↔ s = t := by
  refine ⟨fun h => ?_, fun h => h ▸ rfl⟩
  cases s with
  | children a =>
    cases t with
    | children b => rw [tagged_inj.mp h]
    | _ => exact absurd h (ne_of_tag (ne_of_beq_false rfl))
  | parent a =>
    cases t with
    | parent b => rw [tagged_inj.mp h]
    | _ => exact absurd h (ne_of_tag (ne_of_beq_false rfl))
  | netValue a =>
    cases t with
    | netValue b => rw [tagged_inj.mp h]
    | _ => exact absurd h (ne_of_tag (ne_of_beq_false rfl))
  | referral c =>
    cases t with
    | referral d => rw [tagged_inj.mp h]
    | _ => exact absurd h (ne_of_tag (ne_of_beq_false rfl))
  | slot p =>
    cases t with
    | slot q => rw [Fin.val_inj.mp ((slot_inj p.isLt q.isLt).mp h)]
    | _ => exact absurd h (ne_of_tag (ne_of_beq_false rfl))
  | heapSize =>
    cases t with
    | heapSize => rfl
    | _ => exact absurd h (ne_of_tag (ne_of_beq_false rfl))

theorem Subject.key_ne {s t : Subject} (h : s ≠ t) : s.key ≠ t.key := mt key_inj.mp h

theorem netValue_lt_netValue {a b : Address} : netValue a < netValue b ↔ a.toBytes < b.toBytes := by
  simp [Subject.key, Subject.tag, Subject.suffix]

end Key
end ReferralForest
