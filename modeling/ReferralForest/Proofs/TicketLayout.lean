import ReferralForest.Proofs.HeapStore
import ReferralForest.Proofs.Verdict
import Mathlib.Data.Nat.Bitwise
import Mathlib.Logic.Function.Iterate

/-!
# Tickets that move between slots

A ticket that is moved was read from one slot and is written to another. Reading drops the
flag bits that mean nothing and brings a scale above 28 down to it, so the bytes of a slot
may change with the first move. The ticket does not change, and no later move changes
anything.
-/

namespace ReferralForest

namespace Bytes

theorem ofLittleEndian_inj {b c : Bytes} (hlength : b.length = c.length) :
    ofLittleEndian b = ofLittleEndian c ↔ b = c := by
  refine ⟨fun h => ?_, congrArg _⟩
  rw [← littleEndian_ofLittleEndian b, ← littleEndian_ofLittleEndian c, hlength, h]

theorem byte_land (x y : UInt8) (m n : Nat) :
    (x.toNat + 256 * m) &&& (y.toNat + 256 * n) = (x &&& y).toNat + 256 * (m &&& n) := by
  have hbits (z : UInt8) (k i : Nat) : (z.toNat + 256 * k).testBit i =
      if i < 8 then z.toNat.testBit i else k.testBit (i - 8) := by
    rw [Nat.add_comm]
    exact Nat.testBit_two_pow_mul_add k z.toNat_lt i
  apply Nat.eq_of_testBit_eq
  intro i
  rw [Nat.testBit_and, hbits, hbits, hbits]
  split <;> simp [UInt8.toNat_and]

theorem ofLittleEndian_land {b mask : Bytes} (hlength : b.length = mask.length) :
    ofLittleEndian b &&& ofLittleEndian mask = ofLittleEndian (List.zipWith (· &&& ·) b mask) := by
  induction b generalizing mask with
  | nil => simp [ofLittleEndian]
  | cons x xs ih =>
    cases mask with
    | nil => simp at hlength
    | cons y ys =>
      simp only [ofLittleEndian, List.zipWith_cons_cons, byte_land]
      rw [ih (by simpa using hlength)]

theorem land_low_five (x : UInt8) : x &&& 0x1f = UInt8.ofNat (x.toNat % 32) := by
  have hmask : x.toNat &&& 31 = x.toNat % 32 := Nat.and_two_pow_sub_one_eq_mod x.toNat 5
  apply UInt8.toNat_inj.mp
  rw [UInt8.toNat_and, UInt8.toNat_ofNat']
  exact hmask.trans (Nat.mod_eq_of_lt (by omega)).symm

theorem land_top (x : UInt8) : x &&& 0x80 = if 0x80 ≤ x then 0x80 else 0 := by
  have hx := x.toNat_lt
  have hmask : x.toNat &&& 128 = (x.toNat.testBit 7).toNat * 128 := Nat.and_two_pow x.toNat 7
  have htop : x.toNat.testBit 7 = decide (0x80 ≤ x) := by
    have hle : 0x80 ≤ x ↔ 128 ≤ x.toNat := UInt8.le_iff_toNat_le
    rw [Nat.testBit_eq_decide_div_mod_eq, decide_eq_decide, hle]
    omega
  apply UInt8.toNat_inj.mp
  rw [UInt8.toNat_and]
  refine hmask.trans ?_
  rw [htop]
  by_cases h : 0x80 ≤ x <;> simp [h]

end Bytes

namespace Numeric.Decimal

def flagWord (b : Bytes) : Nat := Bytes.ofLittleEndian (b.take 4)

def scaleField (b : Bytes) : Nat := flagWord b / 2 ^ 16 % 32

def mantissaField (b : Bytes) : Nat := Bytes.ofLittleEndian ((b.drop 4).take 12)

/-- All flag bits but those of the sign and the scale are clear, and the scale needs no
lowering. -/
def Canonical (b : Bytes) : Prop := flagWord b &&& 0x801F0000 = flagWord b ∧ scaleField b ≤ 28

structure ReadFrom (x : Decimal) (b : Bytes) : Prop where
  negative : x.negative = (flagWord b).testBit 31
  kept : scaleField b ≤ 28 → x.mantissa = mantissaField b ∧ x.scale = scaleField b
  lowered : 28 < scaleField b → x.scale = 28 ∧
    let unit := 10 ^ (scaleField b - 28)
    x.mantissa = mantissaField b / unit + if 5 ≤ mantissaField b % unit then 1 else 0

section Fields
variable {x₀ x₁ scale sign : UInt8} {rest : Bytes}

theorem flagWord_cons : flagWord (x₀ :: x₁ :: scale :: sign :: rest) =
    x₀.toNat + 256 * (x₁.toNat + 256 * (scale.toNat + 256 * sign.toNat)) := by
  simp [flagWord, Bytes.ofLittleEndian]

theorem scaleField_cons : scaleField (x₀ :: x₁ :: scale :: sign :: rest) = scale.toNat % 32 := by
  have h₀ := x₀.toNat_lt
  have h₁ := x₁.toNat_lt
  rw [scaleField, flagWord_cons]
  omega

theorem testBit_flagWord_cons : (flagWord (x₀ :: x₁ :: scale :: sign :: rest)).testBit 31 =
    decide (0x80 ≤ sign) := by
  have h₀ := x₀.toNat_lt
  have h₁ := x₁.toNat_lt
  have h₂ := scale.toNat_lt
  have h₃ := sign.toNat_lt
  have hle : 0x80 ≤ sign ↔ 128 ≤ sign.toNat := UInt8.le_iff_toNat_le
  rw [Nat.testBit_eq_decide_div_mod_eq, decide_eq_decide, hle, flagWord_cons]
  omega

theorem mantissaField_cons (h : rest.length = 12) :
    mantissaField (x₀ :: x₁ :: scale :: sign :: rest) = Bytes.ofLittleEndian rest := by
  simp [mantissaField, List.take_of_length_le h.le]

theorem flagWord_land_cons : flagWord (x₀ :: x₁ :: scale :: sign :: rest) &&& 0x801F0000 =
      flagWord (x₀ :: x₁ :: scale :: sign :: rest) ↔
    [0, 0, UInt8.ofNat (scale.toNat % 32), if 0x80 ≤ sign then 0x80 else 0] =
      [x₀, x₁, scale, sign] := by
  let flags := [x₀, x₁, scale, sign]
  let mask : Bytes := [0, 0, 0x1f, 0x80]
  have hland : Bytes.ofLittleEndian flags &&& Bytes.ofLittleEndian mask =
      Bytes.ofLittleEndian (List.zipWith (· &&& ·) flags mask) := Bytes.ofLittleEndian_land rfl
  have hmasked : List.zipWith (· &&& ·) flags mask =
      [0, 0, UInt8.ofNat (scale.toNat % 32), if 0x80 ≤ sign then 0x80 else 0] := by
    simp [flags, mask, Bytes.land_low_five, Bytes.land_top]
  rw [hmasked] at hland
  exact (Eq.congr_left hland).trans (Bytes.ofLittleEndian_inj rfl)

end Fields

theorem exists_cons_of_ofBytes? {b : Bytes} {x : Decimal} (h : ofBytes? b = some x) :
    ∃ x₀ x₁ scale sign rest, b = x₀ :: x₁ :: scale :: sign :: rest ∧ ∃ hrest : rest.length = 12,
      x = ofRaw (decide (0x80 ≤ sign)) (Bytes.ofLittleEndian rest) (scale.toNat % 32)
        (ofLittleEndian_lt_twoPow hrest) := by
  match b with
  | [] | [_] | [_, _] | [_, _, _] => cases h
  | x₀ :: x₁ :: scale :: sign :: rest =>
    rw [ofBytes?] at h
    split at h
    · rename_i hrest
      exact ⟨x₀, x₁, scale, sign, rest, rfl, hrest, (Option.some.inj h).symm⟩
    · cases h

theorem readFrom_of_ofBytes? {b : Bytes} {x : Decimal} (h : ofBytes? b = some x) :
    x.ReadFrom b := by
  obtain ⟨x₀, x₁, scale, sign, rest, rfl, hrest, rfl⟩ := exists_cons_of_ofBytes? h
  refine ⟨?_, fun hscale => ?_, fun hscale => ?_⟩
  · rw [testBit_flagWord_cons, ofRaw]
    split <;> rfl
  · rw [scaleField_cons] at hscale ⊢
    rw [mantissaField_cons hrest, ofRaw, dif_pos hscale]
    exact ⟨rfl, rfl⟩
  · rw [scaleField_cons] at hscale ⊢
    rw [mantissaField_cons hrest, ofRaw, dif_neg (Nat.not_le.mpr hscale)]
    exact ⟨rfl, rfl⟩

theorem toBytes_eq_iff_canonical {b : Bytes} {x : Decimal} (h : ofBytes? b = some x) :
    x.toBytes = b ↔ Canonical b := by
  obtain ⟨x₀, x₁, scale, sign, rest, rfl, hrest, rfl⟩ := exists_cons_of_ofBytes? h
  have hrest' : Bytes.littleEndian 12 (Bytes.ofLittleEndian rest) = rest := by
    rw [← hrest, Bytes.littleEndian_ofLittleEndian]
  rw [Canonical, flagWord_land_cons, scaleField_cons]
  by_cases hscale : scale.toNat % 32 ≤ 28
  · have hbytes : (ofRaw (decide (0x80 ≤ sign)) (Bytes.ofLittleEndian rest) (scale.toNat % 32)
        (ofLittleEndian_lt_twoPow hrest)).toBytes =
        [0, 0, UInt8.ofNat (scale.toNat % 32), if 0x80 ≤ sign then 0x80 else 0] ++ rest := by
      simp [ofRaw, hscale, toBytes, hrest']
    have hcons : x₀ :: x₁ :: scale :: sign :: rest = [x₀, x₁, scale, sign] ++ rest := rfl
    rw [hbytes, and_iff_left hscale, hcons, List.append_left_inj]
  · refine ⟨fun hbytes => ?_, fun hcanonical => absurd hcanonical.2 hscale⟩
    -- a lowered decimal has the scale 28, which is not what these bytes say
    simp only [ofRaw, hscale, toBytes, dif_neg, not_false_eq_true, List.cons_append,
      List.cons.injEq] at hbytes
    rw [← hbytes.2.2.1] at hscale
    exact absurd (by decide) hscale

end Numeric.Decimal

/-- Moves the ticket at `source` from each position to the next, as a sift moves one. -/
def Tx.relocate (size : Nat) : (source : Nat) → (targets : List Nat) → Tx Unit
  | _, [] => pure ()
  | source, target :: targets => do
    let ticket ← readOccupied source size
    writeSlot target ticket
    relocate size target targets

namespace Ticket
open Numeric
variable {b : Bytes} {e : Ticket} {m : ByteMap Bytes} {source : Nat}

theorem fields_of_ofBytes (h : ofBytes b = .ok e) :
    Decimal.ofBytes? (b.take 16) = some e.key.rank ∧ e.address.toBytes = b.drop 16 := by
  rw [ofBytes] at h
  split at h
  · rename_i rank address hrank haddress
    cases h
    exact ⟨hrank, (FixedBytes.ofBytes?_eq_some.mp haddress).symm⟩
  · cases h

theorem toBytes_eq_iff (h : ofBytes b = .ok e) : e.toBytes = b ↔ Decimal.Canonical (b.take 16) := by
  obtain ⟨hrank, haddress⟩ := fields_of_ofBytes h
  have hsplit : e.toBytes = b ↔ e.key.rank.toBytes ++ b.drop 16 = b.take 16 ++ b.drop 16 := by
    rw [List.take_append_drop, toBytes, haddress, WeightedKey.toBytes]
  rw [hsplit, List.append_left_inj, Decimal.toBytes_eq_iff_canonical hrank]

def moved (b : Bytes) : Bytes :=
  match ofBytes b with
  | .ok e => e.toBytes
  | .error _ => b

theorem moved_of_ofBytes (h : ofBytes b = .ok e) : moved b = e.toBytes := by
  rw [moved, h]

theorem ofBytes_moved (b : Bytes) : ofBytes (moved b) = ofBytes b := by
  cases h : ofBytes b with
  | ok e => rw [moved_of_ofBytes h, ofBytes_toBytes]
  | error cause => rw [moved, h, h]

theorem moved_moved (b : Bytes) : moved (moved b) = moved b := by
  cases h : ofBytes b with
  | ok e => rw [moved_of_ofBytes h, moved_of_ofBytes e.ofBytes_toBytes]
  | error cause =>
    have hb : moved b = b := by rw [moved, h]
    rw [hb, hb]

theorem iterate_moved_succ (b : Bytes) (n : Nat) : moved^[n + 1] b = moved b := by
  rw [Function.iterate_succ_apply, Function.iterate_fixed (moved_moved b)]

theorem ofBytes_iterate_moved (b : Bytes) (n : Nat) : ofBytes (moved^[n] b) = ofBytes b := by
  cases n with
  | zero => rfl
  | succ n => rw [iterate_moved_succ, ofBytes_moved]

theorem eval_relocate (hget : m.get? (Key.slot source) = some b) (h : ofBytes b = .ok e)
    (size : Nat) (targets : List Nat) :
    ∃ m', (Tx.relocate size source targets).eval m = (.ok (), m') ∧
      m'.get? (Key.slot (targets.getLastD source)) = some (moved^[targets.length] b) := by
  induction targets generalizing m source b with
  | nil => exact ⟨m, rfl, hget⟩
  | cons target targets ih =>
    have hself : (m.insert (Key.slot target) e.toBytes).get? (Key.slot target) =
        some (moved b) := by simp [ByteMap.get?_insert, moved_of_ofBytes h]
    obtain ⟨m', heval, hlast⟩ := ih hself ((ofBytes_moved b).trans h)
    refine ⟨m', ?_, ?_⟩
    · rw [Tx.relocate, Tx.eval_bind_ok (Heap.eval_readOccupied ⟨b, hget, h⟩ size)]
      exact heval
    · rw [List.getLastD_cons, List.length_cons, Function.iterate_succ_apply]
      exact hlast

/-- A ticket reads back as the same decimal and address. Any 36 bytes are read as a ticket in
range, with the flags masked and the scale lowered, and writing it gives back those bytes
when that changed nothing. However often it is moved from slot to slot its bytes change at
most the first time, and the ticket itself and its order among others never do. -/
theorem moves_settle :
    (∀ e : Ticket, ofBytes e.toBytes = .ok e) ∧
    (∀ b, (∃ e, ofBytes b = .ok e) ↔ b.length = 36) ∧
    (∀ b e, ofBytes b = .ok e →
      e.key.rank.mantissa < 2 ^ 96 ∧ e.key.rank.scale ≤ 28 ∧
      e.key.rank.ReadFrom (b.take 16) ∧ e.address.toBytes = b.drop 16 ∧
      (e.toBytes = b ↔ Decimal.Canonical (b.take 16))) ∧
    (∀ b n, moved^[n + 1] b = moved b ∧ ofBytes (moved^[n] b) = ofBytes b) ∧
    (∀ b c n k d e d' e', ofBytes b = .ok d → ofBytes c = .ok e →
      ofBytes (moved^[n] b) = .ok d' → ofBytes (moved^[k] c) = .ok e' →
      (d'.key ≤ e'.key ↔ d.key ≤ e.key)) ∧
    (∀ m source b e, m.get? (Key.slot source) = some b → ofBytes b = .ok e →
      ∀ size targets, ∃ m', (Tx.relocate size source targets).eval m = (.ok (), m') ∧
        m'.get? (Key.slot (targets.getLastD source)) = some (moved^[targets.length] b) ∧
        (Tx.readOccupied (targets.getLastD source) size).eval m' = (.ok e, m')) := by
  refine ⟨ofBytes_toBytes, fun b => exists_ofBytes, fun b e h => ?_,
    fun b n => ⟨iterate_moved_succ b n, ofBytes_iterate_moved b n⟩, ?_, ?_⟩
  · obtain ⟨hrank, haddress⟩ := fields_of_ofBytes h
    exact ⟨e.key.rank.mantissa_lt, e.key.rank.scale_le, Decimal.readFrom_of_ofBytes? hrank,
      haddress, toBytes_eq_iff h⟩
  · intro b c n k d e d' e' hd he hd' he'
    rw [ofBytes_iterate_moved] at hd' he'
    obtain rfl : d = d' := Except.ok.inj (hd.symm.trans hd')
    obtain rfl : e = e' := Except.ok.inj (he.symm.trans he')
    exact Iff.rfl
  · intro m source b e hget h size targets
    obtain ⟨m', heval, hlast⟩ := eval_relocate hget h size targets
    have hread := (ofBytes_iterate_moved b targets.length).trans h
    exact ⟨m', heval, hlast, Heap.eval_readOccupied ⟨_, hlast, hread⟩ size⟩

-- 1005 at scale 31 with all flag bits set: the remainder 5 of 1000 counts as one
example : Decimal.ofBytes? ([0xff, 0xff, 0xff, 0xff] ++ Bytes.littleEndian 12 1005) =
    some ⟨true, 2, 28, by decide, by decide⟩ := by
  decide

end Ticket
end ReferralForest
