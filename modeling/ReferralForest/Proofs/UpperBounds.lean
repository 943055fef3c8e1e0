import ReferralForest.Proofs.Scans
import ReferralForest.Store.Memory
import ReferralForest.Store.Persistent

/-!
# Bounds of scans

The bound of a string leaves out the `0xff` bytes at its end and raises the byte before
them. It is the least string above all that begin with the given one; where every byte is
`0xff` no string is above them. So a scan of either store finds the entries whose keys
begin with a string, in ascending order.
-/

namespace ReferralForest

namespace Bytes
variable {first bound other xs ys : Bytes} {x y : UInt8}

theorem upperBound?_eq_none : upperBound? first = none ↔ ∀ b ∈ first, b = 0xff := by
  induction first with
  | nil => simp [upperBound?]
  | cons x xs ih =>
    rw [upperBound?, List.forall_mem_cons, ← ih]
    cases upperBound? xs with
    | some bound => simp
    | none =>
      have htop : x < 0xff ↔ x ≠ 0xff := ⟨UInt8.ne_of_lt, UInt8.lt_of_le_of_ne (le_top x)⟩
      simp [htop]

theorem upperBound?_carry (front : Bytes) (hx : x < 0xff) (n : Nat) :
    upperBound? (front ++ x :: List.replicate n 0xff) = some (front ++ [x + 1]) := by
  induction front with
  | nil =>
    have htail : upperBound? (List.replicate n 0xff) = none := by simp [upperBound?_eq_none]
    simp [upperBound?, htail, hx]
  | cons b front ih => simp [upperBound?, ih]

def Above (first other : Bytes) : Prop := ∀ key, first <+: key → key < other

theorem not_above_nil : ¬Above first [] := fun h => List.not_lt_nil first (h first List.prefix_rfl)

theorem above_cons : Above (x :: xs) (y :: ys) ↔ x < y ∨ x = y ∧ Above xs ys := by
  constructor
  · intro h
    have hxs := List.cons_lt_cons_iff.mp (h (x :: xs) List.prefix_rfl)
    refine hxs.imp_right fun ⟨hxy, _⟩ => ⟨hxy, fun key hkey => ?_⟩
    have hkey' := h (x :: key) (List.cons_prefix_cons.mpr ⟨rfl, hkey⟩)
    simpa [hxy, UInt8.lt_irrefl] using List.cons_lt_cons_iff.mp hkey'
  · rintro h key ⟨rest, rfl⟩
    refine List.cons_lt_cons_iff.mpr (h.imp_right fun ⟨hxy, habove⟩ => ⟨hxy, ?_⟩)
    exact habove (xs ++ rest) (List.prefix_append xs rest)

structure IsLeastAbove (first bound : Bytes) : Prop where
  above : Above first bound
  least : ∀ other, Above first other → bound ≤ other

theorem not_above_of_none (h : upperBound? first = none) : ¬Above first other := by
  induction first generalizing other with
  | nil => exact fun habove => List.lt_irrefl other (habove other List.nil_prefix)
  | cons x xs ih =>
    rw [upperBound?_eq_none, List.forall_mem_cons, ← upperBound?_eq_none] at h
    cases other with
    | nil => exact not_above_nil
    | cons y ys =>
      rw [above_cons, h.1]
      rintro (hlt | ⟨-, habove⟩)
      · exact absurd (le_top y) (UInt8.not_le.mpr hlt)
      · exact ih h.2 habove

theorem above_of_some (h : upperBound? first = some bound) : Above first bound :=
  fun key hkey => ((prefix_iff first key).mp hkey).2 bound h

theorem le_of_above (h : upperBound? first = some bound) (habove : Above first other) :
    bound ≤ other := by
  induction first generalizing bound other with
  | nil => cases h
  | cons x xs ih =>
    cases other with
    | nil => exact absurd habove not_above_nil
    | cons y ys =>
      rw [above_cons] at habove
      rw [upperBound?] at h
      cases hxs : upperBound? xs with
      | some bound' =>
        obtain rfl : x :: bound' = bound := by simpa [hxs] using h
        exact List.cons_le_cons_iff.mpr (habove.imp_right (And.imp_right (ih hxs)))
      | none =>
        obtain ⟨hx, rfl⟩ : x < 0xff ∧ [x + 1] = bound := by simpa [hxs] using h
        -- no string is above all that begin with the tail, so the first bytes differ
        have hxy := habove.resolve_right fun h => not_above_of_none hxs h.2
        rw [← List.not_lt]
        intro hlt
        have hyx : y ≤ x := (under_succ hx y ys).mp (by simpa [under] using hlt)
        exact UInt8.not_le.mpr hxy hyx

theorem upperBound?_eq_some : upperBound? first = some bound ↔ IsLeastAbove first bound := by
  constructor
  · exact fun h => ⟨above_of_some h, fun other => le_of_above h⟩
  · intro h
    cases hbound : upperBound? first with
    | none => exact absurd h.above (not_above_of_none hbound)
    | some bound' =>
      have hle := le_of_above hbound h.above
      have hge := h.least bound' (above_of_some hbound)
      rw [List.le_antisymm hle hge]

end Bytes

structure ByteMap.Extensions (m : ByteMap Bytes) (first : Bytes) (found : List (Bytes × Bytes)) :
    Prop where
  mem_iff : ∀ key value, (key, value) ∈ found ↔ first <+: key ∧ m.get? key = some value
  ascending : found.Pairwise fun e e' => e.1 < e'.1

theorem ByteMap.extensions_scan (m : ByteMap Bytes) (first : Bytes) :
    m.Extensions first (m.scan first) :=
  ⟨fun _ _ => mem_scan, m.sorted_scan first⟩

open Bytes in
/-- Each store scans exactly the committed extensions of a string, the store on disk those of
any string but the empty one. The bound of a scan is missing where all bytes are `0xff`, is
the least string above all extensions otherwise, and cuts off exactly the other keys. -/
theorem Engine.scan_eq_extensions (inMemory : MemoryStore) (onDisk : PersistentStore)
    (first : Bytes) :
    (∃ found, Engine.scan inMemory first = .ok found ∧
      (Engine.entries inMemory).Extensions first found) ∧
    (first ≠ [] → ∃ found, Engine.scan onDisk first = .ok found ∧
      (Engine.entries onDisk).Extensions first found) ∧
    (upperBound? first = none ↔ ∀ b ∈ first, b = 0xff) ∧
    (∀ bound, upperBound? first = some bound ↔ IsLeastAbove first bound) ∧
    (∀ key, first <+: key ↔ first ≤ key ∧ ∀ bound, upperBound? first = some bound → key < bound) ∧
    (∀ front x n, x < 0xff → first = front ++ x :: List.replicate n 0xff →
      upperBound? first = some (front ++ [x + 1])) := by
  refine ⟨⟨_, rfl, ByteMap.extensions_scan _ first⟩, fun hfirst => ?_, upperBound?_eq_none,
    fun bound => upperBound?_eq_some, prefix_iff first, ?_⟩
  · exact ⟨_, if_neg hfirst, ByteMap.extensions_scan _ first⟩
  · rintro front x n hx rfl
    exact upperBound?_carry front hx n

end ReferralForest
