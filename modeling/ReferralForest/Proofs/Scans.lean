import ReferralForest.ByteMap

/-!
# Scans

The bound of the extensions of a string cuts off exactly the keys that do not begin with
it, whatever bytes it ends in. So a scan finds the entries whose keys begin with a string,
and one of a tag finds its namespace.
-/

namespace ReferralForest

namespace Bytes

theorem le_top (x : UInt8) : x ≤ 0xff := Nat.le_of_lt_succ x.toNat_lt

def under (bound? : Option Bytes) (key : Bytes) : Prop := ∀ bound ∈ bound?, key < bound

theorem under_cons_some (x k : UInt8) (ks bound : Bytes) :
    under (some (x :: bound)) (k :: ks) ↔ k < x ∨ k = x ∧ under (some bound) ks := by
  simp [under, List.cons_lt_cons_iff]

theorem under_succ {x : UInt8} (hx : x < 0xff) (k : UInt8) (ks : Bytes) :
    under (some [x + 1]) (k :: ks) ↔ k ≤ x := by
  have hsucc : (x + 1).toNat = x.toNat + 1 := by
    rw [UInt8.toNat_add]
    have : x.toNat < 255 := hx
    exact Nat.mod_eq_of_lt (by simp; omega)
  simp only [under, Option.mem_some_iff, forall_eq', List.cons_lt_cons_iff, List.not_lt_nil,
    and_false, or_false, UInt8.lt_iff_toNat_lt, UInt8.le_iff_toNat_le, hsucc]
  omega

theorem prefix_iff (first key : Bytes) :
    first <+: key ↔ first ≤ key ∧ under (upperBound? first) key := by
  induction first generalizing key with
  | nil => simp [upperBound?, under]
  | cons x xs ih =>
    cases key with
    | nil => simp
    | cons k ks =>
      rw [List.cons_prefix_cons, ih, List.cons_le_cons_iff, upperBound?]
      cases hbound : upperBound? xs with
      | some bound =>
        rw [under_cons_some]
        constructor
        · rintro ⟨rfl, hle, hlt⟩
          exact ⟨.inr ⟨rfl, hle⟩, .inr ⟨rfl, hlt⟩⟩
        · rintro ⟨hlt | ⟨rfl, hle⟩, hlt' | ⟨heq, hlt'⟩⟩
          · exact absurd hlt' (UInt8.lt_asymm hlt)
          · exact absurd heq.symm (UInt8.ne_of_lt hlt)
          · exact absurd hlt' (UInt8.lt_irrefl _)
          · exact ⟨rfl, hle, hlt'⟩
      | none =>
        simp only
        split
        · rename_i hx
          rw [under_succ hx]
          constructor
          · rintro ⟨rfl, hle, -⟩
            exact ⟨.inr ⟨rfl, hle⟩, UInt8.le_refl _⟩
          · rintro ⟨hlt | ⟨rfl, hle⟩, hkx⟩
            · exact absurd hkx (UInt8.not_le.mpr hlt)
            · exact ⟨rfl, hle, by simp [under]⟩
        · rename_i hx
          have htop : ¬x < k := fun hlt => hx (UInt8.lt_of_lt_of_le hlt (le_top k))
          simp [under, htop]

theorem inScan_iff {first key : Bytes} : inScan first key = true ↔ first <+: key := by
  rw [prefix_iff, inScan, Bool.and_eq_true, decide_eq_true_eq]
  cases upperBound? first <;> simp [under]

end Bytes

namespace ByteMap
variable {β : Type} {m : ByteMap β}

theorem sorted_scan (m : ByteMap β) (first : Bytes) :
    (m.scan first).Pairwise fun e e' => e.1 < e'.1 :=
  m.sorted.filter _

theorem mem_scan {first : Bytes} {e : Bytes × β} :
    e ∈ m.scan first ↔ first <+: e.1 ∧ m.get? e.1 = some e.2 := by
  rw [scan, List.mem_filter, Bytes.inScan_iff, and_comm, ← mem_toList]

theorem mem_scan_tag {tag : UInt8} {e : Bytes × β} :
    e ∈ m.scan [tag] ↔ e.1.head? = some tag ∧ m.get? e.1 = some e.2 := by
  have htag : [tag] <+: e.1 ↔ e.1.head? = some tag := by
    cases e.1 with
    | nil => simp
    | cons k ks => simp [List.cons_prefix_cons, eq_comm]
  rw [mem_scan, htag]

end ByteMap
end ReferralForest
