import ReferralForest.Proofs.AuditReport

/-!
# What the audit asks of the bytes

The report speaks of decoded tables, and an entry that does not decode never gets into
one. Said of the bytes themselves, a store is consistent when its keys and values have the
lengths of their namespaces, parents and lists of children name each other, and the slots
are a heap. The report is free of findings exactly then: a malformed entry is a finding by
itself, and where there is none the tables hold all that is stored.
-/

namespace ReferralForest
open Numeric

theorem Numeric.Decimal.isSome_ofBytes? (b : Bytes) :
    (Decimal.ofBytes? b).isSome = true ↔ b.length = 16 := by
  match b with
  | [] | [_] | [_, _] | [_, _, _] => simp [ofBytes?]
  | _ :: _ :: scale :: sign :: rest =>
    rw [ofBytes?]
    by_cases h : rest.length = 12 <;> simp [h]

theorem ParentEntry.ofBytes_eq_ok {b : Bytes} {p : Address} :
    ParentEntry.ofBytes b = .ok p ↔ b = p.toBytes := by
  rw [← FixedBytes.ofBytes?_eq_some, ofBytes, Address.ofBytes]
  cases FixedBytes.ofBytes? 20 b <;> simp

theorem Ticket.exists_ofBytes {b : Bytes} : (∃ t, Ticket.ofBytes b = .ok t) ↔ b.length = 36 := by
  have hrank := Decimal.isSome_ofBytes? (b.take 16)
  have haddress : (FixedBytes.ofBytes? 20 (b.drop 16)).isSome = true ↔ b.length - 16 = 20 := by
    rw [FixedBytes.ofBytes?, ← List.length_drop]
    by_cases h : (b.drop 16).length = 20 <;> simp [h]
  rw [List.length_take] at hrank
  rw [ofBytes]
  cases hr : Decimal.ofBytes? (b.take 16) <;> cases ha : FixedBytes.ofBytes? 20 (b.drop 16) <;>
    simp only [hr, ha, Option.isSome_none, Option.isSome_some, Bool.false_eq_true, false_iff,
      true_iff] at hrank haddress <;>
    simp <;> omega

section Entries
variable {m : ByteMap Bytes} {a p : Address}

theorem parentAt_eq_some : parentAt m a = some p ↔ m.get? (Key.parent a) = some p.toBytes := by
  simp [parentAt, decodedAt_eq_some, ParentEntry.ofBytes_eq_ok]

theorem mem_childrenAt : a ∈ childrenAt m p ↔ ∃ value list,
    m.get? (Key.children p) = some value ∧ Children.ofBytes value = .ok list ∧ a ∈ list := by
  have hgetD : ∀ list? : Option (List Address),
      a ∈ list?.getD [] ↔ ∃ list, list? = some list ∧ a ∈ list := by
    intro list?
    cases list? <;> simp
  rw [childrenAt, hgetD]
  simp only [decodedAt_eq_some]
  constructor
  · rintro ⟨list, ⟨value, hget, hdecode⟩, ha⟩
    exact ⟨value, list, hget, hdecode, ha⟩
  · rintro ⟨value, list, hget, hdecode, ha⟩
    exact ⟨list, ⟨value, hget, hdecode⟩, ha⟩

end Entries

def ticketCount (m : ByteMap Bytes) : Nat := (m.get? Key.heapSize).elim 0 Bytes.ofBigEndian

/-- Keys and values of the right lengths, parents and lists that name each other, a parent
for every referral, slots in heap order below the size, and nothing under the reserved tag. -/
structure Consistent (m : ByteMap Bytes) (capacity : Nat) : Prop where
  parents : ∀ suffix value, m.get? (Key.parentTag :: suffix) = some value →
    suffix.length = 20 ∧ value.length = 20
  lists : ∀ suffix value, m.get? (Key.childrenTag :: suffix) = some value →
    suffix.length = 20 ∧ ∃ list, Children.ofBytes value = .ok list
  agree : ∀ a p : Address, m.get? (Key.parent a) = some p.toBytes ↔ ∃ value list,
    m.get? (Key.children p) = some value ∧ Children.ofBytes value = .ok list ∧ a ∈ list
  referrals : ∀ suffix value, m.get? (Key.referralTag :: suffix) = some value →
    ∃ r, Referral.ofBytes value = .ok r ∧ (m.get? (Key.parent r.address)).isSome
  within : ticketCount m ≤ capacity
  slots : ∀ suffix, (m.get? (Key.slotTag :: suffix)).isSome ↔
    ∃ i < ticketCount m, Key.slotTag :: suffix = Key.slot i
  widths : ∀ i < ticketCount m, ∀ value, m.get? (Key.slot i) = some value → value.length = 36
  ordered : ∀ i parent child, 0 < i → i < ticketCount m →
    ticketAt m ((i - 1) / 2) = some parent → ticketAt m i = some child → parent.key ≤ child.key
  reserved : ∀ suffix, m.get? (Key.reservedTag :: suffix) = none

namespace Consistent
variable {m : ByteMap Bytes} {capacity : Nat}

theorem of_fits (htree : TreeFits m) (hheap : HeapFits m (ticketCount m) capacity)
    (hreserved : ∀ key, key.head? = some Key.reservedTag → m.get? key = none) :
    Consistent m capacity := by
  refine ⟨fun suffix value hget => ?_, fun suffix value hget => ?_, fun a p => ?_,
    fun suffix value hget => ?_, hheap.within, fun suffix => ⟨fun hsome => ?_, ?_⟩,
    fun i hi value hget => ?_, hheap.ordered, fun suffix => hreserved _ rfl⟩
  · obtain ⟨a, p, hkey, hvalue⟩ := htree.parents _ value rfl hget
    rw [(List.cons.inj hkey).2, ParentEntry.ofBytes_eq_ok.mp hvalue]
    exact ⟨a.length_eq, p.length_eq⟩
  · obtain ⟨p, list, hkey, hvalue⟩ := htree.lists _ value rfl hget
    rw [(List.cons.inj hkey).2]
    exact ⟨p.length_eq, list, hvalue⟩
  · rw [← parentAt_eq_some, ← mem_childrenAt]
    exact ⟨htree.listed a p, htree.matched a p⟩
  · obtain ⟨r, hvalue, hparent⟩ := htree.housed _ value rfl hget
    obtain ⟨p, hp⟩ := Option.isSome_iff_exists.mp hparent
    rw [parentAt_eq_some] at hp
    exact ⟨r, hvalue, Option.isSome_iff_exists.mpr ⟨_, hp⟩⟩
  · obtain ⟨value, hget⟩ := Option.isSome_iff_exists.mp hsome
    obtain ⟨i, hi, hkey, -⟩ := hheap.slots _ value rfl hget
    exact ⟨i, hi, hkey⟩
  · rintro ⟨i, hi, hkey⟩
    obtain ⟨t, ht⟩ := Option.isSome_iff_exists.mp (hheap.occupied i hi)
    obtain ⟨value, hget, -⟩ := decodedAt_eq_some.mp ht
    rw [hkey, hget]
    rfl
  · obtain ⟨-, -, -, hticket⟩ := hheap.slots _ value rfl hget
    exact Ticket.exists_ofBytes.mp hticket

theorem treeFits (h : Consistent m capacity) : TreeFits m := by
  refine ⟨fun key value hkey hget => ?_, fun key value hkey hget => ?_, fun a p hp => ?_,
    fun a p ha => ?_, fun key value hkey hget => ?_⟩
  · obtain ⟨suffix, rfl⟩ := List.head?_eq_some_iff.mp hkey
    obtain ⟨hsuffix, hvalue⟩ := h.parents suffix value hget
    exact ⟨⟨suffix, hsuffix⟩, ⟨value, hvalue⟩, rfl, ParentEntry.ofBytes_eq_ok.mpr rfl⟩
  · obtain ⟨suffix, rfl⟩ := List.head?_eq_some_iff.mp hkey
    obtain ⟨hsuffix, list, hvalue⟩ := h.lists suffix value hget
    exact ⟨⟨suffix, hsuffix⟩, list, rfl, hvalue⟩
  · exact mem_childrenAt.mpr ((h.agree a p).mp (parentAt_eq_some.mp hp))
  · exact parentAt_eq_some.mpr ((h.agree a p).mpr (mem_childrenAt.mp ha))
  · obtain ⟨suffix, rfl⟩ := List.head?_eq_some_iff.mp hkey
    obtain ⟨r, hvalue, hparent⟩ := h.referrals suffix value hget
    -- the entry of the parent has an address for its value, as all of them have
    obtain ⟨parent, hparent⟩ := Option.isSome_iff_exists.mp hparent
    have hlength := (h.parents r.address.toBytes parent hparent).2
    have hp : parentAt m r.address = some ⟨parent, hlength⟩ := parentAt_eq_some.mpr hparent
    exact ⟨r, hvalue, Option.isSome_iff_exists.mpr ⟨_, hp⟩⟩

theorem heapFits (h : Consistent m capacity) : HeapFits m (ticketCount m) capacity := by
  refine ⟨h.within, fun key value hkey hget => ?_, fun i hi => ?_, h.ordered⟩
  · obtain ⟨suffix, rfl⟩ := List.head?_eq_some_iff.mp hkey
    obtain ⟨i, hi, hslot⟩ := (h.slots suffix).mp (Option.isSome_iff_exists.mpr ⟨value, hget⟩)
    rw [hslot] at hget
    exact ⟨i, hi, hslot, Ticket.exists_ofBytes.mpr (h.widths i hi value hget)⟩
  · obtain ⟨value, hget⟩ := Option.isSome_iff_exists.mp ((h.slots _).mpr ⟨i, hi, rfl⟩)
    obtain ⟨t, ht⟩ := Ticket.exists_ofBytes.mpr (h.widths i hi value hget)
    exact Option.isSome_iff_exists.mpr ⟨t, decodedAt_eq_some.mpr ⟨value, hget, ht⟩⟩

end Consistent

theorem MemoryStore.transact_readOnly {α : Type} {p : Tx α} (h : p.ReadOnly) (store : MemoryStore)
    (commits : α → Bool) : (Engine.transact store p commits).2 = store := by
  have hwrites := Tx.writes_readOnly h store.entries
  have hallows : store.Allows (p.writes store.entries) := by
    rw [hwrites]
    exact fun n _ => n.zero_le
  have hmap : (p.eval store.entries).2 = store.entries :=
    ByteMap.ext_get? fun key => Tx.get?_eval_of_not h _ fun _ => id
  rw [transact_of_allows store p commits hallows, hwrites, after_zero]
  generalize p.eval store.entries = r at hmap
  obtain ⟨answer, m⟩ := r
  obtain rfl : m = store.entries := hmap
  cases answer with
  | error e => rfl
  | ok a =>
    rw [publish]
    split <;> rfl

namespace Forest
variable {f : Forest MemoryStore}

theorem heapSize_of_length (h : ∀ value, f.store.entries.get? Key.heapSize = some value →
    value.length = 8) : f.heapSize = .ok (ticketCount f.store.entries) := by
  rw [heapSize, view, Engine.view_readOnly Tx.uses_readHeapSize.confined, Tx.readHeapSize,
    ticketCount]
  cases hget : f.store.entries.get? Key.heapSize with
  | none =>
    rw [Tx.eval_bind_ok (Tx.eval_readAs_none hget)]
    rfl
  | some value =>
    have hread : HeapSize.ofBytes value = .ok (Bytes.ofBigEndian value) := if_pos (h value hget)
    rw [Tx.eval_bind_ok (Tx.eval_readAs_some hget hread)]
    rfl

theorem audit_of_length {value : Bytes} (hget : f.store.entries.get? Key.heapSize = some value)
    (h : value.length ≠ 8) : f.audit = .error (.serialization .heapSizeLength) := by
  have hread : HeapSize.ofBytes value = .error .heapSizeLength := if_neg h
  have hsize : f.view Tx.readHeapSize = .error (.serialization .heapSizeLength) := by
    rw [view, Engine.view_readOnly Tx.uses_readHeapSize.confined, Tx.readHeapSize, Tx.eval_bind,
      Tx.readAs, Tx.eval, hget]
    simp only [hread, Tx.eval]
  have hscan : ∀ first, Engine.scan f.store first = .ok (f.store.entries.scan first) :=
    fun _ => rfl
  simp only [audit, hscan, hsize, bind, Except.bind]

/-- The audit gives no store back and scans are no programs, so it is read-only by its type
but for the one program that it runs, which changes nothing, kept or not. The audit is
stopped by a heap size of another length than eight bytes and by nothing else, and otherwise
finds nothing exactly in consistent entries. -/
theorem audit_verdict (f : Forest MemoryStore) :
    (∀ commits, (f.transact Tx.readHeapSize commits).2 = f) ∧
    ((∃ cause, f.audit = .error (.serialization cause)) ↔
      ∃ value, f.store.entries.get? Key.heapSize = some value ∧ value.length ≠ 8) ∧
    ((∀ value, f.store.entries.get? Key.heapSize = some value → value.length = 8) →
      ∃ report, f.audit = .ok report ∧
        (report.isHealthy = true ↔ Consistent f.store.entries f.capacity)) := by
  have hfits : (∀ value, f.store.entries.get? Key.heapSize = some value → value.length = 8) →
      ∃ report, f.audit = .ok report ∧
        (report.isHealthy = true ↔ Consistent f.store.entries f.capacity) := by
    intro hlength
    obtain ⟨report, haudit, hhealthy⟩ := audit_of_heapSize (heapSize_of_length hlength)
    refine ⟨report, haudit, hhealthy.trans ⟨fun ⟨htree, hheap, hreserved⟩ => ?_, fun h => ?_⟩⟩
    · exact .of_fits htree hheap hreserved
    · refine ⟨h.treeFits, h.heapFits, fun key hkey => ?_⟩
      obtain ⟨suffix, rfl⟩ := List.head?_eq_some_iff.mp hkey
      exact h.reserved suffix
  refine ⟨fun commits => ?_, ⟨fun ⟨cause, herror⟩ => ?_, fun ⟨value, hget, hlength⟩ => ?_⟩, hfits⟩
  · exact congrArg (fun store => { f with store })
      (MemoryStore.transact_readOnly Tx.uses_readHeapSize.confined f.store commits)
  · refine Classical.byContradiction fun hnone => ?_
    obtain ⟨report, haudit, -⟩ := hfits fun value hget =>
      Classical.byContradiction fun hne => hnone ⟨value, hget, hne⟩
    cases herror.symm.trans haudit
  · exact ⟨_, audit_of_length hget hlength⟩

end Forest
end ReferralForest
