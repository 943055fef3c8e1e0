import ReferralForest.Forest.Audit
import ReferralForest.Proofs.HeapOrder
import ReferralForest.Proofs.Indexes
import ReferralForest.Proofs.Scans

/-!
# What a healthy report says

The audit looks at scanned entries, and it looks parents, lists and slots up in what it
decoded. Keys are found once in a map, so its tables hold what the map holds under the
keys of the namespace. A report without findings then says that parents and children are
two views of one relation and that the slots are a heap, whatever bytes the store holds.
-/

namespace ReferralForest

theorem lookup_eq_some_iff_mem {α β : Type} [BEq α] [LawfulBEq α] {l : List (α × β)}
    (hl : ∀ a b b', (a, b) ∈ l → (a, b') ∈ l → b = b') {a : α} {b : β} :
    l.lookup a = some b ↔ (a, b) ∈ l := by
  constructor
  · intro h
    obtain ⟨before, rest, rfl, -⟩ := List.lookup_eq_some_iff.mp h
    simp
  · intro h
    cases hfound : l.lookup a with
    | none => simpa using List.lookup_eq_none_iff.mp hfound _ h
    | some b' =>
      obtain ⟨before, rest, rfl, -⟩ := List.lookup_eq_some_iff.mp hfound
      rw [hl a b b' h (by simp)]

def ticketAt (m : ByteMap Bytes) (position : Nat) : Option Ticket :=
  decodedAt Ticket.ofBytes m (Key.slot position)

/-- Parents and children are two views of one relation, and every referral has a parent. -/
structure TreeFits (m : ByteMap Bytes) : Prop where
  parents : ∀ key value, key.head? = some Key.parentTag → m.get? key = some value →
    ∃ a p, key = Key.parent a ∧ ParentEntry.ofBytes value = .ok p
  lists : ∀ key value, key.head? = some Key.childrenTag → m.get? key = some value →
    ∃ p list, key = Key.children p ∧ Children.ofBytes value = .ok list
  listed : ∀ a p, parentAt m a = some p → a ∈ childrenAt m p
  matched : ∀ a p, a ∈ childrenAt m p → parentAt m a = some p
  housed : ∀ key value, key.head? = some Key.referralTag → m.get? key = some value →
    ∃ r, Referral.ofBytes value = .ok r ∧ (parentAt m r.address).isSome

structure HeapFits (m : ByteMap Bytes) (size capacity : Nat) : Prop where
  within : size ≤ capacity
  slots : ∀ key value, key.head? = some Key.slotTag → m.get? key = some value →
    ∃ i < size, key = Key.slot i ∧ ∃ t, Ticket.ofBytes value = .ok t
  occupied : ∀ i < size, (ticketAt m i).isSome
  ordered : ∀ i parent child, 0 < i → i < size → ticketAt m ((i - 1) / 2) = some parent →
    ticketAt m i = some child → parent.key ≤ child.key

namespace Audit

section DecodeAll
variable {α β : Type} {decode : Bytes × Bytes → Except β α} {l : List (Bytes × Bytes)}

theorem decodeAll_cons (e : Bytes × Bytes) : decodeAll decode (e :: l) =
    match decode e with
    | .ok a => (a :: (decodeAll decode l).1, (decodeAll decode l).2)
    | .error b => ((decodeAll decode l).1, b :: (decodeAll decode l).2) := rfl

theorem mem_decodeAll {a : α} : a ∈ (decodeAll decode l).1 ↔ ∃ e ∈ l, decode e = .ok a := by
  induction l with
  | nil => simp [decodeAll]
  | cons e l ih =>
    simp only [decodeAll_cons, List.mem_cons, exists_eq_or_imp, ← ih]
    cases decode e <;> simp [eq_comm]

theorem decodeAll_snd_eq_nil :
    (decodeAll decode l).2 = [] ↔ ∀ e ∈ l, ∃ a, decode e = .ok a := by
  induction l with
  | nil => simp [decodeAll]
  | cons e l ih =>
    rw [decodeAll_cons, List.forall_mem_cons, ← ih]
    cases decode e <;> simp

end DecodeAll

section Reads
variable {α β : Type} {tag : UInt8} {key : α → Bytes} {value : Bytes → Except Malformed β}
  {fits : α → Prop} {decode : Bytes × Bytes → Except Finding (α × β)}

structure Reads (tag : UInt8) (key : α → Bytes) (value : Bytes → Except Malformed β)
    (fits : α → Prop) (decode : Bytes × Bytes → Except Finding (α × β)) : Prop where
  tagged : ∀ a, (key a).head? = some tag
  decode_eq_ok : ∀ e a b, decode e = .ok (a, b) ↔ e.1 = key a ∧ value e.2 = .ok b ∧ fits a

variable (h : Reads tag key value fits decode) (m : ByteMap Bytes)
include h

theorem Reads.mem {a : α} {b : β} : (a, b) ∈ (decodeAll decode (m.scan [tag])).1 ↔
    decodedAt value m (key a) = some b ∧ fits a := by
  rw [mem_decodeAll, decodedAt_eq_some]
  constructor
  · rintro ⟨e, he, hdecode⟩
    obtain ⟨hkey, hvalue, ha⟩ := (h.decode_eq_ok e a b).mp hdecode
    exact ⟨⟨e.2, hkey ▸ (ByteMap.mem_scan_tag.mp he).2, hvalue⟩, ha⟩
  · rintro ⟨⟨v, hget, hvalue⟩, ha⟩
    exact ⟨(key a, v), ByteMap.mem_scan_tag.mpr ⟨h.tagged a, hget⟩,
      (h.decode_eq_ok _ a b).mpr ⟨rfl, hvalue, ha⟩⟩

theorem Reads.lookup [BEq α] [LawfulBEq α] {a : α} (ha : fits a) :
    (decodeAll decode (m.scan [tag])).1.lookup a = decodedAt value m (key a) := by
  apply Option.ext
  intro b
  rw [lookup_eq_some_iff_mem, h.mem, and_iff_left ha]
  intro a b b' hb hb'
  rw [h.mem] at hb hb'
  exact Option.some.inj (hb.1.symm.trans hb'.1)

theorem Reads.all : (decodeAll decode (m.scan [tag])).2 = [] ↔
    ∀ k v, k.head? = some tag → m.get? k = some v →
      ∃ a b, k = key a ∧ value v = .ok b ∧ fits a := by
  rw [decodeAll_snd_eq_nil]
  constructor
  · intro hall k v hk hget
    obtain ⟨⟨a, b⟩, hab⟩ := hall (k, v) (ByteMap.mem_scan_tag.mpr ⟨hk, hget⟩)
    exact ⟨a, b, (h.decode_eq_ok _ a b).mp hab⟩
  · intro hall e he
    obtain ⟨hk, hget⟩ := ByteMap.mem_scan_tag.mp he
    obtain ⟨a, b, hab⟩ := hall e.1 e.2 hk hget
    exact ⟨(a, b), (h.decode_eq_ok e a b).mpr hab⟩

end Reads

theorem reads_parent :
    Reads Key.parentTag Key.parent ParentEntry.ofBytes (fun _ => True) parentOf := by
  refine ⟨fun _ => rfl, fun e a p => ?_⟩
  have hkey : Key.address? Key.parentTag e.1 = some a ↔ e.1 = Key.parent a :=
    Key.address?_eq_some
  rw [← hkey, parentOf]
  cases Key.address? Key.parentTag e.1 <;> cases ParentEntry.ofBytes e.2 <;> simp

theorem reads_children :
    Reads Key.childrenTag Key.children Children.ofBytes (fun _ => True) childrenOf := by
  refine ⟨fun _ => rfl, fun e a p => ?_⟩
  have hkey : Key.address? Key.childrenTag e.1 = some a ↔ e.1 = Key.children a :=
    Key.address?_eq_some
  rw [← hkey, childrenOf]
  cases Key.address? Key.childrenTag e.1 <;> cases Children.ofBytes e.2 <;> simp

theorem reads_slot {size : Nat} (hsize : size ≤ UInt64.size) :
    Reads Key.slotTag Key.slot Ticket.ofBytes (· < size) (slotOf size) := by
  refine ⟨fun _ => rfl, fun e i t => ?_⟩
  constructor
  · intro h
    rw [slotOf] at h
    split at h
    · rename_i position ticket hkey hticket
      split at h
      · rename_i hi
        cases h
        exact ⟨(Key.position?_eq_some.mp hkey).1, hticket, hi⟩
      · cases h
    · cases h
  · rintro ⟨hkey, hticket, hi⟩
    rw [slotOf, Key.position?_eq_some.mpr ⟨hkey, Nat.lt_of_lt_of_le hi hsize⟩, hticket]
    exact if_pos hi

section Tables
variable (m : ByteMap Bytes)

def parentTable : List (Address × Address) := (decodeAll parentOf (m.scan [Key.parentTag])).1

def listTable : List (Address × List Address) :=
  (decodeAll childrenOf (m.scan [Key.childrenTag])).1

theorem mem_parentTable {a p : Address} : (a, p) ∈ parentTable m ↔ parentAt m a = some p := by
  rw [parentTable, reads_parent.mem, and_iff_left trivial, parentAt]

theorem lookup_parentTable (a : Address) : (parentTable m).lookup a = parentAt m a :=
  reads_parent.lookup m trivial

theorem getD_listTable (p : Address) : ((listTable m).lookup p).getD [] = childrenAt m p :=
  congrArg (Option.getD · []) (reads_children.lookup m trivial)

theorem mem_listTable {a p : Address} :
    (∃ list, (p, list) ∈ listTable m ∧ a ∈ list) ↔ a ∈ childrenAt m p := by
  rw [← getD_listTable, listTable, reads_children.lookup m trivial]
  simp only [reads_children.mem, and_true]
  cases decodedAt Children.ofBytes m (Key.children p) <;> simp

def unlisted : List Finding :=
  (parentTable m).filterMap fun (child, parent) =>
    if (((listTable m).lookup parent).getD []).contains child then none
    else some (.unlistedChild child parent)

def unmatched : List Finding :=
  (listTable m).flatMap fun (parent, children) => children.filterMap fun child =>
    if (parentTable m).lookup child = some parent then none
    else some (.unmatchedChild child parent)

theorem unlisted_eq_nil :
    unlisted m = [] ↔ ∀ a p, parentAt m a = some p → a ∈ childrenAt m p := by
  rw [unlisted, List.filterMap_eq_nil_iff, Prod.forall]
  simp [mem_parentTable, getD_listTable]

theorem unmatched_eq_nil :
    unmatched m = [] ↔ ∀ a p, a ∈ childrenAt m p → parentAt m a = some p := by
  rw [unmatched, List.flatMap_eq_nil_iff, Prod.forall]
  simp only [List.filterMap_eq_nil_iff, lookup_parentTable, ← mem_listTable]
  constructor
  · rintro h a p ⟨list, hlist, ha⟩
    simpa using h p list hlist a ha
  · intro h p list hlist a ha
    simpa using h a p ⟨list, hlist, ha⟩

theorem referralFinding?_eq_none (e : Bytes × Bytes) :
    referralFinding? (parentTable m) e = none ↔
      ∃ r, Referral.ofBytes e.2 = .ok r ∧ (parentAt m r.address).isSome := by
  rw [referralFinding?]
  cases Referral.ofBytes e.2 <;> simp [lookup_parentTable, Option.isSome_iff_ne_none]

theorem treeFindings_eq_nil : treeFindings (m.scan [Key.parentTag]) (m.scan [Key.childrenTag])
    (m.scan [Key.referralTag]) = [] ↔ TreeFits m := by
  show (decodeAll parentOf (m.scan [Key.parentTag])).2 ++
    (decodeAll childrenOf (m.scan [Key.childrenTag])).2 ++ unlisted m ++ unmatched m ++
    (m.scan [Key.referralTag]).filterMap (referralFinding? (parentTable m)) = [] ↔ _
  simp only [List.append_eq_nil_iff, unlisted_eq_nil, unmatched_eq_nil, reads_parent.all,
    reads_children.all, and_true, List.filterMap_eq_nil_iff, referralFinding?_eq_none,
    ByteMap.mem_scan_tag, Prod.forall]
  constructor
  · rintro ⟨⟨⟨⟨hparents, hlists⟩, hlisted⟩, hmatched⟩, hhoused⟩
    exact ⟨hparents, hlists, hlisted, hmatched, fun k v hk hv => hhoused k v ⟨hk, hv⟩⟩
  · intro h
    exact ⟨⟨⟨⟨h.parents, h.lists⟩, h.listed⟩, h.matched⟩, fun k v ⟨hk, hv⟩ => h.housed k v hk hv⟩

theorem heapFindings_eq_nil {size : Nat} (hsize : size ≤ UInt64.size) (capacity : Nat) :
    heapFindings size capacity (m.scan [Key.slotTag]) = [] ↔ HeapFits m size capacity := by
  have hlookup : ∀ i < size,
      (decodeAll (slotOf size) (m.scan [Key.slotTag])).1.lookup i = ticketAt m i :=
    fun i hi => (reads_slot hsize).lookup m hi
  have hfinding : ∀ i < size,
      slotFinding? (decodeAll (slotOf size) (m.scan [Key.slotTag])).1 i = none ↔
        (ticketAt m i).isSome ∧ ∀ parent child, 0 < i → ticketAt m ((i - 1) / 2) = some parent →
          ticketAt m i = some child → parent.key ≤ child.key := by
    intro i hi
    rw [slotFinding?, hlookup i hi]
    cases hticket : ticketAt m i with
    | none => simp
    | some ticket =>
      by_cases hzero : i = 0
      · simp [hzero]
      · rw [hlookup ((i - 1) / 2) (by omega)]
        cases ticketAt m ((i - 1) / 2) with
        | none => simp [hzero]
        | some parent => simp [hzero, Nat.pos_of_ne_zero hzero, WeightedKey.not_lt]
  show (if capacity < size then [Finding.overCapacity size capacity] else []) ++
    (decodeAll (slotOf size) (m.scan [Key.slotTag])).2 ++ (List.range size).filterMap
      (slotFinding? (decodeAll (slotOf size) (m.scan [Key.slotTag])).1) = [] ↔ _
  rw [List.append_eq_nil_iff, List.append_eq_nil_iff, (reads_slot hsize).all,
    List.filterMap_eq_nil_iff]
  have hwithin : (if capacity < size then [Finding.overCapacity size capacity] else []) = [] ↔
      size ≤ capacity := by
    split <;> simp <;> omega
  rw [hwithin]
  constructor
  · rintro ⟨⟨hle, hslots⟩, hfindings⟩
    have hpositions := fun i hi => (hfinding i hi).mp (hfindings i (List.mem_range.mpr hi))
    refine ⟨hle, fun k v hk hv => ?_, fun i hi => (hpositions i hi).1, ?_⟩
    · obtain ⟨i, t, hkey, ht, hi⟩ := hslots k v hk hv
      exact ⟨i, hi, hkey, t, ht⟩
    · exact fun i parent child hpos hi => (hpositions i hi).2 parent child hpos
  · intro h
    refine ⟨⟨h.within, fun k v hk hv => ?_⟩, fun i hi => ?_⟩
    · obtain ⟨i, hi, hkey, t, ht⟩ := h.slots k v hk hv
      exact ⟨i, t, hkey, ht, hi⟩
    · have hi := List.mem_range.mp hi
      exact (hfinding i hi).mpr ⟨h.occupied i hi, fun parent child hpos =>
        h.ordered i parent child hpos hi⟩

end Tables
end Audit

namespace Forest
variable {f : Forest MemoryStore}

theorem heapSize_lt {size : Nat} (h : f.heapSize = .ok size) : size < UInt64.size := by
  rw [heapSize, view, Engine.view_readOnly Tx.uses_readHeapSize.confined] at h
  have heval : Tx.readHeapSize.eval f.store.entries = (.ok size, _) := Prod.ext h rfl
  obtain ⟨size?, hread, rfl⟩ := Tx.eval_bind_pure_eq_ok heval
  obtain ⟨-, ⟨-, rfl⟩ | ⟨value, size, -, hdecode, rfl⟩⟩ := Tx.eval_readAs_eq_ok hread
  · decide
  · rw [HeapSize.ofBytes] at hdecode
    split at hdecode
    · rename_i hlen
      cases hdecode
      have hlt := Bytes.ofLittleEndian_lt value.reverse
      rw [List.length_reverse, hlen] at hlt
      exact hlt
    · cases hdecode

/-- The audit is stopped by the heap size alone, and finds nothing when all indexes fit. -/
theorem audit_of_heapSize {size : Nat} (h : f.heapSize = .ok size) :
    ∃ report, f.audit = .ok report ∧ (report.isHealthy = true ↔ TreeFits f.store.entries ∧
      HeapFits f.store.entries size f.capacity ∧
      ∀ key, key.head? = some Key.reservedTag → f.store.entries.get? key = none) := by
  have hview : f.view Tx.readHeapSize = .ok size := h
  have hreserved : f.store.entries.scan [Key.reservedTag] = [] ↔
      ∀ key, key.head? = some Key.reservedTag → f.store.entries.get? key = none := by
    simp only [List.eq_nil_iff_forall_not_mem, ByteMap.mem_scan_tag, Prod.forall,
      Option.eq_none_iff_forall_ne_some, not_and]
    exact ⟨fun h key hkey value => h key value hkey, fun h key value hkey => h key hkey value⟩
  have hscan : ∀ first, Engine.scan f.store first = .ok (f.store.entries.scan first) :=
    fun _ => rfl
  simp only [audit, hscan, hview, bind, Except.bind, pure, Except.pure]
  refine ⟨_, rfl, ?_⟩
  rw [Report.isHealthy, List.isEmpty_iff]
  simp only [List.append_eq_nil_iff, Audit.treeFindings_eq_nil,
    Audit.heapFindings_eq_nil _ (Nat.le_of_lt (heapSize_lt h)), ← hreserved, and_assoc]
  cases f.store.entries.scan [Key.reservedTag] <;> simp

end Forest
end ReferralForest
