import ReferralForest.Proofs.Stamps
import ReferralForest.Store.Persistent
import Mathlib.Data.List.Basic

/-!
# The list of net values

The list comes from a scan, the value of one address from a read under its key. In a store
whose reads do not fail, whatever bytes it holds, the list has one record for each address
whose own record can be read, in the order of the addresses. An entry that does not decode,
one whose key has another length and one of another namespace do not show in it.
-/

namespace ReferralForest

section Store
variable {S T : Type} [Transaction T] [Engine S T]

structure Engine.ReadsEntries (store : S) : Prop where
  scan : ∀ first, first ≠ [] → Engine.scan store first = .ok ((Engine.entries store).scan first)
  get : ∀ key, key ≠ [] →
    Transaction.get (Engine.start store) key = .ok ((Engine.entries store).get? key)

theorem MemoryStore.readsEntries (store : MemoryStore) : Engine.ReadsEntries store :=
  ⟨fun _ _ => rfl, fun _ _ => rfl⟩

theorem PersistentStore.readsEntries (store : PersistentStore) : Engine.ReadsEntries store :=
  ⟨fun _ hfirst => if_neg hfirst, fun _ hkey => if_neg hkey⟩

theorem Engine.ReadsEntries.view_readAs {α : Type} {store : S} (h : Engine.ReadsEntries store)
    {key : Bytes} (hkey : key ≠ []) (decode : Bytes → Except Malformed α) :
    Engine.view store (Tx.readAs key decode) =
      ((Tx.readAs key decode).eval (Engine.entries store)).1 := by
  rw [Engine.view, Tx.readAs, Tx.run, h.get key hkey, Tx.eval]
  cases (Engine.entries store).get? key with
  | none => rfl
  | some value => cases hvalue : decode value <;> simp [hvalue, Tx.run, Tx.eval]

end Store

section Entries
variable {m : ByteMap Bytes} {a : Address} {r : NetValue}

def addressed? (e : Bytes × Bytes) : Option (Address × NetValue) :=
  (Key.address? Key.netValueTag e.1).bind fun a => (Forest.netValueOf? e).map (a, ·)

def addressedIn (m : ByteMap Bytes) : List (Address × NetValue) :=
  (m.scan [Key.netValueTag]).filterMap addressed?

theorem addressed?_eq_some {e : Bytes × Bytes} :
    addressed? e = some (a, r) ↔ e.1 = Key.netValue a ∧ NetValue.ofBytes e.2 = .ok r := by
  simp only [addressed?, Option.bind_eq_some_iff, Option.map_eq_some_iff, Prod.mk.injEq,
    Key.address?_eq_some, netValueOf?_eq_some]
  constructor
  · rintro ⟨a', hkey, r', ⟨-, -, hvalue⟩, rfl, rfl⟩
    exact ⟨hkey, hvalue⟩
  · rintro ⟨hkey, hvalue⟩
    exact ⟨a, hkey, r, ⟨a, hkey, hvalue⟩, rfl, rfl⟩

theorem map_addressedIn (m : ByteMap Bytes) : (addressedIn m).map Prod.snd = recordsIn m := by
  rw [addressedIn, recordsIn, List.map_filterMap]
  congr 1
  funext e
  rw [addressed?]
  cases haddress : Key.address? Key.netValueTag e.1 with
  | none => simp [Forest.netValueOf?, haddress]
  | some a => cases Forest.netValueOf? e <;> rfl

theorem mem_addressedIn : (a, r) ∈ addressedIn m ↔ netValueAt m a = some r := by
  rw [netValueAt, decodedAt_eq_some, addressedIn, List.mem_filterMap]
  constructor
  · rintro ⟨e, he, hread⟩
    obtain ⟨hkey, hvalue⟩ := addressed?_eq_some.mp hread
    exact ⟨e.2, hkey ▸ (ByteMap.mem_scan_tag.mp he).2, hvalue⟩
  · rintro ⟨value, hget, hvalue⟩
    exact ⟨(Key.netValue a, value), ByteMap.mem_scan_tag.mpr ⟨rfl, hget⟩,
      addressed?_eq_some.mpr ⟨rfl, hvalue⟩⟩

theorem ascending_addressedIn (m : ByteMap Bytes) :
    (addressedIn m).Pairwise fun x y => x.1.toBytes < y.1.toBytes := by
  rw [addressedIn, List.pairwise_filterMap]
  apply (m.sorted_scan [Key.netValueTag]).imp
  rintro e e' hlt ⟨a, r⟩ hr ⟨b, s⟩ hs
  rw [(addressed?_eq_some.mp hr).1, (addressed?_eq_some.mp hs).1] at hlt
  exact Key.netValue_lt_netValue.mp hlt

theorem recordsIn_erase {key : Bytes}
    (h : ∀ value, m.get? key = some value → Forest.netValueOf? (key, value) = none) :
    recordsIn (m.erase key) = recordsIn m := by
  have hscan : (m.erase key).scan [Key.netValueTag] =
      (m.scan [Key.netValueTag]).filter fun e => e.1 ≠ key := List.filter_comm _ _ _
  rw [recordsIn, recordsIn, hscan, List.filterMap_filter]
  apply List.filterMap_congr
  rintro ⟨k, value⟩ he
  by_cases hkey : k = key
  · subst hkey
    simp [h value (ByteMap.mem_scan_tag.mp he).2]
  · simp [hkey]

end Entries

namespace Forest
section Engine
variable {S T : Type} [Transaction T] [Engine S T] {f g : Forest S} {a : Address} {r : NetValue}

theorem netValue?_of_reads (h : Engine.ReadsEntries f.store) (a : Address) :
    f.netValue? a = ((Tx.readNetValue a).eval (Engine.entries f.store)).1 :=
  h.view_readAs (List.cons_ne_nil _ _) NetValue.ofBytes

theorem netValue?_eq_ok_some (h : Engine.ReadsEntries f.store) :
    f.netValue? a = .ok (some r) ↔ netValueAt (Engine.entries f.store) a = some r := by
  rw [netValue?_of_reads h, netValueAt, decodedAt_eq_some, Tx.readNetValue, Tx.readAs, Tx.eval]
  cases (Engine.entries f.store).get? (Key.netValue a) with
  | none => simp [Tx.eval]
  | some value => cases hvalue : NetValue.ofBytes value <;> simp [hvalue, Tx.eval]

theorem netValues_of_reads (h : Engine.ReadsEntries f.store) :
    f.netValues = .ok (recordsIn (Engine.entries f.store)) := by
  rw [netValues, h.scan _ (List.cons_ne_nil _ _)]
  rfl

/-- A key that holds no record of an address: its value does not decode, it has the wrong
length, or it belongs to another namespace. -/
inductive Unlisted (f : Forest S) : Bytes → Prop
  | unreadable {a : Address} {cause : Malformed}
      (h : f.netValue? a = .error (.serialization cause)) : Unlisted f (Key.netValue a)
  | misshapen {suffix : Bytes} (h : suffix.length ≠ 20) : Unlisted f (Key.netValueTag :: suffix)
  | foreign {key : Bytes} (h : key.head? ≠ some Key.netValueTag) : Unlisted f key

theorem Unlisted.netValueOf?_eq_none {key value : Bytes} (hkey : f.Unlisted key)
    (h : Engine.ReadsEntries f.store) (hget : (Engine.entries f.store).get? key = some value) :
    netValueOf? (key, value) = none := by
  rw [Option.eq_none_iff_forall_ne_some]
  intro r hr
  obtain ⟨a, hrecord, hvalue⟩ := netValueOf?_eq_some.mp hr
  cases hkey with
  | unreadable herror =>
    have hread := (netValue?_eq_ok_some h).mpr (decodedAt_eq_some.mpr ⟨value, hget, hvalue⟩)
    cases herror.symm.trans hread
  | misshapen hlength =>
    obtain rfl := (List.cons.inj hrecord).2
    exact hlength a.length_eq
  | foreign hforeign => exact hforeign (congrArg List.head? hrecord)

structure ListsReads (f : Forest S) : Prop where
  /-- One record for each address with a record that can be read, in order of the addresses. -/
  listed : ∃ pairs : List (Address × NetValue), f.netValues = .ok (pairs.map Prod.snd) ∧
    pairs.Pairwise (fun x y => x.1.toBytes < y.1.toBytes) ∧
    ∀ a r, (a, r) ∈ pairs ↔ f.netValue? a = .ok (some r)
  unlisted : ∀ key, f.Unlisted key → ∀ g : Forest S,
    Engine.entries g.store = (Engine.entries f.store).erase key → g.netValues = f.netValues
  rewardable : ∃ records, f.netValues = .ok records ∧
    f.rewardable = .ok (records.filter fun r => r.kind = .wallet ∨ r.kind = .script)

theorem rewardable_of_reads (h : Engine.ReadsEntries f.store) :
    f.rewardable = .ok ((recordsIn (Engine.entries f.store)).filter
      fun r => r.kind = .wallet ∨ r.kind = .script) := by
  have hkind : ∀ r : NetValue,
      r.kind.isRewardable = decide (r.kind = .wallet ∨ r.kind = .script) := by
    intro r
    cases r.kind <;> rfl
  simp [rewardable, netValues_of_reads h, hkind, bind, Except.bind, pure, Except.pure]

theorem listsReads_of_reads (h : ∀ f : Forest S, Engine.ReadsEntries f.store) (f : Forest S) :
    f.ListsReads := by
  refine ⟨⟨addressedIn (Engine.entries f.store), ?_, ascending_addressedIn _, fun a r => ?_⟩,
    fun key hkey g hg => ?_, ⟨_, netValues_of_reads (h f), rewardable_of_reads (h f)⟩⟩
  · rw [netValues_of_reads (h f), map_addressedIn]
  · rw [mem_addressedIn, netValue?_eq_ok_some (h f)]
  · have herase := recordsIn_erase fun value hget => hkey.netValueOf?_eq_none (h f) hget
    rw [netValues_of_reads (h g), netValues_of_reads (h f), hg, herase]

end Engine

/-- In memory and on disk the list agrees with the single reads, whatever the store holds. -/
theorem netValues_agree (inMemory : Forest MemoryStore) (onDisk : Forest PersistentStore) :
    inMemory.ListsReads ∧ onDisk.ListsReads :=
  ⟨listsReads_of_reads (fun f => f.store.readsEntries) inMemory,
    listsReads_of_reads (fun f => f.store.readsEntries) onDisk⟩

end Forest
end ReferralForest
