import ReferralForest.Bytes

/-!
# Ordered maps from byte strings

A map is the list of its entries in strictly ascending key order, so maps with
the same entries are equal. A scan takes the entries between a string and the
bound of its extensions. Two maps differ by a list of changes in key order.
-/

namespace ReferralForest

structure ByteMap (β : Type) where
  toList : List (Bytes × β)
  sorted : toList.Pairwise fun a b => a.1 < b.1
  deriving DecidableEq

namespace ByteMap
variable {β : Type}

def empty : ByteMap β := ⟨[], .nil⟩

instance : Inhabited (ByteMap β) := ⟨empty⟩

def size (m : ByteMap β) : Nat := m.toList.length

def lookup (key : Bytes) : List (Bytes × β) → Option β
  | [] => none
  | (k, v) :: rest => if k = key then some v else lookup key rest

def get? (m : ByteMap β) (key : Bytes) : Option β := lookup key m.toList

def insertList (key : Bytes) (value : β) : List (Bytes × β) → List (Bytes × β)
  | [] => [(key, value)]
  | (k, v) :: rest =>
    if key < k then (key, value) :: (k, v) :: rest
    else if key = k then (key, value) :: rest
    else (k, v) :: insertList key value rest

theorem lt_of_not_lt_of_ne {a b : Bytes} (h : ¬a < b) (hne : a ≠ b) : b < a :=
  Classical.byContradiction fun h' =>
    hne (List.le_antisymm (List.not_lt.mp h') (List.not_lt.mp h))

theorem mem_insertList {key : Bytes} {value : β} {l : List (Bytes × β)} {e : Bytes × β}
    (h : e ∈ insertList key value l) : e = (key, value) ∨ e ∈ l := by
  induction l with
  | nil => simpa [insertList] using h
  | cons hd tl ih =>
    obtain ⟨k, v⟩ := hd
    simp only [insertList] at h
    split at h
    · simpa using h
    · split at h
      · rcases List.mem_cons.mp h with h | h
        · exact .inl h
        · exact .inr (List.mem_cons_of_mem _ h)
      · rcases List.mem_cons.mp h with h | h
        · exact .inr (h ▸ List.mem_cons_self)
        · exact (ih h).imp id (List.mem_cons_of_mem _)

theorem sorted_insertList (key : Bytes) (value : β) {l : List (Bytes × β)}
    (h : l.Pairwise fun a b => a.1 < b.1) :
    (insertList key value l).Pairwise fun a b => a.1 < b.1 := by
  induction l with
  | nil => simp [insertList]
  | cons hd tl ih =>
    obtain ⟨k, v⟩ := hd
    rw [List.pairwise_cons] at h
    simp only [insertList]
    split
    · rename_i hlt
      refine List.pairwise_cons.mpr ⟨fun e he => ?_, List.pairwise_cons.mpr h⟩
      rcases List.mem_cons.mp he with rfl | he
      · exact hlt
      · exact List.lt_trans hlt (h.1 e he)
    · rename_i hlt
      split
      · rename_i heq
        subst heq
        exact List.pairwise_cons.mpr h
      · rename_i hne
        refine List.pairwise_cons.mpr ⟨fun e he => ?_, ih h.2⟩
        rcases mem_insertList he with rfl | he
        · exact lt_of_not_lt_of_ne hlt hne
        · exact h.1 e he

def insert (m : ByteMap β) (key : Bytes) (value : β) : ByteMap β :=
  ⟨insertList key value m.toList, sorted_insertList key value m.sorted⟩

def erase (m : ByteMap β) (key : Bytes) : ByteMap β :=
  ⟨m.toList.filter fun e => e.1 ≠ key, m.sorted.filter _⟩

theorem get?_insert (m : ByteMap β) (key key' : Bytes) (value : β) :
    (m.insert key value).get? key' = if key = key' then some value else m.get? key' := by
  show lookup key' (insertList key value m.toList) = _
  rw [get?]
  generalize m.toList = l
  induction l with
  | nil => simp [insertList, lookup]
  | cons hd tl ih =>
    obtain ⟨k, v⟩ := hd
    simp only [insertList]
    split
    · simp [lookup]
    · split
      · rename_i heq
        subst heq
        simp only [lookup]
        split <;> rfl
      · rename_i hne
        simp only [lookup]
        split
        · rename_i heq
          rw [if_neg (heq ▸ hne)]
        · exact ih

theorem get?_erase (m : ByteMap β) (key key' : Bytes) :
    (m.erase key).get? key' = if key = key' then none else m.get? key' := by
  show lookup key' (m.toList.filter fun e => e.1 ≠ key) = _
  rw [get?]
  generalize m.toList = l
  induction l with
  | nil => simp [lookup]
  | cons hd tl ih =>
    obtain ⟨k, v⟩ := hd
    simp only [List.filter_cons]
    by_cases hk : k = key
    · subst hk
      simp only [ne_eq, not_true_eq_false, decide_false, Bool.false_eq_true, if_false, lookup]
      rw [ih]
      split <;> rfl
    · simp only [ne_eq, hk, not_false_eq_true, decide_true, if_true, lookup]
      rw [ih]
      by_cases hk' : k = key'
      · rw [if_pos hk', if_pos hk', if_neg fun h => hk (hk'.trans h.symm)]
      · rw [if_neg hk', if_neg hk']

theorem mem_toList {m : ByteMap β} {key : Bytes} {value : β} :
    (key, value) ∈ m.toList ↔ m.get? key = some value := by
  obtain ⟨l, hl⟩ := m
  rw [get?]
  induction l with
  | nil => simp [lookup]
  | cons hd tl ih =>
    obtain ⟨k, v⟩ := hd
    rw [List.pairwise_cons] at hl
    have htl := ih hl.2
    simp only at htl
    simp only [List.mem_cons, Prod.mk.injEq, lookup]
    split
    · rename_i hk
      subst hk
      constructor
      · rintro (⟨-, rfl⟩ | h)
        · rfl
        · exact absurd (hl.1 _ h) (List.lt_irrefl k)
      · rintro h
        exact .inl ⟨rfl, (Option.some.inj h).symm⟩
    · rename_i hk
      rw [htl]
      exact ⟨fun h => h.resolve_left fun h => hk h.1.symm, .inr⟩

theorem ext_get? {m m' : ByteMap β} (h : ∀ key, m.get? key = m'.get? key) : m = m' := by
  have hnodup : ∀ m : ByteMap β, m.toList.Nodup := fun m =>
    m.sorted.imp fun hlt heq => by
      rw [heq] at hlt
      exact List.lt_irrefl _ hlt
  have hperm : m.toList.Perm m'.toList :=
    (List.perm_ext_iff_of_nodup (hnodup m) (hnodup m')).mpr fun (key, value) => by
      rw [mem_toList, mem_toList, h]
  have heq := hperm.eq_of_pairwise
    (fun _ _ _ _ hab hba => absurd hba (List.lt_asymm hab)) m.sorted m'.sorted
  cases m
  cases m'
  cases heq
  rfl

def scan (m : ByteMap β) (first : Bytes) : List (Bytes × β) :=
  m.toList.filter fun e => Bytes.inScan first e.1

def ofList (l : List (Bytes × β)) : ByteMap β :=
  l.foldl (fun m e => m.insert e.1 e.2) empty

/-- Sets every key of `changes`, a key without a value being erased. -/
def apply (m : ByteMap β) (changes : ByteMap (Option β)) : ByteMap β :=
  changes.toList.foldl
    (fun m e => match e.2 with
      | some value => m.insert e.1 value
      | none => m.erase e.1)
    m

def changesList [DecidableEq β] :
    List (Bytes × β) → List (Bytes × β) → List (Bytes × Option β)
  | [], new => new.map fun e => (e.1, some e.2)
  | e :: old, [] => (e.1, none) :: changesList old []
  | (k, v) :: old, (k', v') :: new =>
    if k < k' then (k, none) :: changesList old ((k', v') :: new)
    else if k = k' then
      if v = v' then changesList old new else (k', some v') :: changesList old new
    else (k', some v') :: changesList ((k, v) :: old) new
  termination_by old new => old.length + new.length

def changes [DecidableEq β] (old new : ByteMap β) : List (Bytes × Option β) :=
  changesList old.toList new.toList

end ByteMap
end ReferralForest
