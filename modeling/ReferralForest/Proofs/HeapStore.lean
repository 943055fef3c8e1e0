import ReferralForest.Proofs.Footprint
import ReferralForest.Proofs.HeapOrder
import ReferralForest.Proofs.Keys
import ReferralForest.Proofs.Records

/-!
# The stored heap

A map stores a list of tickets as a heap when its size entry counts them, its slots
read as them in heap order and no other slot is there. A sift works on a map in which
one slot, the hole, holds anything: it ends with the list it began with, the ticket
of the hole in its place, in another order that is a heap again. A push adds a
ticket and a pop takes the first one, which is the smallest.
-/

namespace ReferralForest.Heap
open Tx (firstChildless)

def SlotReads (m : ByteMap Bytes) (i : Nat) (t : Ticket) : Prop :=
  ∃ value, m.get? (Key.slot i) = some value ∧ Ticket.ofBytes value = .ok t

def HoldsBut (hole : Nat) (m : ByteMap Bytes) (l : List Ticket) : Prop :=
  ∀ i t, i ≠ hole → l[i]? = some t → SlotReads m i t

def Holds (m : ByteMap Bytes) (l : List Ticket) : Prop := ∀ i t, l[i]? = some t → SlotReads m i t

def SameBut (n : Nat) (m m' : ByteMap Bytes) : Prop :=
  ∀ key, (∀ i < n, key ≠ Key.slot i) → m'.get? key = m.get? key

structure Sifted (m : ByteMap Bytes) (l : List Ticket) (m' : ByteMap Bytes) (l' : List Ticket) :
    Prop where
  holds : Holds m' l'
  ordered : Ordered l'
  perm : l'.Perm l
  same : SameBut l.length m m'

/-- A ticket sinks to its place, or out of the positions of 64 bits. -/
def Sinks (m : ByteMap Bytes) (l : List Ticket) (r : Except StoreError Unit × ByteMap Bytes) :
    Prop :=
  (∃ m' l', r = (.ok (), m') ∧ Sifted m l m' l') ∨
    ∃ m', r = (.error .outOfRange, m') ∧ firstChildless < l.length

variable {m m' : ByteMap Bytes} {l l' : List Ticket} {hole size : Nat} {ticket : Ticket}

theorem SlotReads.congr {i : Nat} {t : Ticket} (h : SlotReads m i t)
    (hsame : m'.get? (Key.slot i) = m.get? (Key.slot i)) : SlotReads m' i t := by
  obtain ⟨value, hget, hread⟩ := h
  exact ⟨value, hsame.trans hget, hread⟩

theorem SlotReads.isSome {i : Nat} {t : Ticket} (h : SlotReads m i t) :
    (m.get? (Key.slot i)).isSome = true := by
  obtain ⟨value, hget, -⟩ := h
  rw [hget]
  rfl

theorem slotReads_insert (m : ByteMap Bytes) (i : Nat) (t : Ticket) :
    SlotReads (m.insert (Key.slot i) t.toBytes) i t := by
  refine ⟨t.toBytes, ?_, Ticket.ofBytes_toBytes t⟩
  rw [ByteMap.get?_insert, if_pos rfl]

theorem SameBut.trans {n : Nat} {m'' : ByteMap Bytes} (h : SameBut n m m') (h' : SameBut n m' m'') :
    SameBut n m m'' := fun key hkey => (h' key hkey).trans (h key hkey)

theorem sameBut_insert {n i : Nat} (h : i < n) (m : ByteMap Bytes) (value : Bytes) :
    SameBut n m (m.insert (Key.slot i) value) := by
  intro key hkey
  rw [ByteMap.get?_insert, if_neg fun heq => hkey i h heq.symm]

theorem HoldsBut.fill (h : HoldsBut hole m l) (hlen : l.length ≤ UInt64.size)
    (hticket : l[hole]? = some ticket) : Holds (m.insert (Key.slot hole) ticket.toBytes) l := by
  intro i t ht
  by_cases hi : i = hole
  · subst hi
    cases hticket.symm.trans ht
    exact slotReads_insert m i ticket
  · have hil := lt_length ht
    have hhole := lt_length hticket
    have hkey : Key.slot hole ≠ Key.slot i := by
      rw [Ne, Key.slot_inj (by omega) (by omega)]
      exact Ne.symm hi
    exact (h i t hi ht).congr (by rw [ByteMap.get?_insert, if_neg hkey])

theorem HoldsBut.exchange (h : HoldsBut hole m l) (hlen : l.length ≤ UInt64.size) {other : Nat}
    {moved : Ticket} (hticket : l[hole]? = some ticket) (hmoved : l[other]? = some moved) :
    HoldsBut other (m.insert (Key.slot hole) moved.toBytes) (exchange l hole other) := by
  intro i t hi ht
  rw [getElem?_exchange hticket hmoved, if_neg hi] at ht
  by_cases hih : i = hole
  · subst hih
    rw [if_pos rfl] at ht
    cases ht
    exact slotReads_insert m i moved
  · rw [if_neg hih] at ht
    have hil := lt_length ht
    have hhole := lt_length hticket
    have hkey : Key.slot hole ≠ Key.slot i := by
      rw [Ne, Key.slot_inj (by omega) (by omega)]
      exact Ne.symm hih
    exact (h i t hih ht).congr (by rw [ByteMap.get?_insert, if_neg hkey])

theorem Sifted.of_exchange {other : Nat} {value : Bytes} (hhole : hole < l.length)
    (h : Sifted (m.insert (Key.slot hole) value) (exchange l hole other) m' l') :
    Sifted m l m' l' := by
  refine ⟨h.holds, h.ordered, h.perm.trans (exchange_perm l hole other), ?_⟩
  have hsame := h.same
  rw [length_exchange] at hsame
  exact (sameBut_insert hhole m value).trans hsame

theorem sifted_fill (h : HoldsBut hole m l) (hlen : l.length ≤ UInt64.size)
    (hticket : l[hole]? = some ticket) (ho : Ordered l) :
    Sifted m l (m.insert (Key.slot hole) ticket.toBytes) l :=
  ⟨h.fill hlen hticket, ho, .refl l, sameBut_insert (lt_length hticket) m _⟩

theorem eval_readOccupied {i : Nat} {t : Ticket} (h : SlotReads m i t) (size : Nat) :
    (Tx.readOccupied i size).eval m = (.ok t, m) := by
  obtain ⟨value, hget, hvalue⟩ := h
  have hread : (Tx.readSlot i).eval m = (.ok (some t), m) := Tx.eval_readAs_some hget hvalue
  rw [Tx.readOccupied, Tx.eval_bind_ok hread]
  rfl

theorem eval_siftUp (hm : HoldsBut hole m l) (hlen : l.length ≤ UInt64.size)
    (hticket : l[hole]? = some ticket) (ho : Rising l hole) :
    ∃ m' l', (Tx.siftUp ticket size hole).eval m = (.ok (), m') ∧ Sifted m l m' l' := by
  -- the list has the ticket in the hole already, the map only in the end
  induction hole using Nat.strongRecOn generalizing m l with
  | ind hole ih =>
    rw [Tx.siftUp]
    by_cases hpos : hole = 0
    · rw [dif_pos hpos]
      have hord : Ordered l := ho.ordered_of_le hticket fun parent h => by omega
      exact ⟨_, l, rfl, sifted_fill hm hlen hticket hord⟩
    · have hhole := lt_length hticket
      have hparent : l[(hole - 1) / 2]? = some l[(hole - 1) / 2] :=
        List.getElem?_eq_getElem (by omega)
      generalize l[(hole - 1) / 2] = parent at hparent
      rw [dif_neg hpos]
      simp only
      rw [Tx.eval_bind_ok (eval_readOccupied (hm _ parent (by omega) hparent) size)]
      split
      · rename_i hle
        have hord : Ordered l := ho.ordered_of_le hticket fun above _ habove => by
          cases hparent.symm.trans habove
          exact hle
        exact ⟨_, l, rfl, sifted_fill hm hlen hticket hord⟩
      · rename_i hle
        have hget := getElem?_exchange hticket hparent ((hole - 1) / 2)
        rw [if_pos rfl] at hget
        obtain ⟨m', l', heval, hsifted⟩ := ih ((hole - 1) / 2) (by omega)
          (hm.exchange hlen hticket hparent) (by rw [length_exchange]; exact hlen) hget
          (ho.exchange (Nat.pos_of_ne_zero hpos) hticket hparent (WeightedKey.not_le.mp hle))
        exact ⟨m', l', heval, hsifted.of_exchange hhole⟩

theorem eval_settle (hm : HoldsBut hole m l) (hlen : l.length ≤ UInt64.size)
    (hticket : l[hole]? = some ticket) (ho : Sinking l hole) {c : Nat} {child : Ticket} (hc : 0 < c)
    (hchole : (c - 1) / 2 = hole) (hchild : l[c]? = some child)
    (hleast : ∀ i other, 0 < i → (i - 1) / 2 = hole → l[i]? = some other → child.key ≤ other.key)
    {next : Tx Unit}
    (ih : ∀ m₁ l₁, HoldsBut c m₁ l₁ → l₁.length = l.length → l₁[c]? = some ticket →
      Sinking l₁ c → Sinks m₁ l₁ (next.eval m₁)) :
    Sinks m l ((Tx.settle ticket child hole next).eval m) := by
  rw [Tx.settle]
  split
  · rename_i hle
    have hord : Ordered l := ho.ordered_of_le hticket fun i other hpos hi hother =>
      WeightedKey.le_trans hle (hleast i other hpos hi hother)
    exact .inl ⟨_, l, rfl, sifted_fill hm hlen hticket hord⟩
  · rename_i hle
    have hget := getElem?_exchange hticket hchild c
    rw [if_pos rfl] at hget
    have hnext := ih _ _ (hm.exchange hlen hticket hchild) (length_exchange l hole c) hget
      (ho.exchange hc hchole hticket hchild (WeightedKey.not_le.mp hle) hleast)
    rcases hnext with ⟨m', l', heval, hsifted⟩ | ⟨m', heval, hlong⟩
    · exact .inl ⟨m', l', heval, hsifted.of_exchange (lt_length hticket)⟩
    · rw [length_exchange] at hlong
      exact .inr ⟨m', heval, hlong⟩

theorem eval_siftDown (hm : HoldsBut hole m l) (hlen : l.length ≤ UInt64.size)
    (hticket : l[hole]? = some ticket) (ho : Sinking l hole) :
    Sinks m l ((Tx.siftDown ticket l.length hole).eval m) := by
  induction hd : l.length - hole using Nat.strongRecOn generalizing m l hole with
  | ind d ih =>
    have hhole := lt_length hticket
    have hnext : ∀ c m₁ l₁, hole < c → HoldsBut c m₁ l₁ → l₁.length = l.length →
        l₁[c]? = some ticket → Sinking l₁ c →
        Sinks m₁ l₁ ((Tx.siftDown ticket l.length c).eval m₁) := by
      intro c m₁ l₁ hc hm₁ hlen₁ hticket₁ ho₁
      rw [← hlen₁]
      exact ih (l₁.length - c) (by omega) hm₁ (by omega) hticket₁ ho₁ rfl
    rw [Tx.siftDown]
    split
    · rename_i hout
      exact .inr ⟨m, rfl, by omega⟩
    split
    · rename_i hleaf
      have hord : Ordered l := ho.ordered_of_le hticket fun i child _ hi hchild => by
        have := lt_length hchild
        omega
      exact .inl ⟨_, l, rfl, sifted_fill hm hlen hticket hord⟩
    · rename_i hinner
      have hleft : l[2 * hole + 1]? = some l[2 * hole + 1] := List.getElem?_eq_getElem (by omega)
      generalize l[2 * hole + 1] = left at hleft
      rw [Tx.eval_bind_ok (eval_readOccupied (hm _ left (by omega) hleft) l.length)]
      split
      · rename_i honly
        refine eval_settle hm hlen hticket ho (by omega) (by omega) hleft ?_
          fun m₁ l₁ => hnext (2 * hole + 1) m₁ l₁ (by omega)
        intro i other hpos hi hother
        have hlt := lt_length hother
        obtain rfl : i = 2 * hole + 1 := by omega
        cases hleft.symm.trans hother
        exact WeightedKey.le_refl _
      · rename_i hboth
        have hright : l[2 * hole + 2]? = some l[2 * hole + 2] :=
          List.getElem?_eq_getElem (by omega)
        generalize l[2 * hole + 2] = right at hright
        -- a child of the hole is the left or the right one
        have hchildren : ∀ i other, 0 < i → (i - 1) / 2 = hole → l[i]? = some other →
            other = left ∨ other = right := by
          intro i other hpos hi hother
          have hcases : i = 2 * hole + 1 ∨ i = 2 * hole + 2 := by omega
          rcases hcases with rfl | rfl
          · exact .inl (Option.some.inj (hother.symm.trans hleft))
          · exact .inr (Option.some.inj (hother.symm.trans hright))
        rw [Tx.eval_bind_ok (eval_readOccupied (hm _ right (by omega) hright) l.length)]
        split
        · rename_i hlt
          refine eval_settle hm hlen hticket ho (by omega) (by omega) hright ?_
            fun m₁ l₁ => hnext (2 * hole + 2) m₁ l₁ (by omega)
          intro i other hpos hi hother
          rcases hchildren i other hpos hi hother with rfl | rfl
          · exact WeightedKey.le_of_lt hlt
          · exact WeightedKey.le_refl _
        · rename_i hge
          refine eval_settle hm hlen hticket ho (by omega) (by omega) hleft ?_
            fun m₁ l₁ => hnext (2 * hole + 1) m₁ l₁ (by omega)
          intro i other hpos hi hother
          rcases hchildren i other hpos hi hother with rfl | rfl
          · exact WeightedKey.le_refl _
          · exact WeightedKey.not_lt.mp hge

structure Stored (m : ByteMap Bytes) (l : List Ticket) : Prop where
  size : Tx.readHeapSize.eval m = (.ok l.length, m)
  short : l.length < UInt64.size
  holds : Holds m l
  ordered : Ordered l
  slots : ∀ key, key.head? = some Key.slotTag → m.get? key ≠ none →
    ∃ i < l.length, key = Key.slot i

theorem eval_readHeapSize {n : Nat} (hn : n < UInt64.size)
    (h : m.get? Key.heapSize = some (HeapSize.toBytes n)) :
    Tx.readHeapSize.eval m = (.ok n, m) := by
  have hdecode := HeapSize.ofBytes_toBytes n
  rw [Bytes.count_eight, Nat.mod_eq_of_lt hn] at hdecode
  rw [Tx.readHeapSize, Tx.eval_bind_ok (Tx.eval_readAs_some h hdecode)]
  rfl

theorem holds_nil (m : ByteMap Bytes) : Holds m [] := by
  intro i t ht
  cases ht

theorem ordered_nil : Ordered [] := by
  intro i parent child _ hparent
  cases hparent

theorem stored_empty : Stored .empty [] :=
  ⟨rfl, by decide, holds_nil _, ordered_nil, fun _ _ h => absurd rfl h⟩

theorem Stored.congr (h : Stored m l)
    (hsame : ∀ key, key.head? = some Key.sizeTag ∨ key.head? = some Key.slotTag →
      m'.get? key = m.get? key) : Stored m' l := by
  have hsize : m'.get? Key.heapSize = m.get? Key.heapSize := hsame _ (.inl rfl)
  refine ⟨?_, h.short, fun i t ht => ?_, h.ordered, fun key hkey hne => ?_⟩
  · have hread := h.size
    obtain ⟨r, hr, hr'⟩ := Tx.eval_readAs_congr HeapSize.ofBytes hsize
    rw [Tx.readHeapSize, Tx.eval_bind, hr] at hread
    rw [Tx.readHeapSize, Tx.eval_bind, hr']
    cases r with
    | ok n =>
      simp only [Tx.eval_pure, Prod.mk.injEq, and_true] at hread ⊢
      exact hread
    | error e => cases hread
  · exact (h.holds i t ht).congr (hsame _ (.inr rfl))
  · rw [hsame key (.inr hkey)] at hne
    exact h.slots key hkey hne

theorem Sifted.stored (h : Sifted m l m' l') (hshort : l.length < UInt64.size)
    (hsize : m.get? Key.heapSize = some (HeapSize.toBytes l.length))
    (hslots : ∀ key, key.head? = some Key.slotTag → m.get? key ≠ none →
      ∃ i < l.length, key = Key.slot i) : Stored m' l' := by
  have hlen : l'.length = l.length := h.perm.length_eq
  refine ⟨?_, by rw [hlen]; exact hshort, h.holds, h.ordered, fun key hkey hne => ?_⟩
  · apply eval_readHeapSize (by rw [hlen]; exact hshort)
    rw [h.same _ fun i _ => Key.heapSize_ne_slot i, hsize, hlen]
  · rw [hlen]
    by_cases hlow : ∃ i < l.length, key = Key.slot i
    · exact hlow
    · rw [h.same key fun i hi heq => hlow ⟨i, hi, heq⟩] at hne
      exact hslots key hkey hne

theorem eval_heapPush_full {capacity : Nat} (h : Stored m l) (hfull : capacity ≤ l.length)
    (ticket : Ticket) : (Tx.heapPush capacity ticket).eval m = (.ok false, m) := by
  rw [Tx.heapPush, Tx.eval_bind_ok h.size, if_pos hfull]
  rfl

theorem eval_heapPush_room {capacity : Nat} (h : Stored m l) (hroom : l.length < capacity)
    (hcapacity : capacity < UInt64.size) (ticket : Ticket) :
    ∃ m' l', (Tx.heapPush capacity ticket).eval m = (.ok true, m') ∧ Stored m' l' ∧
      l'.Perm (ticket :: l) := by
  let m₁ := m.insert Key.heapSize (HeapSize.toBytes (l.length + 1))
  have hslot : ∀ i, m₁.get? (Key.slot i) = m.get? (Key.slot i) := fun i => by
    rw [ByteMap.get?_insert, if_neg (Key.heapSize_ne_slot i)]
  have hlen : (l ++ [ticket]).length = l.length + 1 := by simp
  have hholds : HoldsBut l.length m₁ (l ++ [ticket]) := by
    intro i t hi ht
    have hlt := lt_length ht
    rw [List.getElem?_append_left (by omega)] at ht
    exact (h.holds i t ht).congr (hslot i)
  have hticket : (l ++ [ticket])[l.length]? = some ticket := by simp
  obtain ⟨m', l', heval, hsifted⟩ := eval_siftUp hholds (by omega) hticket
    (h.ordered.rising_append ticket)
  have hstored : Stored m' l' := by
    refine hsifted.stored (by omega) (by rw [ByteMap.get?_insert, if_pos rfl, hlen])
      fun key hkey hne => ?_
    have hkeySize : Key.heapSize ≠ key := by
      rintro rfl
      exact absurd hkey (by decide)
    rw [ByteMap.get?_insert, if_neg hkeySize] at hne
    obtain ⟨i, hi, rfl⟩ := h.slots key hkey hne
    exact ⟨i, by omega, rfl⟩
  refine ⟨m', l', ?_, hstored, hsifted.perm.trans (List.perm_append_singleton ticket l)⟩
  rw [Tx.heapPush, Tx.eval_bind_ok h.size, if_neg (Nat.not_le.mpr hroom)]
  show ((Tx.siftUp ticket (l.length + 1) l.length) >>= fun _ => pure true).eval m₁ = _
  rw [Tx.eval_bind_ok heval]
  rfl

theorem eval_heapPop_nil (h : Stored m []) : Tx.heapPop.eval m = (.ok none, m) := by
  rw [Tx.heapPop, Tx.eval_bind_ok h.size]
  rfl

def shrunk (m : ByteMap Bytes) (n : Nat) : ByteMap Bytes :=
  (m.erase (Key.slot n)).insert Key.heapSize (HeapSize.toBytes n)

theorem get?_shrunk_slot {n i : Nat} (hn : n < UInt64.size) (hi : i < n) :
    (shrunk m n).get? (Key.slot i) = m.get? (Key.slot i) := by
  have hne : Key.slot n ≠ Key.slot i := by
    rw [Ne, Key.slot_inj hn (by omega)]
    omega
  rw [shrunk, ByteMap.get?_insert, if_neg (Key.heapSize_ne_slot i), ByteMap.get?_erase, if_neg hne]

theorem slots_shrunk {n : Nat}
    (h : ∀ key, key.head? = some Key.slotTag → m.get? key ≠ none →
      ∃ i < n + 1, key = Key.slot i) (key : Bytes) (hkey : key.head? = some Key.slotTag)
    (hne : (shrunk m n).get? key ≠ none) : ∃ i < n, key = Key.slot i := by
  have hkeySize : Key.heapSize ≠ key := by
    rintro rfl
    exact absurd hkey (by decide)
  rw [shrunk, ByteMap.get?_insert, if_neg hkeySize, ByteMap.get?_erase] at hne
  split at hne
  · exact absurd rfl hne
  · rename_i hlast
    obtain ⟨i, hi, rfl⟩ := h key hkey hne
    have hin : i ≠ n := fun heq => hlast (heq ▸ rfl)
    exact ⟨i, by omega, rfl⟩

theorem sinks_shrunk {least last : Ticket} {middle : List Ticket}
    (h : Stored m (least :: (middle ++ [last]))) :
    Sinks (shrunk m (middle.length + 1)) (last :: middle)
      ((Tx.siftDown last (middle.length + 1) 0).eval (shrunk m (middle.length + 1))) := by
  have hshort := h.short
  rw [List.length_cons, List.length_append, List.length_singleton] at hshort
  have hholds : HoldsBut 0 (shrunk m (middle.length + 1)) (last :: middle) := by
    intro i t hi ht
    have hlt := lt_length ht
    rw [List.length_cons] at hlt
    refine SlotReads.congr (h.holds i t ?_) (get?_shrunk_slot (by omega) hlt)
    obtain ⟨k, rfl⟩ : ∃ k, i = k + 1 := ⟨i - 1, by omega⟩
    rw [List.getElem?_cons_succ] at ht ⊢
    rwa [List.getElem?_append_left (lt_length ht)]
  have hlen : (last :: middle).length ≤ UInt64.size := by
    rw [List.length_cons]
    omega
  exact eval_siftDown hholds hlen rfl h.ordered.sinking_cons

theorem eval_heapPop_cons {least : Ticket} {rest : List Ticket} (h : Stored m (least :: rest)) :
    (∃ m' l', Tx.heapPop.eval m = (.ok (some least), m') ∧ Stored m' l' ∧ l'.Perm rest) ∨
      ∃ m', Tx.heapPop.eval m = (.error .outOfRange, m') ∧ firstChildless < rest.length := by
  have hshort := h.short
  have hslots := slots_shrunk h.slots
  have hsize : (shrunk m rest.length).get? Key.heapSize = some (HeapSize.toBytes rest.length) := by
    rw [shrunk, ByteMap.get?_insert, if_pos rfl]
  have hleast := eval_readOccupied (h.holds 0 least rfl) (rest.length + 1)
  rw [Tx.heapPop, Tx.eval_bind_ok h.size]
  simp only [List.length_cons, Nat.add_one_ne_zero, if_false, Nat.add_sub_cancel] at hshort ⊢
  rw [Tx.eval_bind_ok hleast]
  rcases List.eq_nil_or_concat rest with rfl | ⟨middle, last, hrest⟩
  · left
    refine ⟨shrunk m 0, [], ?_, ?_, .refl []⟩
    · exact Tx.eval_bind_ok hleast
    · have hsifted : Sifted (shrunk m 0) [] (shrunk m 0) [] :=
        ⟨holds_nil _, ordered_nil, .refl [], fun key _ => rfl⟩
      exact hsifted.stored (by decide) hsize hslots
  · rw [List.concat_eq_append] at hrest
    subst hrest
    have hlen : (middle ++ [last]).length = middle.length + 1 := by simp
    rw [hlen] at hshort hslots hsize ⊢
    have hget : (least :: (middle ++ [last]))[middle.length + 1]? = some last := by simp
    rw [Tx.eval_bind_ok (eval_readOccupied (h.holds _ last hget) _)]
    show (∃ m' l', (Tx.siftDown last (middle.length + 1) 0 >>= fun _ => pure (some least)).eval
        (shrunk m (middle.length + 1)) = _ ∧ _) ∨ ∃ m', (Tx.siftDown last (middle.length + 1) 0 >>=
        fun _ => pure (some least)).eval (shrunk m (middle.length + 1)) = _ ∧ _
    rcases sinks_shrunk h with ⟨m', l', heval, hsifted⟩ | ⟨m', heval, hdeep⟩
    · left
      refine ⟨m', l', Tx.eval_bind_ok heval,
        hsifted.stored (by simpa using by omega) hsize hslots, ?_⟩
      exact hsifted.perm.trans (List.perm_append_singleton last middle).symm
    · exact .inr ⟨m', Tx.eval_bind_error heval, hdeep⟩

end ReferralForest.Heap
