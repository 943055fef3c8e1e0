import ReferralForest.Forest.Heap

/-!
# Heap order in a list of tickets

Position `i` of a list has position `(i - 1) / 2` above it. A sift exchanges the
ticket at a hole with a neighbour. While it rises, the only pair that may be out of
order is the hole and the position above; while it sinks, the hole and its children.
In both cases what stands above the hole is no larger than what stands below, so
that an exchange moves the disorder along and nowhere else.
-/

namespace ReferralForest

namespace WeightedKey

theorem le_refl (a : WeightedKey) : a ≤ a := Int.le_refl _

theorem le_trans {a b c : WeightedKey} (h : a ≤ b) (h' : b ≤ c) : a ≤ c := Int.le_trans h h'

theorem le_of_lt {a b : WeightedKey} (h : a < b) : a ≤ b := Int.le_of_lt h

theorem not_le {a b : WeightedKey} : ¬a ≤ b ↔ b < a := Int.not_le

theorem not_lt {a b : WeightedKey} : ¬a < b ↔ b ≤ a := Int.not_lt

end WeightedKey

namespace Heap

section Exchange
variable {α : Type}

def exchange (l : List α) (i j : Nat) : List α :=
  match l[i]?, l[j]? with
  | some a, some b => (l.set i b).set j a
  | _, _ => l

theorem length_exchange (l : List α) (i j : Nat) : (exchange l i j).length = l.length := by
  rw [exchange]
  split
  · rw [List.length_set, List.length_set]
  · rfl

theorem lt_length {l : List α} {i : Nat} {a : α} (h : l[i]? = some a) : i < l.length :=
  (List.getElem?_eq_some_iff.mp h).1

theorem getElem?_exchange {l : List α} {i j : Nat} {a b : α} (hi : l[i]? = some a)
    (hj : l[j]? = some b) (k : Nat) :
    (exchange l i j)[k]? = if k = j then some a else if k = i then some b else l[k]? := by
  have hil := lt_length hi
  have hjl := lt_length hj
  simp only [exchange, hi, hj, List.getElem?_set, List.length_set]
  by_cases hkj : k = j
  · rw [if_pos hkj.symm, if_pos hjl, if_pos hkj]
  · rw [if_neg (Ne.symm hkj), if_neg hkj]
    by_cases hki : k = i
    · rw [if_pos hki.symm, if_pos hil, if_pos hki]
    · rw [if_neg (Ne.symm hki), if_neg hki]

theorem exchange_perm (l : List α) (i j : Nat) : (exchange l i j).Perm l := by
  rw [exchange]
  split
  · rename_i a b hi hj
    obtain ⟨hil, rfl⟩ := List.getElem?_eq_some_iff.mp hi
    obtain ⟨hjl, rfl⟩ := List.getElem?_eq_some_iff.mp hj
    exact List.set_set_perm hil hjl
  · exact .refl l

end Exchange

def OrderedAt (l : List Ticket) (i : Nat) : Prop :=
  ∀ parent child, 0 < i → l[(i - 1) / 2]? = some parent → l[i]? = some child →
    parent.key ≤ child.key

def Ordered (l : List Ticket) : Prop := ∀ i, OrderedAt l i

/-- What stands above the hole is no larger than what stands below it. -/
def Spans (l : List Ticket) (hole : Nat) : Prop :=
  ∀ i parent child, 0 < hole → 0 < i → (i - 1) / 2 = hole → l[(hole - 1) / 2]? = some parent →
    l[i]? = some child → parent.key ≤ child.key

/-- In order but for the hole and the position above it. -/
structure Rising (l : List Ticket) (hole : Nat) : Prop where
  others : ∀ i, i ≠ hole → OrderedAt l i
  spans : Spans l hole

/-- In order but for the hole and its children. -/
structure Sinking (l : List Ticket) (hole : Nat) : Prop where
  others : ∀ i, (i - 1) / 2 ≠ hole → OrderedAt l i
  spans : Spans l hole

variable {l : List Ticket} {hole : Nat} {ticket : Ticket}

theorem Ordered.root_le (h : Ordered l) {root : Ticket} (hroot : l[0]? = some root) :
    ∀ t ∈ l, root.key ≤ t.key := by
  have hall : ∀ (i : Nat) (t : Ticket), l[i]? = some t → root.key ≤ t.key := by
    intro i
    induction i using Nat.strongRecOn with
    | ind i ih =>
      intro t ht
      by_cases hi : i = 0
      · subst hi
        cases hroot.symm.trans ht
        exact WeightedKey.le_refl _
      · have hlt : (i - 1) / 2 < l.length := by
          have := lt_length ht
          omega
        have hparent : l[(i - 1) / 2]? = some l[(i - 1) / 2] := List.getElem?_eq_getElem hlt
        exact WeightedKey.le_trans (ih _ (by omega) _ hparent)
          (h i _ _ (Nat.pos_of_ne_zero hi) hparent ht)
  intro t ht
  obtain ⟨i, hi⟩ := List.mem_iff_getElem?.mp ht
  exact hall i t hi

theorem Rising.ordered_of_le (h : Rising l hole) (hticket : l[hole]? = some ticket)
    (hle : ∀ parent, 0 < hole → l[(hole - 1) / 2]? = some parent → parent.key ≤ ticket.key) :
    Ordered l := by
  intro i
  by_cases hi : i = hole
  · subst hi
    intro parent child hpos hparent hchild
    cases hticket.symm.trans hchild
    exact hle parent hpos hparent
  · exact h.others i hi

theorem Rising.exchange (h : Rising l hole) (hpos : 0 < hole) {parent : Ticket}
    (hticket : l[hole]? = some ticket) (hparent : l[(hole - 1) / 2]? = some parent)
    (hlt : ticket.key < parent.key) :
    Rising (exchange l hole ((hole - 1) / 2)) ((hole - 1) / 2) := by
  have hget := getElem?_exchange hticket hparent
  have hle := WeightedKey.le_of_lt hlt
  constructor
  · intro i hi above child hipos habove hchild
    rw [hget] at habove hchild
    rw [if_neg hi] at hchild
    by_cases hih : i = hole
    · rw [if_pos hih] at hchild
      rw [if_pos (by rw [hih])] at habove
      cases habove
      cases hchild
      exact hle
    · rw [if_neg hih] at hchild
      by_cases hia : (i - 1) / 2 = (hole - 1) / 2
      · -- `i` is the other child of the position above the hole
        rw [if_pos hia] at habove
        cases habove
        exact WeightedKey.le_trans hle (h.others i hih parent child hipos (hia ▸ hparent) hchild)
      · rw [if_neg hia] at habove
        by_cases hic : (i - 1) / 2 = hole
        · rw [if_pos hic] at habove
          cases habove
          exact h.spans i parent child hpos hipos hic hparent hchild
        · rw [if_neg hic] at habove
          exact h.others i hih above child hipos habove hchild
  · intro i above child hupos hipos hi habove hchild
    rw [hget] at habove hchild
    rw [if_neg (by omega), if_neg (by omega)] at habove
    have hup : above.key ≤ parent.key :=
      h.others _ (by omega) above parent hupos habove hparent
    rw [if_neg (by omega)] at hchild
    by_cases hih : i = hole
    · rw [if_pos hih] at hchild
      cases hchild
      exact hup
    · rw [if_neg hih] at hchild
      exact WeightedKey.le_trans hup (h.others i hih parent child hipos (hi ▸ hparent) hchild)

theorem Sinking.ordered_of_le (h : Sinking l hole) (hticket : l[hole]? = some ticket)
    (hle : ∀ i child, 0 < i → (i - 1) / 2 = hole → l[i]? = some child → ticket.key ≤ child.key) :
    Ordered l := by
  intro i
  by_cases hi : (i - 1) / 2 = hole
  · intro parent child hpos hparent hchild
    rw [hi] at hparent
    cases hticket.symm.trans hparent
    exact hle i child hpos hi hchild
  · exact h.others i hi

theorem Sinking.exchange (h : Sinking l hole) {c : Nat} {child : Ticket} (hc : 0 < c)
    (hchole : (c - 1) / 2 = hole) (hticket : l[hole]? = some ticket) (hchild : l[c]? = some child)
    (hlt : child.key < ticket.key)
    (hleast : ∀ i other, 0 < i → (i - 1) / 2 = hole → l[i]? = some other → child.key ≤ other.key) :
    Sinking (exchange l hole c) c := by
  have hget := getElem?_exchange hticket hchild
  constructor
  · intro i hi above below hipos habove hbelow
    rw [hget] at habove hbelow
    rw [if_neg hi] at habove
    by_cases hic : i = c
    · rw [if_pos hic] at hbelow
      rw [if_pos (by rw [hic, hchole])] at habove
      cases habove
      cases hbelow
      exact WeightedKey.le_of_lt hlt
    · rw [if_neg hic] at hbelow
      by_cases hih : i = hole
      · rw [if_pos hih] at hbelow
        cases hbelow
        rw [if_neg (by omega), hih] at habove
        exact h.spans c above child (hih ▸ hipos) hc hchole habove hchild
      · rw [if_neg hih] at hbelow
        by_cases hia : (i - 1) / 2 = hole
        · rw [if_pos hia] at habove
          cases habove
          exact hleast i below hipos hia hbelow
        · rw [if_neg hia] at habove
          exact h.others i hia above below hipos habove hbelow
  · intro i above below _ hipos hi habove hbelow
    rw [hget] at habove hbelow
    rw [hchole, if_neg (by omega), if_pos rfl] at habove
    rw [if_neg (by omega), if_neg (by omega)] at hbelow
    cases habove
    exact h.others i (by omega) child below hipos (hi ▸ hchild) hbelow

theorem Ordered.rising_append (h : Ordered l) (ticket : Ticket) :
    Rising (l ++ [ticket]) l.length := by
  have hold : ∀ i t, i ≠ l.length → (l ++ [ticket])[i]? = some t → l[i]? = some t := by
    intro i t hi ht
    have hlt := lt_length ht
    rw [List.length_append, List.length_singleton] at hlt
    rwa [List.getElem?_append_left (by omega)] at ht
  constructor
  · intro i hi parent child hpos hparent hchild
    have hlt := lt_length (hold i child hi hchild)
    exact h i parent child hpos (hold _ parent (by omega) hparent) (hold i child hi hchild)
  · intro i parent child _ _ hi _ hchild
    have hlt := lt_length hchild
    rw [List.length_append, List.length_singleton] at hlt
    omega

theorem Ordered.sinking_cons {least last : Ticket} {middle : List Ticket}
    (h : Ordered (least :: (middle ++ [last]))) : Sinking (last :: middle) 0 := by
  have hold : ∀ i t, 0 < i → (last :: middle)[i]? = some t →
      (least :: (middle ++ [last]))[i]? = some t := by
    intro i t hi ht
    obtain ⟨k, rfl⟩ : ∃ k, i = k + 1 := ⟨i - 1, by omega⟩
    rw [List.getElem?_cons_succ] at ht ⊢
    rwa [List.getElem?_append_left (lt_length ht)]
  constructor
  · intro i hi parent child hpos hparent hchild
    exact h i parent child hpos (hold _ parent (Nat.pos_of_ne_zero hi) hparent)
      (hold i child hpos hchild)
  · intro i parent child hhole
    exact absurd hhole (Nat.lt_irrefl 0)

end Heap
end ReferralForest
