import ReferralForest.Proofs.Ancestry

/-!
# What a credit does to the amounts

A credit that succeeds adds its change to every address from its start up to the root
and to no other, and leaves none of these negative. The walk is followed record by
record: one step adds to one amount, and the parents stay as they are. As ranks fall
along the walk, no address is met twice, and none is left over when the limit lies above
the rank of the start.
-/

namespace ReferralForest

theorem NetValue.credit_eq_ok {r r' : NetValue} {address : Address} {change : Int64}
    (h : r.credit address change = .ok r') :
    r'.amount.toInt = r.amount.toInt + change.toInt ∧ 0 ≤ r'.amount.toInt := by
  rw [credit] at h
  split at h
  · cases h
  · rename_i hrange
    split at h
    · cases h
    · rename_i hsum
      cases h
      have hmin : Int64.minValue.toInt = -2 ^ 63 := by decide
      have hmax : Int64.maxValue.toInt = 2 ^ 63 - 1 := by decide
      have hread : (Int64.ofInt (r.amount.toInt + change.toInt)).toInt =
          r.amount.toInt + change.toInt := Int64.toInt_ofInt_of_le (by omega) (by omega)
      rw [hread]
      exact ⟨rfl, by omega⟩

inductive Violation.OfAmount : Violation → Prop
  | negative (address : Address) (amount : Int) : OfAmount (.negativeNetValue address amount)
  | overflow (address : Address) (change : Int) : OfAmount (.netValueOverflow address change)

theorem NetValue.credit_eq_error {r : NetValue} {address : Address} {change : Int64} {v : Violation}
    (h : r.credit address change = .error v) : v.OfAmount := by
  rw [credit] at h
  split at h
  · cases h
    exact .overflow _ _
  · split at h
    · cases h
      exact .negative _ _
    · cases h

def NetValue.worth : Option NetValue → Int
  | none => 0
  | some r => r.amount.toInt

def amountOf (m : ByteMap Bytes) (a : Address) : Int :=
  match ((Tx.readNetValue a).eval m).1 with
  | .ok value? => NetValue.worth value?
  | .error _ => 0

variable {m m' : ByteMap Bytes} {a x : Address}

theorem amountOf_eq {value? : Option NetValue}
    (h : (Tx.readNetValue a).eval m = (.ok value?, m)) : amountOf m a = NetValue.worth value? := by
  rw [amountOf, h]

theorem amountOf_congr (h : m'.get? (Key.netValue a) = m.get? (Key.netValue a)) :
    amountOf m' a = amountOf m a := by
  obtain ⟨r, hr, hr'⟩ := Tx.eval_readAs_congr NetValue.ofBytes h
  rw [amountOf, amountOf, Tx.readNetValue, hr, hr']

theorem amountOf_insert (m : ByteMap Bytes) (a : Address) (r : NetValue) :
    amountOf (m.insert (Key.netValue a) r.toBytes) a = r.amount.toInt := by
  have hget : (m.insert (Key.netValue a) r.toBytes).get? (Key.netValue a) = some r.toBytes := by
    rw [ByteMap.get?_insert, if_pos rfl]
  rw [amountOf_eq (Tx.eval_readAs_some hget (NetValue.ofBytes_toBytes r))]
  rfl

theorem amountOf_insert_of_ne (m : ByteMap Bytes) {v : Bytes} (h : a ≠ x) :
    amountOf (m.insert (Key.netValue a) v) x = amountOf m x := by
  apply amountOf_congr
  rw [ByteMap.get?_insert]
  exact if_neg (Key.Subject.key_ne (mt Key.Subject.netValue.inj h))

theorem parentOf_insert_netValue (m : ByteMap Bytes) (a : Address) (v : Bytes) :
    parentOf (m.insert (Key.netValue a) v) = parentOf m := by
  funext b
  apply parentOf_congr
  simp only [ByteMap.get?_insert, Key.Subject.key_inj, reduceCtorEq, if_false]

theorem eval_creditOne_eq_ok {value? : Option NetValue} {change : Int64}
    {stamp : NetValue → NetValue} (hread : (Tx.readNetValue a).eval m = (.ok value?, m))
    (heval : (Tx.creditOne a change stamp).eval m = (.ok (), m')) :
    ∃ r : NetValue, (stamp (value?.getD .fresh)).credit a change = .ok r ∧
      m' = m.insert (Key.netValue a) r.toBytes := by
  rw [Tx.creditOne, Tx.eval_bind_ok hread] at heval
  simp only at heval
  split at heval
  · rename_i r hcredit
    cases heval
    exact ⟨r, hcredit, rfl⟩
  · cases heval

theorem eval_creditOne (h : WellFormed m) {change : Int64} {stamp : NetValue → NetValue}
    (hstamp : ∀ r, (stamp r).amount = r.amount)
    (heval : (Tx.creditOne a change stamp).eval m = (.ok (), m')) :
    ∃ r : NetValue, m' = m.insert (Key.netValue a) r.toBytes ∧
      r.amount.toInt = amountOf m a + change.toInt ∧ 0 ≤ r.amount.toInt := by
  obtain ⟨value?, hread⟩ := h.eval_readNetValue a
  have hworth : (stamp (value?.getD .fresh)).amount.toInt = amountOf m a := by
    rw [hstamp, amountOf_eq hread]
    cases value? <;> rfl
  obtain ⟨r, hcredit, hm⟩ := eval_creditOne_eq_ok hread heval
  have hsum := NetValue.credit_eq_ok hcredit
  rw [hworth] at hsum
  exact ⟨r, hm, hsum⟩

theorem eval_creditOne_error (h : WellFormed m) {change : Int64} {stamp : NetValue → NetValue}
    {e : StoreError} (heval : (Tx.creditOne a change stamp).eval m = (.error e, m')) :
    ∃ v : Violation, e = .invariant v ∧ v.OfAmount := by
  obtain ⟨value?, hread⟩ := h.eval_readNetValue a
  rw [Tx.creditOne, Tx.eval_bind_ok hread] at heval
  simp only at heval
  split at heval
  · cases heval
  · rename_i v hcredit
    cases heval
    exact ⟨v, rfl, NetValue.credit_eq_error hcredit⟩

/-- What a walk has done to an address, on its way or off it. -/
structure Credited (parent : Address → Option Address) (start : Address) (change : Int)
    (m m' : ByteMap Bytes) (x : Address) : Prop where
  on : Below parent start x → amountOf m' x = amountOf m x + change ∧ 0 ≤ amountOf m' x
  off : ¬Below parent start x → amountOf m' x = amountOf m x

theorem eval_creditFrom {parent : Address → Option Address} {rank : Address → Nat}
    (hrank : ∀ a p, parent a = some p → rank p < rank a) {start : Address} {limit levels : Nat}
    {change : Int64} {stamp : NetValue → NetValue} (hstamp : ∀ r, (stamp r).amount = r.amount)
    (h : WellFormed m) (hparent : parentOf m = parent)
    (heval : (Tx.creditFrom start limit change levels stamp a).eval m = (.ok (), m'))
    (x : Address) :
    Credited parent a change.toInt m m' x := by
  induction levels generalizing m a stamp with
  | zero => cases heval
  | succ levels ih =>
    obtain ⟨u, m₁, hone, hrest⟩ := Tx.eval_bind_eq_ok heval
    obtain ⟨r, rfl, hsum, hnonneg⟩ := eval_creditOne h hstamp hone
    have hwritten : WellFormed (m.insert (Key.netValue a) r.toBytes) :=
      h.insert (.inr (.inl (.record a r)))
    have hparent₁ : parentOf (m.insert (Key.netValue a) r.toBytes) = parent := by
      rw [parentOf_insert_netValue, hparent]
    obtain ⟨parent?, hread⟩ := hwritten.eval_readParent a
    have hnext : parent?.bind Address.nonRoot = parent a := by
      rw [← hparent₁, parentOf_eq hread]
    have hself := amountOf_insert m a r
    rw [Tx.eval_bind_ok hread, hnext] at hrest
    cases hp : parent a with
    | none =>
      rw [hp] at hrest
      cases hrest
      constructor
      · intro hbelow
        cases (below_iff_of_root hp).mp hbelow
        rw [hself]
        exact ⟨hsum, hnonneg⟩
      · intro hbelow
        apply amountOf_insert_of_ne
        rintro rfl
        exact hbelow (below_refl parent a)
    | some p =>
      rw [hp] at hrest
      have hwalk := ih (fun _ => rfl) hwritten hparent₁ hrest
      by_cases hxa : x = a
      · subst hxa
        have hoff := hwalk.off (not_below_parent hrank hp)
        rw [hself] at hoff
        refine ⟨fun _ => ⟨hoff.trans hsum, ?_⟩, fun hbelow => absurd (below_refl parent x) hbelow⟩
        rw [hoff]
        exact hnonneg
      · have hsame : amountOf (m.insert (Key.netValue a) r.toBytes) x = amountOf m x :=
          amountOf_insert_of_ne m (Ne.symm hxa)
        constructor
        · intro hbelow
          have hon := hwalk.on (((below_iff_of_parent hp).mp hbelow).resolve_left hxa)
          rw [hsame] at hon
          exact hon
        · intro hbelow
          have hoff := hwalk.off fun habove => hbelow ((below_iff_of_parent hp).mpr (.inr habove))
          rw [hsame] at hoff
          exact hoff

/-- A walk fails at an amount, or at its limit when no rank falls along it in fewer steps. -/
theorem eval_creditFrom_error {parent : Address → Option Address} {start : Address}
    {limit levels : Nat} {change : Int64} {stamp : NetValue → NetValue}
    (hstamp : ∀ r, (stamp r).amount = r.amount) (h : WellFormed m) (hparent : parentOf m = parent)
    {e : StoreError}
    (heval : (Tx.creditFrom start limit change levels stamp a).eval m = (.error e, m')) :
    ∃ v : Violation, e = .invariant v ∧ (v.OfAmount ∨ v = .cycleDetected start limit ∧
      ∀ rank : Address → Nat, (∀ b p, parent b = some p → rank p < rank b) → levels ≤ rank a) := by
  induction levels generalizing m a stamp with
  | zero =>
    cases heval
    exact ⟨_, rfl, .inr ⟨rfl, fun rank _ => Nat.zero_le _⟩⟩
  | succ levels ih =>
    rcases Tx.eval_bind_eq_error heval with hone | ⟨u, m₁, hone, hrest⟩
    · obtain ⟨v, he, hv⟩ := eval_creditOne_error h hone
      exact ⟨v, he, .inl hv⟩
    · obtain ⟨r, rfl, -, -⟩ := eval_creditOne h hstamp hone
      have hwritten : WellFormed (m.insert (Key.netValue a) r.toBytes) :=
        h.insert (.inr (.inl (.record a r)))
      have hparent₁ : parentOf (m.insert (Key.netValue a) r.toBytes) = parent := by
        rw [parentOf_insert_netValue, hparent]
      obtain ⟨parent?, hread⟩ := hwritten.eval_readParent a
      have hnext : parent?.bind Address.nonRoot = parent a := by
        rw [← hparent₁, parentOf_eq hread]
      rw [Tx.eval_bind_ok hread, hnext] at hrest
      cases hp : parent a with
      | none =>
        rw [hp] at hrest
        cases hrest
      | some p =>
        rw [hp] at hrest
        obtain ⟨v, he, hv⟩ := ih (fun _ => rfl) hwritten hparent₁ hrest
        refine ⟨v, he, hv.imp id fun ⟨hcycle, hlevels⟩ => ⟨hcycle, fun rank hrank => ?_⟩⟩
        exact Nat.lt_of_le_of_lt (hlevels rank hrank) (hrank a p hp)

end ReferralForest
