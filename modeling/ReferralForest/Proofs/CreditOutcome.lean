import Mathlib.Data.Nat.Count
import ReferralForest.Proofs.Stamps

/-!
# How a credit ends

A credit walks from its start along the stored parents, whatever these are: the walk may
end at a root or go round for ever, and it may come back to a record that this very
credit has changed before. After `n` steps each record has been given the change as often
as the walk has been at its address. The next step either fits or is refused, and a walk
that is not over after as many steps as there are levels is taken for a cycle. A walk that
ends comes to no address twice, so that in the end every address on it has grown once.
-/

namespace ReferralForest

def walk (parent : Address → Option Address) (start : Address) : Nat → Option Address
  | 0 => some start
  | n + 1 => (walk parent start n).bind parent

section Walk
variable {parent : Address → Option Address} {start a : Address} {i j n : Nat}

theorem walk_add_of_eq (h : walk parent start i = walk parent start j) (k : Nat) :
    walk parent start (i + k) = walk parent start (j + k) := by
  induction k with
  | zero => exact h
  | succ k ih => exact congrArg (Option.bind · parent) ih

theorem walk_none_of_le (h : walk parent start i = none) (hle : i ≤ n) :
    walk parent start n = none := by
  obtain ⟨k, rfl⟩ := Nat.le.dest hle
  induction k with
  | zero => exact h
  | succ k ih => exact congrArg (Option.bind · parent) (ih (Nat.le_add_right i k))

theorem walk_ne_none_of_repeat (ha : walk parent start i = some a)
    (hrepeat : walk parent start (i + (n + 1)) = some a) (k : Nat) :
    walk parent start (i + k * (n + 1)) = some a := by
  induction k with
  | zero => rw [Nat.zero_mul]; exact ha
  | succ k ih =>
    have hshift := walk_add_of_eq (ih.trans ha.symm) (n + 1)
    rw [Nat.succ_mul, ← Nat.add_assoc, hshift, hrepeat]

theorem walk_lt_of_eq_some (hend : walk parent start n = none) (ha : walk parent start i = some a) :
    i < n := by
  apply Nat.lt_of_not_le
  intro hle
  rw [walk_none_of_le hend hle] at ha
  cases ha

theorem walk_inj (hend : walk parent start n = none) (hi : walk parent start i = some a)
    (hj : walk parent start j = some a) : i = j := by
  have hlt : ∀ i j, walk parent start i = some a → walk parent start j = some a → ¬i < j := by
    intro i j hi hj hij
    obtain ⟨d, rfl⟩ : ∃ d, j = i + (d + 1) := ⟨j - i - 1, by omega⟩
    have hlater := walk_lt_of_eq_some hend (walk_ne_none_of_repeat hi hj n)
    have hbound : n * 1 ≤ n * (d + 1) := Nat.mul_le_mul_left n (by omega)
    omega
  have hij := hlt i j hi hj
  have hji := hlt j i hj hi
  omega

def visits (parent : Address → Option Address) (start a : Address) (n : Nat) : Nat :=
  Nat.count (fun j => walk parent start j = some a) n

theorem visits_succ (parent : Address → Option Address) (start a : Address) (n : Nat) :
    visits parent start a (n + 1) =
      visits parent start a n + if walk parent start n = some a then 1 else 0 := Nat.count_succ _ n

theorem visits_pos_iff : 0 < visits parent start a n ↔ ∃ i < n, walk parent start i = some a := by
  induction n with
  | zero => simp [visits]
  | succ n ih =>
    rw [visits_succ]
    constructor
    · intro hpos
      by_cases hn : walk parent start n = some a
      · exact ⟨n, Nat.lt_succ_self n, hn⟩
      · rw [if_neg hn, Nat.add_zero] at hpos
        obtain ⟨i, hi, ha⟩ := ih.mp hpos
        exact ⟨i, Nat.lt_succ_of_lt hi, ha⟩
    · rintro ⟨i, hi, ha⟩
      rcases Nat.lt_succ_iff_lt_or_eq.mp hi with hi | rfl
      · exact Nat.lt_of_lt_of_le (ih.mpr ⟨i, hi, ha⟩) (Nat.le_add_right _ _)
      · rw [if_pos ha]
        exact Nat.succ_pos _

theorem visits_eq_one (hend : walk parent start n = none) (ha : walk parent start i = some a) :
    visits parent start a n = 1 := by
  have hle : ∀ k, visits parent start a k ≤ 1 := by
    intro k
    induction k with
    | zero => exact Nat.zero_le 1
    | succ k ih =>
      rw [visits_succ]
      by_cases hk : walk parent start k = some a
      · have hnever : ¬0 < visits parent start a k := by
          rw [visits_pos_iff]
          rintro ⟨j, hj, hja⟩
          exact absurd (walk_inj hend hja hk) (Nat.ne_of_lt hj)
        rw [if_pos hk]
        omega
      · rw [if_neg hk]
        exact ih
  have hpos := visits_pos_iff.mpr ⟨i, walk_lt_of_eq_some hend ha, ha⟩
  have hone := hle n
  omega

end Walk

def IsAmount (amount : Int) : Prop := 0 ≤ amount ∧ amount ≤ Int64.maxValue.toInt

instance (amount : Int) : Decidable (IsAmount amount) := inferInstanceAs (Decidable (_ ∧ _))

/-- What is said of an amount that does not fit: an amount of 64 bits is a negative one. -/
def refusal (a : Address) (change : Int64) (amount : Int) : Violation :=
  if amount < Int64.minValue.toInt ∨ Int64.maxValue.toInt < amount then
    .netValueOverflow a change.toInt
  else .negativeNetValue a amount

theorem NetValue.credit_of_isAmount {r : NetValue} {a : Address} {change : Int64}
    (h : IsAmount (r.amount.toInt + change.toInt)) :
    r.credit a change = .ok { r with amount := Int64.ofInt (r.amount.toInt + change.toInt) } := by
  have hmin : Int64.minValue.toInt ≤ 0 := by decide
  have hrange : ¬(r.amount.toInt + change.toInt < Int64.minValue.toInt ∨
      Int64.maxValue.toInt < r.amount.toInt + change.toInt) := by
    obtain ⟨hlow, hhigh⟩ := h
    omega
  rw [credit, if_neg hrange, if_neg (Int.not_lt.mpr h.1)]

theorem NetValue.credit_of_not_isAmount {r : NetValue} {a : Address} {change : Int64}
    (h : ¬IsAmount (r.amount.toInt + change.toInt)) :
    r.credit a change = .error (refusal a change (r.amount.toInt + change.toInt)) := by
  rw [credit, refusal]
  by_cases hrange : r.amount.toInt + change.toInt < Int64.minValue.toInt ∨
      Int64.maxValue.toInt < r.amount.toInt + change.toInt
  · simp only [if_pos hrange]
  · have hneg : r.amount.toInt + change.toInt < 0 := by
      rw [IsAmount] at h
      omega
    simp only [if_neg hrange, if_pos hneg]

theorem toInt_ofInt_of_isAmount {amount : Int} (h : IsAmount amount) :
    (Int64.ofInt amount).toInt = amount := by
  have hmax : Int64.maxValue.toInt = 2 ^ 63 - 1 := by decide
  obtain ⟨hlow, hhigh⟩ := h
  exact Int64.toInt_ofInt_of_le (by omega) (by omega)

def recordAt (m : ByteMap Bytes) (a : Address) : NetValue := (netValueAt m a).getD .fresh

section Credited
variable (m : ByteMap Bytes) (kind : AddressType) (start : Address) (change : Int64)

def credited (a : Address) (times : Nat) : NetValue where
  kind := if a = start then kind else (recordAt m a).kind
  origin := if a = start then start else (recordAt m a).origin
  amount := Int64.ofInt ((recordAt m a).amount.toInt + times * change.toInt)

/-- A credit marks the first record that it comes to. -/
def mark : Nat → NetValue → NetValue
  | 0, r => { r with kind, origin := start }
  | _ + 1, r => r

def creditedTo : Nat → ByteMap Bytes
  | 0 => m
  | n + 1 =>
    match walk (parentOf m) start n with
    | some a => (creditedTo n).insert (Key.netValue a)
        (credited m kind start change a (visits (parentOf m) start a (n + 1))).toBytes
    | none => creditedTo n

def nextAmount (n : Nat) (a : Address) : Int :=
  (recordAt m a).amount.toInt + (visits (parentOf m) start a n + 1 : Nat) * change.toInt

def Passes (n : Nat) : Prop :=
  ∀ j < n, ∀ a, walk (parentOf m) start j = some a → IsAmount (nextAmount m start change j a)

/-- How a credit ends, and what it makes of the entries. -/
inductive CreditEnds (limit : Nat) : Except StoreError Unit × ByteMap Bytes → Prop
  | done {n : Nat} (hn : n ≤ limit) (hend : walk (parentOf m) start n = none)
      (hpass : Passes m start change n) :
      CreditEnds limit (.ok (), creditedTo m kind start change n)
  | refused {n : Nat} {a : Address} (hn : n < limit) (ha : walk (parentOf m) start n = some a)
      (hpass : Passes m start change n) (hamount : ¬IsAmount (nextAmount m start change n a)) :
      CreditEnds limit (.error (.invariant (refusal a change (nextAmount m start change n a))),
        creditedTo m kind start change n)
  | cycle {a : Address} (ha : walk (parentOf m) start limit = some a)
      (hpass : Passes m start change limit) :
      CreditEnds limit (.error (.invariant (.cycleDetected start limit)),
        creditedTo m kind start change limit)

structure Legible (limit : Nat) : Prop where
  record : ∀ n < limit, ∀ a, walk (parentOf m) start n = some a → Passes m start change n →
    ∀ value, m.get? (Key.netValue a) = some value → ∃ r, NetValue.ofBytes value = .ok r
  parent : ∀ n < limit, ∀ a, walk (parentOf m) start n = some a → Passes m start change (n + 1) →
    ∀ value, m.get? (Key.parent a) = some value → ∃ p, ParentEntry.ofBytes value = .ok p

end Credited

section Steps
variable {m : ByteMap Bytes} {kind : AddressType} {start a b : Address} {change : Int64} {n : Nat}

theorem credited_zero (h : a ≠ start) : credited m kind start change a 0 = recordAt m a := by
  simp [credited, if_neg h, Int64.ofInt_toInt]

theorem get?_creditedTo_of_ne {key : Bytes} (h : ∀ a i, i < n → walk (parentOf m) start i = some a →
    key ≠ Key.netValue a) : (creditedTo m kind start change n).get? key = m.get? key := by
  induction n with
  | zero => rfl
  | succ n ih =>
    have hbefore := ih fun a i hi => h a i (Nat.lt_succ_of_lt hi)
    rw [creditedTo]
    split
    · rename_i a ha
      rw [ByteMap.get?_insert, if_neg (Ne.symm (h a n (Nat.lt_succ_self n) ha)), hbefore]
    · exact hbefore

theorem get?_creditedTo_of_visited (kind : AddressType) (change : Int64)
    (h : 0 < visits (parentOf m) start a n) :
    (creditedTo m kind start change n).get? (Key.netValue a) =
      some (credited m kind start change a (visits (parentOf m) start a n)).toBytes := by
  induction n with
  | zero => exact absurd h (Nat.lt_irrefl 0)
  | succ n ih =>
    rw [creditedTo]
    by_cases hn : walk (parentOf m) start n = some a
    · simp only [hn, ByteMap.get?_insert, if_true]
    · have hsame : visits (parentOf m) start a (n + 1) = visits (parentOf m) start a n := by
        rw [visits_succ, if_neg hn, Nat.add_zero]
      rw [hsame] at h ⊢
      split
      · rename_i b hb
        have hkey : Key.netValue b ≠ Key.netValue a := by
          refine Key.Subject.key_ne (mt Key.Subject.netValue.inj ?_)
          rintro rfl
          exact hn hb
        rw [ByteMap.get?_insert, if_neg hkey, ih h]
      · exact ih h

theorem get?_creditedTo_of_not_visited (kind : AddressType) (change : Int64)
    (h : visits (parentOf m) start a n = 0) :
    (creditedTo m kind start change n).get? (Key.netValue a) = m.get? (Key.netValue a) := by
  refine get?_creditedTo_of_ne fun b i hi hb hkey => ?_
  have hba := Key.Subject.netValue.inj (Key.Subject.key_inj.mp hkey)
  exact absurd h (Nat.ne_of_gt (visits_pos_iff.mpr ⟨i, hi, hba ▸ hb⟩))

theorem Passes.fits_credited (hpass : Passes m start change n)
    (h : 0 < visits (parentOf m) start a n) :
    IsAmount ((recordAt m a).amount.toInt + visits (parentOf m) start a n * change.toInt) := by
  induction n with
  | zero => exact absurd h (Nat.lt_irrefl 0)
  | succ n ih =>
    have hpass' : Passes m start change n := fun j hj => hpass j (Nat.lt_succ_of_lt hj)
    rw [visits_succ] at h ⊢
    by_cases hn : walk (parentOf m) start n = some a
    · rw [if_pos hn]
      exact hpass n (Nat.lt_succ_self n) a hn
    · rw [if_neg hn, Nat.add_zero] at h ⊢
      exact ih hpass' h

theorem Passes.isAmount_of_end {i : Nat} (hpass : Passes m start change n)
    (hend : walk (parentOf m) start n = none) (ha : walk (parentOf m) start i = some a) :
    IsAmount ((recordAt m a).amount.toInt + change.toInt) := by
  have honce := visits_eq_one hend ha
  have hfits := hpass.fits_credited (a := a) (by rw [honce]; exact Nat.one_pos)
  rwa [honce, Int.natCast_one, Int.one_mul] at hfits

theorem Passes.amount_credited (hpass : Passes m start change n) (kind : AddressType)
    (a : Address) :
    (credited m kind start change a (visits (parentOf m) start a n)).amount.toInt =
      (recordAt m a).amount.toInt + visits (parentOf m) start a n * change.toInt := by
  rcases Nat.eq_zero_or_pos (visits (parentOf m) start a n) with hzero | hpos
  · simp [credited, hzero, Int64.ofInt_toInt]
  · exact toInt_ofInt_of_isAmount (hpass.fits_credited hpos)

theorem eval_readNetValue_creditedTo (kind : AddressType) (change : Int64)
    (ha : walk (parentOf m) start n = some a)
    (hrecord : ∀ value, m.get? (Key.netValue a) = some value →
      ∃ r, NetValue.ofBytes value = .ok r) :
    ∃ value?, (Tx.readNetValue a).eval (creditedTo m kind start change n) =
        (.ok value?, creditedTo m kind start change n) ∧
      mark kind start n (value?.getD .fresh) =
        credited m kind start change a (visits (parentOf m) start a n) := by
  rcases Nat.eq_zero_or_pos (visits (parentOf m) start a n) with hzero | hpos
  · have hsame := get?_creditedTo_of_not_visited kind change hzero
    obtain ⟨value?, hread⟩ := Tx.eval_readAs_of_decodes hrecord
    have hrecordAt : recordAt m a = value?.getD .fresh := by
      rw [recordAt, netValueAt, decodedAt_of_eval hread]
    refine ⟨value?, Tx.eval_readAs_of_eq hsame hread, ?_⟩
    rw [hzero]
    cases n with
    | zero =>
      obtain rfl : start = a := Option.some.inj ha
      simp [mark, credited, hrecordAt, Int64.ofInt_toInt]
    | succ n =>
      have hne : a ≠ start := by
        rintro rfl
        exact absurd hzero (Nat.ne_of_gt (visits_pos_iff.mpr ⟨0, Nat.succ_pos n, rfl⟩))
      rw [mark, credited_zero hne, hrecordAt]
  · refine ⟨_, Tx.eval_readAs_some (get?_creditedTo_of_visited _ _ hpos)
      (NetValue.ofBytes_toBytes _), ?_⟩
    cases n with
    | zero => exact absurd hpos (Nat.lt_irrefl 0)
    | succ n => rfl

theorem credited_succ (ha : walk (parentOf m) start n = some a) :
    { credited m kind start change a (visits (parentOf m) start a n) with
      amount := Int64.ofInt (nextAmount m start change n a) } =
    credited m kind start change a (visits (parentOf m) start a (n + 1)) := by
  rw [visits_succ, if_pos ha]
  rfl

theorem nextAmount_eq (hpass : Passes m start change n) (kind : AddressType) (a : Address) :
    (credited m kind start change a (visits (parentOf m) start a n)).amount.toInt + change.toInt =
      nextAmount m start change n a := by
  rw [hpass.amount_credited, nextAmount, Int.natCast_add, Int.add_mul]
  omega

theorem eval_creditOne_creditedTo (kind : AddressType) (hpass : Passes m start change n)
    (ha : walk (parentOf m) start n = some a)
    (hrecord : ∀ value, m.get? (Key.netValue a) = some value →
      ∃ r, NetValue.ofBytes value = .ok r) :
    (Tx.creditOne a change (mark kind start n)).eval (creditedTo m kind start change n) =
      if IsAmount (nextAmount m start change n a) then
        (.ok (), creditedTo m kind start change (n + 1))
      else (.error (.invariant (refusal a change (nextAmount m start change n a))),
        creditedTo m kind start change n) := by
  obtain ⟨value?, hread, hrecordAt⟩ := eval_readNetValue_creditedTo kind change ha hrecord
  have hsum := nextAmount_eq hpass kind a
  rw [Tx.creditOne, Tx.eval_bind_ok hread]
  simp only [hrecordAt]
  by_cases hfits : IsAmount (nextAmount m start change n a)
  · rw [← hsum] at hfits
    rw [NetValue.credit_of_isAmount hfits, hsum, credited_succ ha, if_pos (hsum ▸ hfits)]
    simp only [Tx.eval_write, creditedTo, ha]
  · rw [← hsum] at hfits
    rw [NetValue.credit_of_not_isAmount hfits, hsum, if_neg (hsum ▸ hfits)]
    rfl

theorem eval_readParent_creditedTo (kind : AddressType) (start : Address) (change : Int64) (n : Nat)
    (hparent : ∀ value, m.get? (Key.parent a) = some value →
      ∃ p, ParentEntry.ofBytes value = .ok p) :
    ∃ parent?, (Tx.readParent a).eval (creditedTo m kind start change n) =
        (.ok parent?, creditedTo m kind start change n) ∧
      parent?.bind Address.nonRoot = parentOf m a := by
  have hsame : (creditedTo m kind start change n).get? (Key.parent a) = m.get? (Key.parent a) :=
    get?_creditedTo_of_ne fun _ _ _ _ => Key.Subject.key_ne nofun
  obtain ⟨parent?, hread⟩ := Tx.eval_readAs_of_decodes hparent
  exact ⟨parent?, Tx.eval_readAs_of_eq hsame hread, (parentOf_eq hread).symm⟩

theorem eval_creditFrom_ends {limit levels : Nat} (hlegible : Legible m start change limit)
    (hlevels : n + levels = limit) (hpass : Passes m start change n)
    (ha : walk (parentOf m) start n = some a) :
    CreditEnds m kind start change limit
      ((Tx.creditFrom start limit change levels (mark kind start n) a).eval
        (creditedTo m kind start change n)) := by
  -- one level less is left with each step of the walk, and the entries keep up with it
  induction levels generalizing n a with
  | zero =>
    obtain rfl : n = limit := hlevels
    exact .cycle ha hpass
  | succ levels ih =>
    have hn : n < limit := by omega
    have hone := eval_creditOne_creditedTo kind hpass ha (hlegible.record n hn a ha hpass)
    rw [Tx.creditFrom]
    by_cases hfits : IsAmount (nextAmount m start change n a)
    · rw [if_pos hfits] at hone
      have hpass' : Passes m start change (n + 1) := by
        intro j hj b hb
        rcases Nat.lt_succ_iff_lt_or_eq.mp hj with hj | rfl
        · exact hpass j hj b hb
        · cases ha.symm.trans hb
          exact hfits
      obtain ⟨parent?, hread, hnext⟩ := eval_readParent_creditedTo kind start change (n + 1)
        (hlegible.parent n hn a ha hpass')
      have hwalk : walk (parentOf m) start (n + 1) = parentOf m a := by rw [walk, ha]; rfl
      rw [Tx.eval_bind_ok hone, Tx.eval_bind_ok hread, hnext]
      cases hp : parentOf m a with
      | none => exact .done hn (hwalk.trans hp) hpass'
      | some p =>
        exact ih (by omega) hpass' (hwalk.trans hp)
    · rw [if_neg hfits] at hone
      rw [Tx.eval_bind_error hone]
      exact .refused hn ha hpass hfits

theorem eval_credit_ends {limit : Nat} (kind : AddressType)
    (hlegible : Legible m start change limit) :
    CreditEnds m kind start change limit ((Tx.credit limit kind start change).eval m) :=
  eval_creditFrom_ends (n := 0) hlegible (Nat.zero_add limit) (fun j hj => absurd hj j.not_lt_zero)
    rfl

theorem nextAmount_of_end {i : Nat} (hend : walk (parentOf m) start n = none)
    (ha : walk (parentOf m) start i = some a) :
    nextAmount m start change i a = (recordAt m a).amount.toInt + change.toInt := by
  have hnever : visits (parentOf m) start a i = 0 := by
    apply Nat.eq_zero_of_not_pos
    rw [visits_pos_iff]
    rintro ⟨j, hj, hja⟩
    exact absurd (walk_inj hend hja ha) (Nat.ne_of_lt hj)
  rw [nextAmount, hnever]
  simp

end Steps

theorem WellFormed.legible {m : ByteMap Bytes} (h : WellFormed m) (start : Address) (change : Int64)
    (limit : Nat) : Legible m start change limit := by
  constructor
  · intro n _ a _ _ value hget
    rcases h.get?_netValue a with hnone | ⟨r, hsome⟩
    · cases hnone.symm.trans hget
    · cases hsome.symm.trans hget
      exact ⟨r, NetValue.ofBytes_toBytes r⟩
  · intro n _ a _ _ value hget
    rcases h.get?_parent a with hnone | ⟨p, hsome⟩
    · cases hnone.symm.trans hget
    · cases hsome.symm.trans hget
      exact ⟨p, ParentEntry.ofBytes_toBytes p⟩

structure NetValue.RaisedBy (kind : AddressType) (start : Address) (change : Int) (a : Address)
    (old new : NetValue) : Prop where
  amount : new.amount.toInt = old.amount.toInt + change
  stamped : a = start → new.kind = kind ∧ new.origin = start
  kept : a ≠ start → new.kind = old.kind ∧ new.origin = old.origin

namespace Forest

/-- A credit succeeds exactly when its walk is over within the levels and all its amounts
fit, and does its work once at each address; else it fails at the first amount that does not
fit, counted with what it has added itself, or at the limit, and nothing changes. -/
structure CreditsAlong (f : Forest MemoryStore) (kind : AddressType) (start : Address)
    (change : Int64) : Prop where
  succeeds_iff : (f.credit kind start change).1 = .ok () ↔
    walk (parentOf f.store.entries) start f.maxLevels = none ∧
      ∀ n a, walk (parentOf f.store.entries) start n = some a →
        IsAmount ((recordAt f.store.entries a).amount.toInt + change.toInt)
  distinct : (f.credit kind start change).1 = .ok () →
    ∀ i j a, walk (parentOf f.store.entries) start i = some a →
      walk (parentOf f.store.entries) start j = some a → i = j
  raised : (f.credit kind start change).1 = .ok () →
    ∀ n a, walk (parentOf f.store.entries) start n = some a →
      ∃ r, (f.credit kind start change).2.netValue? a = .ok (some r) ∧
        (recordAt f.store.entries a).RaisedBy kind start change.toInt a r
  others : (f.credit kind start change).1 = .ok () →
    ∀ key, (∀ n a, walk (parentOf f.store.entries) start n = some a → key ≠ Key.netValue a) →
      (f.credit kind start change).2.store.entries.get? key = f.store.entries.get? key
  fails : ∀ e, (f.credit kind start change).1 = .error e →
    (f.credit kind start change).2 = f ∧ e.isFatal = true ∧
      ((∃ n a, n < f.maxLevels ∧ walk (parentOf f.store.entries) start n = some a ∧
          Passes f.store.entries start change n ∧
          ¬IsAmount (nextAmount f.store.entries start change n a) ∧
          e = .invariant (refusal a change (nextAmount f.store.entries start change n a))) ∨
        (Passes f.store.entries start change f.maxLevels ∧
          walk (parentOf f.store.entries) start f.maxLevels ≠ none ∧
          e = .invariant (.cycleDetected start f.maxLevels)))

variable {f : Forest MemoryStore} {kind : AddressType} {start : Address} {change : Int64}

theorem creditsAlong_of_done {n : Nat} (hn : n ≤ f.maxLevels)
    (hend : walk (parentOf f.store.entries) start n = none)
    (hpass : Passes f.store.entries start change n)
    (hanswer : (f.credit kind start change).1 = .ok ())
    (hafter : (f.credit kind start change).2.store.entries =
      creditedTo f.store.entries kind start change n) : f.CreditsAlong kind start change := by
  have honce : ∀ i a, walk (parentOf f.store.entries) start i = some a →
      visits (parentOf f.store.entries) start a n = 1 := fun i a => visits_eq_one hend
  refine ⟨⟨fun _ => ⟨walk_none_of_le hend hn, fun i a => hpass.isAmount_of_end hend⟩,
      fun _ => hanswer⟩,
    fun _ i j a => walk_inj hend, fun _ i a ha => ?_, fun _ key hkey => ?_, fun e he => ?_⟩
  · have hpos : 0 < visits (parentOf f.store.entries) start a n := by
      rw [honce i a ha]
      exact Nat.one_pos
    have hget := get?_creditedTo_of_visited kind change hpos
    have hamount := hpass.amount_credited kind a
    rw [honce i a ha] at hget hamount
    refine ⟨credited f.store.entries kind start change a 1, ?_, ?_, ?_, ?_⟩
    · apply netValue?_eq
      rw [hafter]
      exact Tx.eval_readAs_some hget (NetValue.ofBytes_toBytes _)
    · rw [hamount, Int.natCast_one, Int.one_mul]
    · intro hstart
      simp [credited, hstart]
    · intro hstart
      simp [credited, hstart]
  · rw [hafter]
    exact get?_creditedTo_of_ne fun a i _ ha => hkey i a ha
  · cases hanswer.symm.trans he

theorem creditsAlong_of_error {v : Violation}
    (hanswer : f.credit kind start change = (.error (.invariant v), f))
    (hnot : walk (parentOf f.store.entries) start f.maxLevels = none →
      ¬∀ n a, walk (parentOf f.store.entries) start n = some a →
        IsAmount ((recordAt f.store.entries a).amount.toInt + change.toInt))
    (hcause : (∃ n a, n < f.maxLevels ∧ walk (parentOf f.store.entries) start n = some a ∧
        Passes f.store.entries start change n ∧
        ¬IsAmount (nextAmount f.store.entries start change n a) ∧
        v = refusal a change (nextAmount f.store.entries start change n a)) ∨
      (Passes f.store.entries start change f.maxLevels ∧
        walk (parentOf f.store.entries) start f.maxLevels ≠ none ∧
        v = .cycleDetected start f.maxLevels)) : f.CreditsAlong kind start change := by
  have hne : (f.credit kind start change).1 ≠ .ok () := by
    rw [hanswer]
    exact nofun
  refine ⟨⟨fun hok => absurd hok hne, fun ⟨hend, hfits⟩ => absurd hfits (hnot hend)⟩,
    fun hok => absurd hok hne, fun hok => absurd hok hne, fun hok => absurd hok hne, fun e he => ?_⟩
  rw [hanswer] at he ⊢
  cases he
  refine ⟨rfl, rfl, ?_⟩
  rcases hcause with ⟨n, a, hn, ha, hpass, hamount, rfl⟩ | ⟨hpass, hgoes, rfl⟩
  · exact .inl ⟨n, a, hn, ha, hpass, hamount, rfl⟩
  · exact .inr ⟨hpass, hgoes, rfl⟩

/-- Over any entries that can be read where it comes to them, a credit goes along its walk. -/
theorem creditsAlong_of_legible (hunarmed : f.store.writesLeft = none)
    (hlegible : Legible f.store.entries start change f.maxLevels) :
    f.CreditsAlong kind start change := by
  have hends := eval_credit_ends kind hlegible
  have hrun : f.credit kind start change =
      f.transact (Tx.credit f.maxLevels kind start change) fun _ => true := rfl
  rw [transact_unarmed hunarmed] at hrun
  generalize (Tx.credit f.maxLevels kind start change).eval f.store.entries = r at hends hrun
  cases hends with
  | done hn hend hpass =>
    exact creditsAlong_of_done hn hend hpass (by rw [hrun]) (by rw [hrun]; rfl)
  | @refused n a hn ha hpass hamount =>
    refine creditsAlong_of_error hrun (fun hend hfits => ?_)
      (.inl ⟨n, a, hn, ha, hpass, hamount, rfl⟩)
    rw [nextAmount_of_end hend ha] at hamount
    exact hamount (hfits n a ha)
  | cycle ha hpass =>
    have hgoes : walk (parentOf f.store.entries) start f.maxLevels ≠ none := by
      rw [ha]
      exact nofun
    exact creditsAlong_of_error hrun (fun hend => absurd hend hgoes) (.inr ⟨hpass, hgoes, rfl⟩)

def eachOthersParents : Forest MemoryStore where
  store := {
    entries :=
      (ByteMap.empty.insert (Key.parent (.filled 1)) (ParentEntry.toBytes (.filled 2))).insert
        (Key.parent (.filled 2)) (ParentEntry.toBytes (.filled 1)) }
  maxLevels := 5

theorem creditsAlong_eachOthersParents :
    let change : Int64 := 4611686018427387904
    eachOthersParents.store.writesLeft = none ∧
      Legible eachOthersParents.store.entries (.filled 1) change 5 ∧
      eachOthersParents.CreditsAlong .wallet (.filled 1) change ∧
      (eachOthersParents.credit .wallet (.filled 1) change).1 =
        .error (.invariant (.netValueOverflow (.filled 1) change.toInt)) := by
  intro change
  have hlegible : Legible eachOthersParents.store.entries (.filled 1) change 5 :=
    ((wellFormed_empty.insert (.inl (.parent (.filled 1) (.filled 2)))).insert
      (.inl (.parent (.filled 2) (.filled 1)))).legible _ _ _
  exact ⟨rfl, hlegible, creditsAlong_of_legible rfl hlegible, by decide +kernel⟩

end Forest
end ReferralForest
