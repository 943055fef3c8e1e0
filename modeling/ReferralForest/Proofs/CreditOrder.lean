import ReferralForest.Proofs.CreditOutcome

/-!
# Credits in any order

Credits that only add can be put in any order. A credit reads the parents, which no credit
changes, so each goes along the same walk at any time, and writes as often. It raises the
records that it meets, and that two credits do so one after the other in either way makes
no difference, not even for the stamps if credits with one start stamp it alike. An
amount that fits after both fits after either, as none is negative. Two neighbours in
the list may therefore change places, and every order comes about like this.
-/

namespace ReferralForest

theorem walk_succ_eq_bind (parent : Address → Option Address) (a : Address) (n : Nat) :
    walk parent a (n + 1) = (parent a).bind fun p => walk parent p n := by
  induction n with
  | zero => exact (Option.bind_fun_some (parent a)).symm
  | succ n ih =>
    rw [walk, ih, Option.bind_assoc]
    rfl

def climb (parent : Address → Option Address) : Nat → Address → Nat
  | 0, _ => 0
  | levels + 1, a =>
    match parent a with
    | some p => climb parent levels p + 1
    | none => 1

section Leads
variable {m m' : ByteMap Bytes} {start a : Address} {change : Int64} {limit levels : Nat}

/-- The walk from an address is over within some levels, with parents that can be read. -/
structure Leads (m : ByteMap Bytes) (start : Address) (limit : Nat) : Prop where
  ends : walk (parentOf m) start limit = none
  parent : ∀ n a, walk (parentOf m) start n = some a →
    ∀ value, m.get? (Key.parent a) = some value → ∃ p, ParentEntry.ofBytes value = .ok p

theorem Leads.congr (h : Leads m start limit) (hparent : parentOf m' = parentOf m)
    (hsame : ∀ a, m'.get? (Key.parent a) = m.get? (Key.parent a)) : Leads m' start limit := by
  refine ⟨hparent ▸ h.ends, fun n a => ?_⟩
  rw [hparent, hsame]
  exact h.parent n a

theorem Leads.of_parent {parent? : Option Address}
    (hread : (Tx.readParent a).eval m = (.ok parent?, m))
    (hnext : ∀ p, parent?.bind Address.nonRoot = some p → Leads m p levels) :
    Leads m a (levels + 1) := by
  have hentry : ∀ value, m.get? (Key.parent a) = some value →
      ∃ p, ParentEntry.ofBytes value = .ok p := by
    intro value hvalue
    obtain ⟨-, ⟨hnone, -⟩ | ⟨value', p, hsome, hdecode, -⟩⟩ := Tx.eval_readAs_eq_ok hread
    · cases hnone.symm.trans hvalue
    · cases hsome.symm.trans hvalue
      exact ⟨p, hdecode⟩
  rw [← parentOf_eq hread] at hnext
  constructor
  · rw [walk_succ_eq_bind]
    cases hp : parentOf m a with
    | none => rfl
    | some p => exact (hnext p hp).ends
  · intro n b hb
    cases n with
    | zero =>
      obtain rfl : a = b := Option.some.inj hb
      exact hentry
    | succ n =>
      rw [walk_succ_eq_bind, Option.bind_eq_some_iff] at hb
      obtain ⟨p, hp, hb⟩ := hb
      exact (hnext p hp).parent n b hb

theorem writes_creditOne {stamp : NetValue → NetValue}
    (h : (Tx.creditOne a change stamp).eval m = (.ok (), m')) :
    (Tx.creditOne a change stamp).writes m = 1 ∧ ∃ v, m' = m.insert (Key.netValue a) v := by
  rw [Tx.creditOne] at h ⊢
  obtain ⟨value?, m₁, hread, hwrite⟩ := Tx.eval_bind_eq_ok h
  obtain ⟨rfl, -⟩ := Tx.eval_readAs_eq_ok hread
  rw [Tx.writes_bind_ok hread, Tx.readNetValue, Tx.writes_readAs]
  simp only at hwrite ⊢
  split at hwrite
  · cases hwrite
    exact ⟨rfl, _, rfl⟩
  · cases hwrite

theorem leads_of_creditFrom {stamp : NetValue → NetValue}
    (heval : (Tx.creditFrom start limit change levels stamp a).eval m = (.ok (), m')) :
    Leads m a levels ∧
      (Tx.creditFrom start limit change levels stamp a).writes m = climb (parentOf m) levels a := by
  induction levels generalizing m a stamp with
  | zero => cases heval
  | succ levels ih =>
    rw [Tx.creditFrom] at heval ⊢
    obtain ⟨u, m₁, hone, hrest⟩ := Tx.eval_bind_eq_ok heval
    obtain ⟨hwrites, v, rfl⟩ := writes_creditOne hone
    -- the record that was written leaves all parents as they were
    have hparent := parentOf_insert_netValue m a v
    have hsame : ∀ b,
        (m.insert (Key.netValue a) v).get? (Key.parent b) = m.get? (Key.parent b) := by
      simp [ByteMap.get?_insert, Key.Subject.key_inj]
    obtain ⟨parent?, m₂, hread, hnext⟩ := Tx.eval_bind_eq_ok hrest
    obtain ⟨rfl, -⟩ := Tx.eval_readAs_eq_ok hread
    have hread' := Tx.eval_readAs_of_eq (hsame a).symm hread
    rw [Tx.writes_bind_ok hone, Tx.writes_bind_ok hread, hwrites, Tx.readParent, Tx.writes_readAs,
      climb, parentOf_eq hread']
    cases hp : parent?.bind Address.nonRoot with
    | none =>
      refine ⟨.of_parent hread' fun p hp' => ?_, ?_⟩
      · cases hp.symm.trans hp'
      · rfl
    | some p =>
      rw [hp] at hnext
      obtain ⟨hleads, hclimb⟩ := ih hnext
      refine ⟨.of_parent hread' fun q hq => ?_, ?_⟩
      · cases hp.symm.trans hq
        exact hleads.congr hparent.symm fun b => (hsame b).symm
      · simp only [hclimb, hparent]
        omega

end Leads

/-- Every record of a value can be read, and none is negative. -/
def Solvent (m : ByteMap Bytes) : Prop :=
  ∀ a value, m.get? (Key.netValue a) = some value →
    ∃ r, NetValue.ofBytes value = .ok r ∧ 0 ≤ r.amount.toInt

theorem Solvent.amount_nonneg {m : ByteMap Bytes} (h : Solvent m) (a : Address) :
    0 ≤ (recordAt m a).amount.toInt := by
  rw [recordAt, netValueAt]
  cases hvalue : decodedAt NetValue.ofBytes m (Key.netValue a) with
  | none => decide
  | some r =>
    obtain ⟨value, hget, hdecode⟩ := decodedAt_eq_some.mp hvalue
    obtain ⟨r', hdecode', hnonneg⟩ := h a value hget
    cases hdecode.symm.trans hdecode'
    exact hnonneg

structure CreditCall where
  kind : AddressType
  start : Address
  change : Int64

namespace CreditCall
variable {m : ByteMap Bytes} {limit : Nat} {c d : CreditCall}

def raise (c : CreditCall) (a : Address) (r : NetValue) : NetValue where
  kind := if a = c.start then c.kind else r.kind
  origin := if a = c.start then c.start else r.origin
  amount := Int64.ofInt (r.amount.toInt + c.change.toInt)

theorem raise_comm (hkind : c.start = d.start → c.kind = d.kind) (a : Address) (r : NetValue) :
    d.raise a (c.raise a r) = c.raise a (d.raise a r) := by
  have hstamp : ∀ {α : Type} (x y z : α), (c.start = d.start → x = y) →
      (if a = d.start then y else if a = c.start then x else z) =
        if a = c.start then x else if a = d.start then y else z := by
    intro α x y z hxy
    by_cases hc : a = c.start <;> by_cases hd : a = d.start
    · rw [if_pos hd, if_pos hc, hxy (hc.symm.trans hd)]
    · rw [if_neg hd, if_pos hc, if_pos hc]
    · rw [if_pos hd, if_neg hc, if_pos hd]
    · rw [if_neg hd, if_neg hc, if_neg hc, if_neg hd]
  have hamount : Int64.ofInt ((Int64.ofInt (r.amount.toInt + c.change.toInt)).toInt +
        d.change.toInt) =
      Int64.ofInt ((Int64.ofInt (r.amount.toInt + d.change.toInt)).toInt + c.change.toInt) := by
    simp only [Int64.ofInt_add, Int64.ofInt_toInt, Int64.add_assoc, Int64.add_comm c.change]
  simp only [raise, NetValue.mk.injEq]
  exact ⟨hstamp c.kind d.kind r.kind hkind, hstamp c.start d.start r.origin id, hamount⟩

def Meets (c : CreditCall) (m : ByteMap Bytes) (limit : Nat) (a : Address) : Prop :=
  0 < visits (parentOf m) c.start a limit

instance (c : CreditCall) (m : ByteMap Bytes) (limit : Nat) (a : Address) :
    Decidable (c.Meets m limit a) := inferInstanceAs (Decidable (0 < _))

def pay (c : CreditCall) (limit : Nat) (m : ByteMap Bytes) : ByteMap Bytes :=
  creditedTo m c.kind c.start c.change limit

theorem get?_pay_of_ne {key : Bytes} (h : ∀ a, key ≠ Key.netValue a) :
    (c.pay limit m).get? key = m.get? key :=
  get?_creditedTo_of_ne fun a _ _ _ => h a

theorem get?_pay (hleads : Leads m c.start limit) (a : Address) :
    (c.pay limit m).get? (Key.netValue a) = if c.Meets m limit a
      then some (c.raise a (recordAt m a)).toBytes else m.get? (Key.netValue a) := by
  by_cases hmeets : c.Meets m limit a
  · obtain ⟨i, -, ha⟩ := visits_pos_iff.mp hmeets
    have hrecord : credited m c.kind c.start c.change a 1 = c.raise a (recordAt m a) := by
      rw [credited, Int.natCast_one, Int.one_mul, raise]
    rw [if_pos hmeets, pay, get?_creditedTo_of_visited _ _ hmeets, visits_eq_one hleads.ends ha,
      hrecord]
  · rw [if_neg hmeets]
    exact get?_creditedTo_of_not_visited _ _ (Nat.eq_zero_of_not_pos hmeets)

theorem recordAt_pay (hleads : Leads m c.start limit) (a : Address) :
    recordAt (c.pay limit m) a =
      if c.Meets m limit a then c.raise a (recordAt m a) else recordAt m a := by
  have hget := get?_pay hleads a
  by_cases hmeets : c.Meets m limit a
  · rw [if_pos hmeets] at hget ⊢
    rw [recordAt, netValueAt, decodedAt_eq_some.mpr ⟨_, hget, NetValue.ofBytes_toBytes _⟩]
    rfl
  · rw [if_neg hmeets] at hget ⊢
    rw [recordAt, netValueAt_congr hget, recordAt]

theorem get?_parent_pay (a : Address) :
    (c.pay limit m).get? (Key.parent a) = m.get? (Key.parent a) :=
  get?_pay_of_ne fun _ => Key.Subject.key_ne nofun

theorem parentOf_pay : parentOf (c.pay limit m) = parentOf m :=
  funext fun a => parentOf_congr (get?_parent_pay a)

theorem leads_pay_iff {start : Address} : Leads (c.pay limit m) start limit ↔ Leads m start limit :=
  ⟨fun h => h.congr parentOf_pay.symm fun a => (get?_parent_pay a).symm,
    fun h => h.congr parentOf_pay get?_parent_pay⟩

theorem meets_pay_iff {a : Address} : d.Meets (c.pay limit m) limit a ↔ d.Meets m limit a := by
  rw [Meets, Meets, parentOf_pay]

theorem pay_comm (hc : Leads m c.start limit) (hd : Leads m d.start limit)
    (hkind : c.start = d.start → c.kind = d.kind) :
    d.pay limit (c.pay limit m) = c.pay limit (d.pay limit m) := by
  apply ByteMap.ext_get?
  intro key
  by_cases hkey : ∃ a, key = Key.netValue a
  · obtain ⟨a, rfl⟩ := hkey
    rw [get?_pay (leads_pay_iff.mpr hd), get?_pay (leads_pay_iff.mpr hc), recordAt_pay hc,
      recordAt_pay hd, get?_pay hc, get?_pay hd]
    simp only [meets_pay_iff]
    by_cases hmc : c.Meets m limit a <;> by_cases hmd : d.Meets m limit a <;>
      simp only [hmc, hmd, if_true, if_false, raise_comm hkind]
  · have hne : ∀ a, key ≠ Key.netValue a := fun a heq => hkey ⟨a, heq⟩
    rw [get?_pay_of_ne hne, get?_pay_of_ne hne, get?_pay_of_ne hne, get?_pay_of_ne hne]

/-- A credit that succeeds when no write fails. -/
structure Payable (c : CreditCall) (limit : Nat) (m : ByteMap Bytes) : Prop where
  leads : Leads m c.start limit
  fits : ∀ a, c.Meets m limit a → IsAmount ((recordAt m a).amount.toInt + c.change.toInt)

theorem Payable.amount_pay (h : c.Payable limit m) (a : Address) :
    (recordAt (c.pay limit m) a).amount.toInt =
      (recordAt m a).amount.toInt + if c.Meets m limit a then c.change.toInt else 0 := by
  rw [recordAt_pay h.leads]
  by_cases hmeets : c.Meets m limit a
  · rw [if_pos hmeets, if_pos hmeets]
    exact toInt_ofInt_of_isAmount (h.fits a hmeets)
  · rw [if_neg hmeets, if_neg hmeets, Int.add_zero]

theorem Payable.solvent_pay (h : c.Payable limit m) (hm : Solvent m) : Solvent (c.pay limit m) := by
  intro a value hvalue
  rw [get?_pay h.leads] at hvalue
  split at hvalue
  · rename_i hmeets
    cases hvalue
    refine ⟨_, NetValue.ofBytes_toBytes _, ?_⟩
    have hfits := h.fits a hmeets
    have hamount : (c.raise a (recordAt m a)).amount.toInt =
        (recordAt m a).amount.toInt + c.change.toInt := toInt_ofInt_of_isAmount hfits
    rw [hamount]
    exact hfits.1
  · exact hm a value hvalue

/-- A credit that can be paid after another can be paid before it, if the other only adds. -/
theorem Payable.before (hm : Solvent m) (hc : c.Payable limit m) (hnonneg : 0 ≤ c.change.toInt)
    (hnonneg' : 0 ≤ d.change.toInt) (hd : d.Payable limit (c.pay limit m)) : d.Payable limit m := by
  refine ⟨leads_pay_iff.mp hd.leads, fun a hmeets => ?_⟩
  -- the other credit only adds, so the amount was no larger before it
  have hlater := (hd.fits a (meets_pay_iff.mpr hmeets)).2
  have hold := hm.amount_nonneg a
  rw [hc.amount_pay] at hlater
  constructor
  · omega
  · split at hlater <;> omega

theorem Payable.after (hc : c.Payable limit m) (hd : d.Payable limit (c.pay limit m))
    (hd' : d.Payable limit m) : c.Payable limit (d.pay limit m) := by
  refine ⟨leads_pay_iff.mpr hc.leads, fun a hmeets => ?_⟩
  have hmeets' := meets_pay_iff.mp hmeets
  rw [hd'.amount_pay]
  by_cases hmd : d.Meets m limit a
  · have hboth := hd.fits a (meets_pay_iff.mpr hmd)
    rw [hc.amount_pay, if_pos hmeets'] at hboth
    rw [if_pos hmd, Int.add_right_comm]
    exact hboth
  · rw [if_neg hmd, Int.add_zero]
    exact hc.fits a hmeets'

theorem creditedTo_of_end {kind : AddressType} {start : Address} {change : Int64} {n : Nat}
    (hend : walk (parentOf m) start n = none) (hle : n ≤ limit) :
    creditedTo m kind start change limit = creditedTo m kind start change n := by
  obtain ⟨k, rfl⟩ := Nat.le.dest hle
  induction k with
  | zero => rfl
  | succ k ih =>
    rw [← Nat.add_assoc, creditedTo, walk_none_of_le hend (Nat.le_add_right n k)]
    exact ih (Nat.le_add_right n k)

theorem legible_of_leads (hm : Solvent m) {start : Address} (hleads : Leads m start limit)
    (change : Int64) : Legible m start change limit :=
  ⟨fun _ _ a _ _ value hget => (hm a value hget).imp fun _ h => h.1,
    fun n _ a ha _ => hleads.parent n a ha⟩

theorem Payable.eval_credit (h : c.Payable limit m) (hm : Solvent m) :
    (Tx.credit limit c.kind c.start c.change).eval m = (.ok (), c.pay limit m) := by
  have hends := eval_credit_ends c.kind (legible_of_leads hm h.leads c.change)
  generalize (Tx.credit limit c.kind c.start c.change).eval m = answer at hends
  cases hends with
  | done hn hend hpass => rw [pay, creditedTo_of_end hend hn]
  | refused hn ha hpass hamount =>
    rw [nextAmount_of_end h.leads.ends ha] at hamount
    exact absurd (h.fits _ (visits_pos_iff.mpr ⟨_, hn, ha⟩)) hamount
  | cycle ha hpass => cases h.leads.ends.symm.trans ha

theorem payable_of_eval {m' : ByteMap Bytes} (hm : Solvent m)
    (heval : (Tx.credit limit c.kind c.start c.change).eval m = (.ok (), m')) :
    c.Payable limit m := by
  have hleads := (leads_of_creditFrom heval).1
  have hends := eval_credit_ends c.kind (legible_of_leads hm hleads c.change)
  rw [heval] at hends
  generalize hanswer : (Except.ok (), m') = answer at hends
  cases hends with
  | done hn hend hpass =>
    refine ⟨hleads, fun a hmeets => ?_⟩
    obtain ⟨i, -, ha⟩ := visits_pos_iff.mp hmeets
    exact hpass.isAmount_of_end hend ha
  | refused => cases hanswer
  | cycle => cases hanswer

section Forest
variable {f : Forest MemoryStore}

def step (c : CreditCall) : Step := .call (.credit c.kind c.start c.change)

def levels (c : CreditCall) (f : Forest MemoryStore) : Nat :=
  climb (parentOf f.store.entries) f.maxLevels c.start

structure Succeeds (c : CreditCall) (f : Forest MemoryStore) : Prop where
  allows : f.store.Allows (c.levels f)
  payable : c.Payable f.maxLevels f.store.entries

def settle (c : CreditCall) (f : Forest MemoryStore) : Forest MemoryStore :=
  { f with store :=
    { f.store.after (c.levels f) with entries := c.pay f.maxLevels f.store.entries } }

theorem writes_of_eval {m' : ByteMap Bytes}
    (heval : (Tx.credit f.maxLevels c.kind c.start c.change).eval f.store.entries = (.ok (), m')) :
    (Command.credit c.kind c.start c.change).writes f = c.levels f := by
  rw [Command.writes, Command.program, Tx.writes_bind_ok heval]
  exact (leads_of_creditFrom heval).2

theorem Succeeds.run_step (h : c.Succeeds f) (hm : Solvent f.store.entries) :
    c.step.run f = (.ok .done, c.settle f) := by
  have heval := h.payable.eval_credit hm
  have hwrites := writes_of_eval heval
  have hrun := Command.run_of_allows (hwrites ▸ h.allows)
  rw [Command.eval, Command.program, Tx.eval_bind_ok heval, hwrites] at hrun
  exact hrun

theorem Succeeds.solvent_settle (h : c.Succeeds f) (hm : Solvent f.store.entries) :
    Solvent (c.settle f).store.entries :=
  h.payable.solvent_pay hm

theorem succeeds_of_run (hm : Solvent f.store.entries) (hok : (c.step.run f).1 = .ok .done) :
    c.Succeeds f := by
  obtain ⟨-, hcredit⟩ := Command.run_eq_done rfl hok
  refine ⟨?_, payable_of_eval hm hcredit⟩
  rw [← writes_of_eval hcredit]
  refine (f.store.allows_or_exceeds _).resolve_right ?_
  rintro ⟨n, hleft, hexceeds⟩
  have hrun := Command.run_of_exceeds hleft hexceeds
  cases hok.symm.trans (congrArg Prod.fst hrun)

theorem levels_settle : d.levels (c.settle f) = d.levels f :=
  congrArg (climb · f.maxLevels d.start) parentOf_pay

theorem settle_settle (c d : CreditCall) (f : Forest MemoryStore) :
    d.settle (c.settle f) = { f with store :=
      { f.store.after (d.levels f + c.levels f) with
        entries := d.pay f.maxLevels (c.pay f.maxLevels f.store.entries) } } := by
  rw [settle, levels_settle, ← MemoryStore.after_after]
  rfl

theorem settle_comm (hc : Leads f.store.entries c.start f.maxLevels)
    (hd : Leads f.store.entries d.start f.maxLevels) (hkind : c.start = d.start → c.kind = d.kind) :
    d.settle (c.settle f) = c.settle (d.settle f) := by
  rw [settle_settle, settle_settle, pay_comm hc hd hkind, Nat.add_comm]

theorem Succeeds.swap (hm : Solvent f.store.entries) (hc : 0 ≤ c.change.toInt)
    (hd : 0 ≤ d.change.toInt) (h : c.Succeeds f) (h' : d.Succeeds (c.settle f)) :
    d.Succeeds f ∧ c.Succeeds (d.settle f) := by
  have hpayable : d.Payable f.maxLevels f.store.entries := .before hm h.payable hc hd h'.payable
  -- each credit writes as often before the other as after it
  have hlater := h'.allows
  rw [levels_settle] at hlater
  have hboth := MemoryStore.allows_add.mpr ⟨h.allows, hlater⟩
  rw [Nat.add_comm] at hboth
  obtain ⟨hfirst, hsecond⟩ := MemoryStore.allows_add.mp hboth
  refine ⟨⟨hfirst, hpayable⟩, ⟨?_, h.payable.after h'.payable hpayable⟩⟩
  rw [levels_settle]
  exact hsecond

end Forest
end CreditCall

namespace Forest
variable {f : Forest MemoryStore} {c : CreditCall} {calls calls' : List CreditCall}

def AllSucceed (f : Forest MemoryStore) (calls : List CreditCall) : Prop :=
  ∀ e ∈ f.history (calls.map CreditCall.step), e.answer = .ok .done

instance (f : Forest MemoryStore) (calls : List CreditCall) : Decidable (f.AllSucceed calls) :=
  inferInstanceAs (Decidable (∀ e ∈ f.history (calls.map CreditCall.step), e.answer = .ok .done))

theorem allSucceed_cons_iff (hm : Solvent f.store.entries) :
    f.AllSucceed (c :: calls) ↔ c.Succeeds f ∧ (c.settle f).AllSucceed calls := by
  have hcons : f.AllSucceed (c :: calls) ↔
      (c.step.run f).1 = .ok .done ∧ (c.step.run f).2.AllSucceed calls := List.forall_mem_cons
  rw [hcons]
  constructor
  · rintro ⟨hok, hrest⟩
    have hc := CreditCall.succeeds_of_run hm hok
    rw [hc.run_step hm] at hrest
    exact ⟨hc, hrest⟩
  · rintro ⟨hc, hrest⟩
    rw [hc.run_step hm]
    exact ⟨rfl, hrest⟩

theorem after_cons (hm : Solvent f.store.entries) (hc : c.Succeeds f) :
    f.after ((c :: calls).map CreditCall.step) =
      (c.settle f).after (calls.map CreditCall.step) := by
  rw [List.map_cons, after, hc.run_step hm]

/-- Credits that add to sound records have the same effect in every order, if one succeeds. -/
theorem after_perm (hm : Solvent f.store.entries) (hadd : ∀ c ∈ calls, 0 ≤ c.change.toInt)
    (hkind : ∀ c ∈ calls, ∀ d ∈ calls, c.start = d.start → c.kind = d.kind)
    (hall : f.AllSucceed calls) (hperm : calls.Perm calls') :
    f.AllSucceed calls' ∧
      f.after (calls'.map CreditCall.step) = f.after (calls.map CreditCall.step) := by
  induction hperm generalizing f with
  | nil => exact ⟨hall, rfl⟩
  | @cons c calls calls' hperm ih =>
    obtain ⟨hc, hrest⟩ := (allSucceed_cons_iff hm).mp hall
    obtain ⟨hall', hsame⟩ := ih (hc.solvent_settle hm)
      (fun d hd => hadd d (List.mem_cons_of_mem c hd))
      (fun d hd e he => hkind d (List.mem_cons_of_mem c hd) e (List.mem_cons_of_mem c he)) hrest
    rw [after_cons hm hc, after_cons hm hc]
    exact ⟨(allSucceed_cons_iff hm).mpr ⟨hc, hall'⟩, hsame⟩
  | swap d c calls =>
    obtain ⟨hc, hrest⟩ := (allSucceed_cons_iff hm).mp hall
    have hm₁ := hc.solvent_settle hm
    obtain ⟨hd, hrest⟩ := (allSucceed_cons_iff hm₁).mp hrest
    have hcmem : c ∈ c :: d :: calls := List.mem_cons_self
    have hdmem : d ∈ c :: d :: calls := List.mem_cons_of_mem c List.mem_cons_self
    obtain ⟨hd', hc'⟩ := hc.swap hm (hadd c hcmem) (hadd d hdmem) hd
    have hm₂ := hd'.solvent_settle hm
    have hcomm : d.settle (c.settle f) = c.settle (d.settle f) :=
      CreditCall.settle_comm hc.payable.leads hd'.payable.leads (hkind c hcmem d hdmem)
    refine ⟨(allSucceed_cons_iff hm).mpr ⟨hd', (allSucceed_cons_iff hm₂).mpr ⟨hc', ?_⟩⟩, ?_⟩
    · rwa [← hcomm]
    · rw [after_cons hm hd', after_cons hm₂ hc', after_cons hm hc, after_cons hm₁ hd, hcomm]
  | trans hperm hperm' ih ih' =>
    obtain ⟨hall', hsame⟩ := ih hm hadd hkind hall
    obtain ⟨hall'', hsame'⟩ := ih' hm (fun c hc => hadd c (hperm.mem_iff.mpr hc))
      (fun c hc d hd => hkind c (hperm.mem_iff.mpr hc) d (hperm.mem_iff.mpr hd)) hall'
    exact ⟨hall'', hsame'.trans hsame⟩

def parentWithRecord : Forest MemoryStore where
  store := {
    entries :=
      (ByteMap.empty.insert (Key.parent (.filled 1)) (ParentEntry.toBytes (.filled 2))).insert
        (Key.netValue (.filled 2)) (NetValue.toBytes ⟨.unset, .root, 7⟩)
    writesLeft := some 6 }

def overlappingCredits : List CreditCall :=
  [⟨.wallet, .filled 1, 5⟩, ⟨.script, .filled 2, 3⟩, ⟨.wallet, .filled 1, 4⟩]

theorem after_perm_overlappingCredits :
    Solvent parentWithRecord.store.entries ∧
      (∀ c ∈ overlappingCredits, 0 ≤ c.change.toInt) ∧
      (∀ c ∈ overlappingCredits, ∀ d ∈ overlappingCredits, c.start = d.start → c.kind = d.kind) ∧
      parentWithRecord.AllSucceed overlappingCredits ∧
      overlappingCredits.Perm overlappingCredits.reverse ∧
      parentWithRecord.AllSucceed overlappingCredits.reverse ∧
      parentWithRecord.after (overlappingCredits.reverse.map CreditCall.step) =
        parentWithRecord.after (overlappingCredits.map CreditCall.step) := by
  have hm : Solvent parentWithRecord.store.entries := by
    intro a value hvalue
    simp only [parentWithRecord, ByteMap.get?_insert] at hvalue
    split at hvalue
    · cases hvalue
      exact ⟨_, NetValue.ofBytes_toBytes _, by decide⟩
    · split at hvalue
      · rename_i hkey
        exact absurd hkey (Key.Subject.key_ne nofun)
      · cases hvalue
  have hadd : ∀ c ∈ overlappingCredits, 0 ≤ c.change.toInt := by decide
  have hkind : ∀ c ∈ overlappingCredits, ∀ d ∈ overlappingCredits,
      c.start = d.start → c.kind = d.kind := by decide
  have hall : parentWithRecord.AllSucceed overlappingCredits := by decide +kernel
  have hperm : overlappingCredits.Perm overlappingCredits.reverse :=
    (List.reverse_perm overlappingCredits).symm
  obtain ⟨hall', hsame⟩ := after_perm hm hadd hkind hall hperm
  exact ⟨hm, hadd, hkind, hall, hperm, hall', hsame⟩

end Forest
end ReferralForest
