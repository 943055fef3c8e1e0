import ReferralForest.Proofs.Invitations

/-!
# Amounts are sums of credits

Under an invitation of a new address the tree grows by a leaf that was never credited,
and under a credit all the amounts above its start grow by the change. So in a run of
invitations and credits the amount of an address is the sum of the changes that were
credited at it or below it, whatever the tree was when that happened.
-/

namespace ReferralForest

abbrev Credit := Address × Int

open Classical in
/-- The sum of the changes that were credited at an address or below it. -/
noncomputable def creditedBelow (below : Address → Address → Prop) :
    List Credit → Address → Int
  | [], _ => 0
  | (start, change) :: rest, x =>
    (if below start x then change else 0) + creditedBelow below rest x

section CreditedBelow
variable {below below' : Address → Address → Prop} {credits : List Credit} {x : Address}

theorem creditedBelow_congr (h : ∀ c ∈ credits, below' c.1 x ↔ below c.1 x) :
    creditedBelow below' credits x = creditedBelow below credits x := by
  induction credits with
  | nil => rfl
  | cons c rest ih =>
    have hrest := ih fun c' hc' => h c' (List.mem_cons_of_mem c hc')
    have hc := h c List.mem_cons_self
    rw [creditedBelow, creditedBelow, hrest]
    by_cases hbelow : below c.1 x
    · rw [if_pos hbelow, if_pos (hc.mpr hbelow)]
    · rw [if_neg hbelow, if_neg fun hbelow' => hbelow (hc.mp hbelow')]

theorem creditedBelow_snoc_of_below (credits : List Credit) (change : Int) {start : Address}
    (h : below start x) : creditedBelow below (credits ++ [(start, change)]) x =
      creditedBelow below credits x + change := by
  induction credits with
  | nil => simp [creditedBelow, h]
  | cons c rest ih => simp [creditedBelow, ih, Int.add_assoc]

theorem creditedBelow_snoc_of_not (credits : List Credit) (change : Int) {start : Address}
    (h : ¬below start x) : creditedBelow below (credits ++ [(start, change)]) x =
      creditedBelow below credits x := by
  induction credits with
  | nil => simp [creditedBelow, h]
  | cons c rest ih => simp [creditedBelow, ih]

end CreditedBelow

structure Ledger (m : ByteMap Bytes) (seen : List Address) (credits : List Credit) : Prop where
  wellFormed : WellFormed m
  referrals : ∀ code r, (Tx.readReferral code).eval m = (.ok (some r), m) → r.address ∈ seen
  parents : ∀ a p, parentOf m a = some p → a ∈ seen ∧ p ∈ seen
  acyclic : ∃ rank : Address → Nat, ∀ a p, parentOf m a = some p → rank p < rank a
  credited : ∀ c ∈ credits, c.1 ∈ seen
  amounts : ∀ x, amountOf m x = creditedBelow (Below (parentOf m)) credits x ∧ 0 ≤ amountOf m x

namespace Ledger
variable {m m' : ByteMap Bytes} {seen : List Address} {credits : List Credit}

theorem empty : Ledger .empty [] [] := by
  refine ⟨wellFormed_empty, fun code r h => ?_, fun a p h => ?_, ⟨fun _ => 0, fun a p h => ?_⟩,
    fun c hc => ?_, fun x => ⟨rfl, Int.le_refl 0⟩⟩
  · cases h
  · cases h
  · cases h
  · cases hc

theorem see (h : Ledger m seen credits) (a : Address) : Ledger m (a :: seen) credits := by
  refine ⟨h.wellFormed, fun code r hr => ?_, fun b p hp => ?_, h.acyclic, fun c hc => ?_, h.amounts⟩
  · exact List.mem_cons_of_mem a (h.referrals code r hr)
  · exact (h.parents b p hp).imp (List.mem_cons_of_mem a) (List.mem_cons_of_mem a)
  · exact List.mem_cons_of_mem a (h.credited c hc)

theorem invite (h : Ledger m seen credits) {r : Referral} (hnew : r.address ∉ seen)
    (hother : r.previous ≠ r.code) :
    ∃ m', (Tx.invite r).eval m = (.ok (), m') ∧ Ledger m' (r.address :: seen) credits := by
  obtain ⟨inviter?, list, hread, heval⟩ := eval_invite h.wellFormed hother
  refine ⟨_, heval, ?_⟩
  generalize hparent : (inviter?.map Referral.address).getD .root = parent at heval ⊢
  have hself := parentOf_invited_self m r parent list
  have hothers : ∀ b, b ≠ r.address → parentOf (invited m r parent list) b = parentOf m b :=
    fun b hb => parentOf_invited_of_ne m hb
  -- the inviter of the new address was seen before
  have hinviter : ∀ p, parent.nonRoot = some p → p ∈ seen := by
    intro p hp
    cases inviter? with
    | none =>
      subst hparent
      cases hp
    | some inviter =>
      have hp' : parent = p := by
        rw [Address.nonRoot] at hp
        split at hp
        · cases hp
        · exact Option.some.inj hp
      rw [← hp', ← hparent]
      exact h.referrals r.previous inviter hread
  have hparents : ∀ a p, parentOf (invited m r parent list) a = some p →
      a ∈ r.address :: seen ∧ p ∈ seen := by
    intro a p hp
    by_cases ha : a = r.address
    · subst ha
      rw [hself] at hp
      exact ⟨List.mem_cons_self, hinviter p hp⟩
    · rw [hothers a ha] at hp
      exact (h.parents a p hp).imp (List.mem_cons_of_mem _) id
  have hleaf : ∀ b, parentOf (invited m r parent list) b ≠ some r.address :=
    fun b hb => hnew (hparents b _ hb).2
  obtain ⟨rank, hrank⟩ := h.acyclic
  constructor
  · have hwritten := h.wellFormed.eval (Tx.uses_invite r).confined fun _ _ hwrite => .inl hwrite
    rw [heval] at hwritten
    exact hwritten
  · intro code r' hr'
    rcases readReferral_invited hr' with rfl | hold
    · exact List.mem_cons_self
    · exact List.mem_cons_of_mem _ (h.referrals code r' hold)
  · exact fun a p hp => (hparents a p hp).imp id (List.mem_cons_of_mem _)
  · exact exists_rank_of_leaf hothers hleaf hrank
  · exact fun c hc => List.mem_cons_of_mem _ (h.credited c hc)
  · intro x
    have hsum : creditedBelow (Below (parentOf (invited m r parent list))) credits x =
        creditedBelow (Below (parentOf m)) credits x := by
      apply creditedBelow_congr
      intro c hc
      have hc' : c.1 ≠ r.address := fun heq => hnew (heq ▸ h.credited c hc)
      refine below_iff_of_leaf hothers (fun b hb heq => ?_) hc'
      exact hnew (h.parents b _ heq).2
    rw [amountOf_invited, hsum]
    exact h.amounts x

theorem credit (h : Ledger m seen credits) {limit : Nat} {kind : AddressType} {start : Address}
    {change : Int64} (hstart : start ∈ seen)
    (heval : (Tx.credit limit kind start change).eval m = (.ok (), m')) :
    Ledger m' seen (credits ++ [(start, change.toInt)]) := by
  have hconfined : (Tx.credit limit kind start change).Confined NetValueWrite :=
    (Tx.uses_creditFrom _ _ _ _ _ _).confined
  have hm : m' = ((Tx.credit limit kind start change).eval m).2 := by rw [heval]
  have hsame : ∀ tag suffix, tag ≠ Key.netValueTag →
      m'.get? (tag :: suffix) = m.get? (tag :: suffix) := by
    intro tag suffix htag
    rw [hm]
    exact Tx.get?_eval_of_not hconfined m fun v hv => htag (Option.some.inj hv.tag)
  have hparent : parentOf m' = parentOf m := by
    funext a
    exact parentOf_congr (hsame Key.parentTag a.toBytes (by decide))
  obtain ⟨rank, hrank⟩ := h.acyclic
  constructor
  · rw [hm]
    exact h.wellFormed.eval hconfined fun _ _ hwrite => .inr (.inl hwrite)
  · intro code r hr
    have hkey := hsame Key.referralTag code.toBytes (by decide)
    exact h.referrals code r (Tx.eval_readAs_of_eq hkey.symm hr)
  · rw [hparent]
    exact h.parents
  · rw [hparent]
    exact h.acyclic
  · intro c hc
    rcases List.mem_append.mp hc with hc | hc
    · exact h.credited c hc
    · rw [List.mem_singleton.mp hc]
      exact hstart
  · intro x
    obtain ⟨hsum, hnonneg⟩ := h.amounts x
    have hwalk : Credited (parentOf m) start change.toInt m m' x := by
      refine eval_creditFrom hrank ?_ h.wellFormed rfl heval x
      exact fun _ => rfl
    rw [hparent]
    by_cases hbelow : Below (parentOf m) start x
    · rw [creditedBelow_snoc_of_below _ _ hbelow, ← hsum]
      exact hwalk.on hbelow
    · rw [creditedBelow_snoc_of_not _ _ hbelow, hwalk.off hbelow]
      exact ⟨hsum, hnonneg⟩

end Ledger

namespace Event

def credit? (e : Event) : Option Credit :=
  match e.step, e.answer with
  | .call (.credit _ start change), .ok _ => some (start, change.toInt)
  | _, _ => none

end Event

/-- Steps that invite new addresses, by other codes than their own, and credit addresses
that were invited. A code may be used again. -/
def Legal : List Address → List Step → Prop
  | _, [] => True
  | seen, .call (.insert r) :: rest =>
    r.address ∉ seen ∧ r.previous ≠ r.code ∧ Legal (r.address :: seen) rest
  | seen, .call (.credit _ start _) :: rest => start ∈ seen ∧ Legal seen rest
  | seen, .limit _ _ :: rest => Legal seen rest
  | seen, .failAfter _ :: rest => Legal seen rest
  | seen, .clearFailure :: rest => Legal seen rest
  | _, .call _ :: _ => False

theorem Legal.of_append {seen : List Address} {steps more : List Step}
    (h : Legal seen (steps ++ more)) : Legal seen steps := by
  induction steps generalizing seen with
  | nil => trivial
  | cons s rest ih =>
    cases s with
    | call c =>
      cases c with
      | insert r => exact ⟨h.1, h.2.1, ih h.2.2⟩
      | credit kind start change => exact ⟨h.1, ih h.2⟩
      | remove r => exact h
      | offer seed address => exact h
      | push key address => exact h
      | pop => exact h
    | limit levels capacity => exact ih h
    | failAfter writes => exact ih h
    | clearFailure => exact ih h

namespace Ledger
variable {f : Forest MemoryStore} {seen : List Address} {credits : List Credit}

theorem run_insert (h : Ledger f.store.entries seen credits) {r : Referral}
    (hnew : r.address ∉ seen) (hother : r.previous ≠ r.code) :
    Ledger ((Command.insert r).run f).2.store.entries (r.address :: seen) credits := by
  cases hanswer : ((Command.insert r).run f).1 with
  | error e =>
    rw [Command.run_eq_error hanswer]
    exact h.see r.address
  | ok a =>
    obtain ⟨-, hprogram⟩ := Command.run_eq_done rfl hanswer
    obtain ⟨m', hinvite, hledger⟩ := h.invite hnew hother
    cases hinvite.symm.trans hprogram
    exact hledger

theorem run_credit (h : Ledger f.store.entries seen credits) {start : Address}
    (hstart : start ∈ seen) (kind : AddressType) (change : Int64) :
    let c := Command.credit kind start change
    let e : Event := ⟨f, .call c, (c.run f).1⟩
    Ledger (c.run f).2.store.entries seen (credits ++ e.credit?.toList) := by
  intro c e
  cases hanswer : (c.run f).1 with
  | error err =>
    have hnone : (Event.mk f (.call c) (c.run f).1).credit? = none := by
      rw [hanswer]
      rfl
    rw [Command.run_eq_error hanswer, hnone]
    simpa using h
  | ok a =>
    have hsome : (Event.mk f (.call c) (c.run f).1).credit? = some (start, change.toInt) := by
      rw [hanswer]
      rfl
    obtain ⟨-, hprogram⟩ := Command.run_eq_done rfl hanswer
    rw [hsome]
    exact h.credit hstart hprogram

theorem filterMap_credit?_cons (e : Event) (run : List Event) :
    (e :: run).filterMap Event.credit? = e.credit?.toList ++ run.filterMap Event.credit? := by
  rw [List.filterMap_cons]
  cases e.credit? <;> rfl

theorem after (h : Ledger f.store.entries seen credits) {steps : List Step}
    (hlegal : Legal seen steps) :
    ∃ seen', Ledger (f.after steps).store.entries seen'
      (credits ++ (f.history steps).filterMap Event.credit?) := by
  induction steps generalizing f seen credits with
  | nil =>
    refine ⟨seen, ?_⟩
    simpa [Forest.history, Forest.after] using h
  | cons s rest ih =>
    rw [Forest.history, filterMap_credit?_cons, ← List.append_assoc]
    cases s with
    | call c =>
      cases c with
      | insert r =>
        obtain ⟨hnew, hother, hrest⟩ := hlegal
        have hstep := h.run_insert hnew hother
        rw [← List.append_nil credits] at hstep
        exact ih hstep hrest
      | credit kind start change =>
        obtain ⟨hstart, hrest⟩ := hlegal
        exact ih (h.run_credit hstart kind change) hrest
      | remove r => exact hlegal.elim
      | offer seed address => exact hlegal.elim
      | push key address => exact hlegal.elim
      | pop => exact hlegal.elim
    | limit levels capacity =>
      rw [← List.append_nil credits] at h
      exact ih h hlegal
    | failAfter writes =>
      rw [← List.append_nil credits] at h
      exact ih h hlegal
    | clearFailure =>
      rw [← List.append_nil credits] at h
      exact ih h hlegal

end Ledger

namespace Forest

def IsBelow (f : Forest MemoryStore) : Address → Address → Prop :=
  Relation.ReflTransGen fun a b => f.inviter? a = .ok (some b)

theorem isBelow_eq {f : Forest MemoryStore} (h : WellFormed f.store.entries) :
    f.IsBelow = Below (parentOf f.store.entries) := by
  have hstep : (fun a b => f.inviter? a = .ok (some b)) =
      fun a b => parentOf f.store.entries a = some b := by
    funext a b
    rw [inviter?_eq h, Except.ok.injEq]
  rw [IsBelow, Below, hstep]

/-- At every point of a legal run an address is worth the credits at it and below it, and
that is never negative. -/
theorem netValue?_after (steps more : List Step) (hlegal : Legal [] (steps ++ more)) (x : Address) :
    let f := initial.after steps
    ∃ value?, f.netValue? x = .ok value? ∧
      NetValue.worth value? =
        creditedBelow f.IsBelow ((initial.history steps).filterMap Event.credit?) x ∧
      0 ≤ NetValue.worth value? := by
  intro f
  have hstart : Ledger initial.store.entries [] [] := Ledger.empty
  obtain ⟨seen, hledger⟩ := hstart.after hlegal.of_append
  obtain ⟨value?, hread⟩ := hledger.wellFormed.eval_readNetValue x
  refine ⟨value?, netValue?_eq hread, ?_⟩
  rw [isBelow_eq hledger.wellFormed, ← amountOf_eq hread]
  exact hledger.amounts x

def twoInvitations : List Step :=
  [.call (.insert ⟨FixedBytes.zero 32, ⟨List.replicate 20 1, rfl⟩, ⟨List.replicate 32 9, rfl⟩,
      .wallet⟩),
    .call (.credit .wallet ⟨List.replicate 20 1, rfl⟩ 5),
    .call (.insert ⟨⟨List.replicate 32 2, rfl⟩, ⟨List.replicate 20 2, rfl⟩, FixedBytes.zero 32,
      .wallet⟩),
    .limit 1 0, .call (.credit .wallet ⟨List.replicate 20 2, rfl⟩ 7),
    .limit 2 0, .call (.credit .wallet ⟨List.replicate 20 2, rfl⟩ 7),
    .call (.credit .wallet ⟨List.replicate 20 1, rfl⟩ (-20))]

theorem netValue?_after_twoInvitations :
    let f := initial.after twoInvitations
    ∃ value?, f.netValue? ⟨List.replicate 20 1, rfl⟩ = .ok value? ∧
      NetValue.worth value? = creditedBelow f.IsBelow
        ((initial.history twoInvitations).filterMap Event.credit?) ⟨List.replicate 20 1, rfl⟩ ∧
      0 ≤ NetValue.worth value? := by
  have hlegal : Legal [] (twoInvitations ++ []) := by
    simp [twoInvitations, Legal, FixedBytes.zero]
  exact netValue?_after twoInvitations [] hlegal ⟨List.replicate 20 1, rfl⟩

example : ((initial.after twoInvitations).netValue? ⟨List.replicate 20 1, rfl⟩).toOption =
    some (some ⟨.wallet, ⟨List.replicate 20 1, rfl⟩, 12⟩) := by
  decide +kernel

end Forest
end ReferralForest
