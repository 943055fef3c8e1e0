import ReferralForest.Proofs.Invitations

/-!
# Cycles among invited addresses

An invitation puts a new address below one that was invited before it, or below itself:
below itself when the referral names its own code, as the record is written before the
inviter is looked up. So the order of the invitations ranks the addresses, whatever the
referrals name, and the only cycles are those of one address.
-/

namespace ReferralForest

/-- A map that grew by invitations of pairwise different addresses. -/
structure Planted (m : ByteMap Bytes) (planted : List Referral) : Prop where
  wellFormed : WellFormed m
  referrals : ∀ code r, referralAt m code = some r → r ∈ planted
  parents : ∀ a p, parentOf m a = some p → ∃ r ∈ planted, r.address = p
  looped : ∀ r ∈ planted, r.previous = r.code → parentOf m r.address = some r.address
  ranked : ∃ rank : Address → Nat, (∀ a, rank a < max 1 planted.length) ∧
    ∀ a p, parentOf m a = some p →
      rank p < rank a ∨ p = a ∧ ∃ r ∈ planted, r.address = a ∧ r.previous = r.code

namespace Planted
variable {m : ByteMap Bytes} {planted : List Referral} {r : Referral}

theorem empty : Planted .empty [] := by
  refine ⟨wellFormed_empty, fun _ _ h => ?_, fun _ _ h => ?_, fun _ h => ?_,
    fun _ => 0, fun _ => by simp, fun _ _ h => ?_⟩ <;> cases h

theorem inviter (h : Planted m planted) {p : Address} (hp : (joinedUnder m r).nonRoot = some p) :
    (∃ s ∈ planted, s.address = p) ∨ p = r.address ∧ r.previous = r.code := by
  obtain ⟨rfl, hroot⟩ := Address.nonRoot_eq_some.mp hp
  rw [joinedUnder] at hroot ⊢
  split
  · rename_i hown
    exact .inr ⟨rfl, hown.symm⟩
  · rename_i hother
    rw [if_neg hother, namedAt] at hroot
    rw [namedAt]
    cases hread : referralAt m r.previous with
    | none =>
      rw [hread] at hroot
      exact absurd rfl hroot
    | some s => exact .inl ⟨s, h.referrals _ _ hread, rfl⟩

theorem ranked_invited (h : Planted m planted) (hnew : ∀ s ∈ planted, s.address ≠ r.address)
    (list : List Address) :
    ∃ rank : Address → Nat, (∀ a, rank a < max 1 (planted ++ [r]).length) ∧
      ∀ a p, parentOf (invited m r (joinedUnder m r) list) a = some p →
        rank p < rank a ∨ p = a ∧ ∃ s ∈ planted ++ [r], s.address = a ∧ s.previous = s.code := by
  obtain ⟨rank, hbound, hrank⟩ := h.ranked
  have hplanted : ∀ p, (∃ s ∈ planted, s.address = p) →
      p ≠ r.address ∧ rank p < planted.length := by
    rintro p ⟨s, hs, rfl⟩
    have hlt := hbound s.address
    have hpos := List.length_pos_of_mem hs
    exact ⟨hnew s hs, by omega⟩
  -- nobody was invited by the new address yet, so it may outrank everyone
  refine ⟨fun a => if a = r.address then planted.length else rank a, fun a => ?_,
    fun a p hp => ?_⟩
  · have hlt := hbound a
    simp only [List.length_append, List.length_singleton]
    split <;> omega
  · by_cases ha : a = r.address
    · subst ha
      rw [parentOf_invited_self] at hp
      rcases h.inviter hp with hold | ⟨rfl, hown⟩
      · obtain ⟨hpne, hlt⟩ := hplanted p hold
        exact .inl (by simpa [hpne] using hlt)
      · exact .inr ⟨rfl, r, by simp, rfl, hown⟩
    · rw [parentOf_invited_of_ne m ha] at hp
      have hpne := (hplanted p (h.parents a p hp)).1
      simp only [if_neg ha, if_neg hpne]
      rcases hrank a p hp with hlt | ⟨heq, s, hs, hown⟩
      · exact .inl hlt
      · exact .inr ⟨heq, s, List.mem_append_left _ hs, hown⟩

theorem invite (h : Planted m planted) (hnew : ∀ s ∈ planted, s.address ≠ r.address)
    (hroot : r.address ≠ .root) :
    ∃ m', (Tx.invite r).eval m = (.ok (), m') ∧ Planted m' (planted ++ [r]) := by
  refine ⟨_, eval_invite_eq h.wellFormed r, h.wellFormed.invited, fun code s hs => ?_,
    fun a p hp => ?_, fun s hs hown => ?_, h.ranked_invited hnew _⟩
  · rw [referralAt_invited] at hs
    split at hs
    · cases hs
      simp
    · exact List.mem_append_left _ (h.referrals code s hs)
  · by_cases ha : a = r.address
    · subst ha
      rw [parentOf_invited_self] at hp
      rcases h.inviter hp with ⟨s, hs, hsp⟩ | ⟨rfl, -⟩
      · exact ⟨s, List.mem_append_left _ hs, hsp⟩
      · exact ⟨r, by simp, rfl⟩
    · rw [parentOf_invited_of_ne m ha] at hp
      obtain ⟨s, hs, hsp⟩ := h.parents a p hp
      exact ⟨s, List.mem_append_left _ hs, hsp⟩
  · rcases List.mem_append.mp hs with hs | hs
    · rw [parentOf_invited_of_ne m (hnew s hs)]
      exact h.looped s hs hown
    · rw [List.mem_singleton.mp hs] at hown ⊢
      rw [parentOf_invited_self, joinedUnder, if_pos hown.symm]
      exact Address.nonRoot_eq_some.mpr ⟨rfl, hroot⟩

theorem run_insert {f : Forest MemoryStore} (h : Planted f.store.entries planted)
    (hunarmed : f.store.writesLeft = none) (hnew : ∀ s ∈ planted, s.address ≠ r.address)
    (hroot : r.address ≠ .root) :
    Planted ((Command.insert r).run f).2.store.entries (planted ++ [r]) ∧
      ((Command.insert r).run f).2.store.writesLeft = none := by
  obtain ⟨m', hinvite, hplanted⟩ := h.invite hnew hroot
  have heval : (Command.insert r).eval f = (.ok .done, m') := Tx.eval_bind_ok hinvite
  rw [Command.run_unarmed hunarmed, heval]
  exact ⟨hplanted, hunarmed⟩

theorem after {f : Forest MemoryStore} (h : Planted f.store.entries planted)
    (hunarmed : f.store.writesLeft = none) {rest : List Referral}
    (hdistinct : ((planted ++ rest).map Referral.address).Nodup)
    (hroot : ∀ r ∈ rest, r.address ≠ .root) :
    let f' := f.after (rest.map fun r => .call (.insert r))
    Planted f'.store.entries (planted ++ rest) ∧ f'.store.writesLeft = none := by
  induction rest generalizing f planted with
  | nil =>
    rw [List.append_nil]
    exact ⟨h, hunarmed⟩
  | cons r rest ih =>
    have hnew : ∀ s ∈ planted, s.address ≠ r.address := by
      rw [List.map_append, List.nodup_append] at hdistinct
      exact fun s hs => hdistinct.2.2 _ (List.mem_map_of_mem hs) _ (by simp)
    obtain ⟨hplanted, hunarmed'⟩ := h.run_insert hunarmed hnew (hroot r List.mem_cons_self)
    rw [List.append_cons] at hdistinct ⊢
    exact ih hplanted hunarmed' hdistinct fun s hs => hroot s (List.mem_cons_of_mem r hs)

end Planted

namespace Forest

/-- The way from an address over its inviters comes back to it. -/
def Returns (f : Forest MemoryStore) (a : Address) : Prop :=
  Relation.TransGen (fun a b => f.inviter? a = .ok (some b)) a a

variable {f : Forest MemoryStore} {planted : List Referral}

theorem returns_iff_of_planted (h : Planted f.store.entries planted) (a : Address) :
    f.Returns a ↔ ∃ r ∈ planted, r.address = a ∧ r.previous = r.code := by
  have hstep : ∀ a b, f.inviter? a = .ok (some b) ↔ parentOf f.store.entries a = some b := by
    intro a b
    rw [inviter?_eq h.wellFormed, Except.ok.injEq]
  simp only [Returns, hstep]
  obtain ⟨rank, -, hrank⟩ := h.ranked
  constructor
  · intro hreturns
    have hself := parent_self_of_transGen
      (fun a p hp => (hrank a p hp).imp id And.left) hreturns
    rcases hrank a a hself with hlt | ⟨-, hown⟩
    · exact absurd hlt (Nat.lt_irrefl _)
    · exact hown
  · rintro ⟨r, hr, rfl, hown⟩
    exact .single (h.looped r hr hown)

theorem credit_ne_cycleDetected (h : Planted f.store.entries planted)
    (hunarmed : f.store.writesLeft = none) (hown : ∀ r ∈ planted, r.previous ≠ r.code)
    (hlevels : max 1 planted.length ≤ f.maxLevels) (kind : AddressType) (start : Address)
    (change : Int64) (a : Address) (limit : Nat) :
    (f.credit kind start change).1 ≠ .error (.invariant (.cycleDetected a limit)) := by
  intro hanswer
  rw [credit, transact, MemoryStore.transact_of_allows f.store _ _
    (MemoryStore.allows_unarmed hunarmed _)] at hanswer
  have heval : (Tx.credit f.maxLevels kind start change).eval f.store.entries =
      (.error (.invariant (.cycleDetected a limit)), _) := Prod.ext hanswer rfl
  obtain ⟨v, hv, hcause⟩ :=
    eval_creditFrom_error (by exact fun _ => rfl) h.wellFormed rfl heval
  cases hv
  rcases hcause with hamount | ⟨-, hrank⟩
  · cases hamount
  · obtain ⟨rank, hbound, hfalls⟩ := h.ranked
    have hle : f.maxLevels ≤ rank start := by
      refine hrank rank fun b p hp => (hfalls b p hp).resolve_right ?_
      rintro ⟨-, r, hr, -, hself⟩
      exact hown r hr hself
    have hlt := hbound start
    omega

/-- Invitations of different addresses lead nowhere back, but for referrals that name
their own code; without those no credit takes the tree for a cycle. -/
theorem returns_after_insertions (referrals : List Referral)
    (hdistinct : (referrals.map Referral.address).Nodup)
    (hroot : ∀ r ∈ referrals, r.address ≠ .root) :
    let f := initial.after (referrals.map fun r => .call (.insert r))
    (∀ a, f.Returns a ↔ ∃ r ∈ referrals, r.address = a ∧ r.previous = r.code) ∧
      ((∀ r ∈ referrals, r.previous ≠ r.code) → ∀ levels, max 1 referrals.length ≤ levels →
        ∀ kind start change a limit, ({ f with maxLevels := levels }.credit kind start change).1 ≠
          .error (.invariant (.cycleDetected a limit))) := by
  intro f
  have hstart : Planted initial.store.entries [] := Planted.empty
  obtain ⟨hplanted, hunarmed⟩ := hstart.after rfl hdistinct hroot
  refine ⟨returns_iff_of_planted hplanted, fun hown levels hlevels => ?_⟩
  exact credit_ne_cycleDetected (f := { f with maxLevels := levels }) hplanted hunarmed hown hlevels

def namingEachOther : List Referral :=
  [⟨.filled 1, .filled 1, .filled 2, .wallet⟩, ⟨.filled 2, .filled 2, .filled 1, .wallet⟩]

theorem returns_after_namingEachOther :
    let f := initial.after (namingEachOther.map fun r => .call (.insert r))
    (namingEachOther.map Referral.address).Nodup ∧
      (∀ r ∈ namingEachOther, r.address ≠ .root) ∧
      (∀ a, f.Returns a ↔ ∃ r ∈ namingEachOther, r.address = a ∧ r.previous = r.code) ∧
      ((∀ r ∈ namingEachOther, r.previous ≠ r.code) →
        ∀ levels, max 1 namingEachOther.length ≤ levels → ∀ kind start change a limit,
          ({ f with maxLevels := levels }.credit kind start change).1 ≠
            .error (.invariant (.cycleDetected a limit))) := by
  have hdistinct : (namingEachOther.map Referral.address).Nodup := by decide
  have hroot : ∀ r ∈ namingEachOther, r.address ≠ .root := by decide
  exact ⟨hdistinct, hroot, returns_after_insertions namingEachOther hdistinct hroot⟩

def namingItself : Referral := ⟨.filled 1, .filled 1, .filled 1, .wallet⟩

theorem returns_after_namingItself :
    let f := initial.after [.call (.insert namingItself)]
    f.Returns namingItself.address ∧
      ({ f with maxLevels := 1 }.credit .wallet namingItself.address 1).1 =
        .error (.invariant (.cycleDetected namingItself.address 1)) :=
  ⟨.single rfl, rfl⟩

end Forest
end ReferralForest
