import ReferralForest.Proofs.Withdrawals

/-!
# What a code stands for

The record of a referral stays as it is until its code is removed or inserted again.
Nothing else writes under the tag of referrals, and a call that fails writes nothing. An
insertion does not look for a record before it writes its own, so after a run without
removals a code stands for the last referral that was inserted under it.
-/

namespace ReferralForest

def Event.inserted? (code : CodeHash) (e : Event) : Option Referral :=
  match e.step, e.answer with
  | .call (.insert r), .ok _ => if r.code = code then some r else none
  | _, _ => none

variable {f : Forest MemoryStore} {code : CodeHash}

theorem Command.referralAt_run (h : WellFormed f.store.entries) (c : Command)
    (hkept : ∀ r, c = .remove r → r.code ≠ code) :
    referralAt (c.run f).2.store.entries code =
      ((Event.mk f (.call c) (c.run f).1).inserted? code).or
        (referralAt f.store.entries code) := by
  cases hanswer : (c.run f).1 with
  | error e =>
    rw [run_eq_error hanswer]
    cases c <;> rfl
  | ok a =>
    obtain ⟨m, heval, hentries⟩ := run_eq_ok hanswer
    have hdone : Outcome.done.commits = true := rfl
    by_cases htree : c.isTree = true
    · cases c with
      | insert r =>
        obtain ⟨u, hinvite, rfl⟩ := Tx.eval_bind_pure_eq_ok heval
        rw [eval_invite_eq h] at hinvite
        cases hinvite
        have hinserted : (Event.mk f (.call (insert r)) (.ok .done)).inserted? code =
            if r.code = code then some r else none := rfl
        rw [hentries, if_pos hdone, referralAt_invited, hinserted]
        split <;> rfl
      | remove r =>
        obtain ⟨u, hwithdraw, rfl⟩ := Tx.eval_bind_pure_eq_ok heval
        rw [eval_withdraw h] at hwithdraw
        cases hwithdraw
        rw [hentries, if_pos hdone, referralAt_withdrawn, if_neg (hkept r rfl)]
        rfl
      | credit | offer | push | pop => cases htree
    · have hsame := sameTree_eval f (Bool.eq_false_iff.mpr htree)
      rw [heval] at hsame
      have hnone : (Event.mk f (.call c) (.ok a)).inserted? code = none := by
        cases c with
        | insert r => exact absurd rfl htree
        | remove | credit | offer | push | pop => rfl
      rw [hnone, hentries]
      split
      · exact hsame.referralAt_eq code
      · rfl

theorem Step.referralAt_run (h : WellFormed f.store.entries) (s : Step)
    (hkept : ∀ r, s = .call (.remove r) → r.code ≠ code) :
    referralAt (s.run f).2.store.entries code =
      ((Event.mk f s (s.run f).1).inserted? code).or (referralAt f.store.entries code) := by
  cases s with
  | call c => exact c.referralAt_run h fun r hr => hkept r (hr ▸ rfl)
  | failAfter | clearFailure | limit => rfl

namespace Forest

theorem referralAt_after (h : WellFormed f.store.entries) (steps : List Step)
    (hkept : ∀ r, .call (.remove r) ∈ steps → r.code ≠ code) :
    referralAt (f.after steps).store.entries code =
      ((f.history steps).filterMap (Event.inserted? code)).getLast?.or
        (referralAt f.store.entries code) := by
  induction steps generalizing f with
  | nil => rfl
  | cons s rest ih =>
    have hhead := s.referralAt_run h fun r hr => hkept r (hr ▸ List.mem_cons_self)
    have htail := ih (s.wellFormed_run h) fun r hr => hkept r (List.mem_cons_of_mem s hr)
    rw [after, htail, hhead, history, List.filterMap_cons]
    cases (Event.mk f s (s.run f).1).inserted? code with
    | none => rfl
    | some r =>
      rw [List.getLast?_cons]
      cases ((s.run f).2.history rest).filterMap (Event.inserted? code) |>.getLast? <;> rfl

theorem mem_of_inserted? {steps : List Step} {r : Referral}
    (h : r ∈ (f.history steps).filterMap (Event.inserted? code)) :
    .call (.insert r) ∈ steps ∧ r.code = code := by
  induction steps generalizing f with
  | nil => cases h
  | cons s rest ih =>
    obtain ⟨e, he, hinserted⟩ := List.mem_filterMap.mp h
    rcases List.mem_cons.mp he with rfl | he
    · rw [Event.inserted?] at hinserted
      split at hinserted
      · rename_i hstep _
        split at hinserted
        · rename_i hcode
          cases hinserted
          exact ⟨List.mem_cons.mpr (.inl hstep.symm), hcode⟩
        · cases hinserted
      · cases hinserted
    · obtain ⟨hmem, hcode⟩ := ih (List.mem_filterMap.mpr ⟨e, he, hinserted⟩)
      exact ⟨List.mem_cons_of_mem s hmem, hcode⟩

/-- A stored referral stays until it is removed or another one is inserted under its code. -/
theorem referral?_after_run (prior more : List Step) (code : CodeHash) (r : Referral)
    (hstored : (initial.after prior).referral? code = .ok (some r))
    (hkept : ∀ r', .call (.remove r') ∈ more → r'.code ≠ code) :
    let start := initial.after prior
    let inserted := (start.history more).filterMap (Event.inserted? code)
    (start.after more).referral? code = .ok (some (inserted.getLast?.getD r)) ∧
      ((∀ r', .call (.insert r') ∈ more → r'.code = code → r' = r) →
        (start.after more).referral? code = .ok (some r)) := by
  intro start inserted
  have hstart : WellFormed start.store.entries := wellFormed_after prior
  have hend : WellFormed (start.after more).store.entries :=
    after_of_step (P := fun f => WellFormed f.store.entries) (fun _ s h => s.wellFormed_run h)
      hstart more
  have hbefore : referralAt start.store.entries code = some r := by
    rw [referral?_eq hstart] at hstored
    exact Except.ok.inj hstored
  have hafter : (start.after more).referral? code = .ok (some (inserted.getLast?.getD r)) := by
    rw [referral?_eq hend, referralAt_after hstart more hkept, hbefore]
    cases inserted.getLast? <;> rfl
  refine ⟨hafter, fun honly => ?_⟩
  rw [hafter]
  cases hlast : inserted.getLast? with
  | none => rfl
  | some r' =>
    obtain ⟨hmem, hcode⟩ := mem_of_inserted? (List.mem_of_getLast? hlast)
    rw [Option.getD_some, honly r' hmem hcode]

def firstUnderCode : Referral := ⟨.filled 1, .filled 1, FixedBytes.zero 32, .wallet⟩

def sparingCode : List Step :=
  [.call (.insert ⟨.filled 2, .filled 2, .filled 1, .wallet⟩),
    .call (.credit .wallet (.filled 2) 5), .failAfter 1, .call (.insert firstUnderCode),
    .call (.insert firstUnderCode), .call (.remove ⟨.filled 2, .filled 1, .filled 1, .wallet⟩)]

theorem referral?_after_sparingCode :
    let start := initial.after [.call (.insert firstUnderCode)]
    let inserted := (start.history sparingCode).filterMap (Event.inserted? (.filled 1))
    start.referral? (.filled 1) = .ok (some firstUnderCode) ∧
      (∀ r', .call (.remove r') ∈ sparingCode → r'.code ≠ .filled 1) ∧
      (∀ r', .call (.insert r') ∈ sparingCode → r'.code = .filled 1 → r' = firstUnderCode) ∧
      (start.after sparingCode).referral? (.filled 1) =
        .ok (some (inserted.getLast?.getD firstUnderCode)) ∧
      (start.after sparingCode).referral? (.filled 1) = .ok (some firstUnderCode) := by
  intro start inserted
  have hstored : start.referral? (.filled 1) = .ok (some firstUnderCode) := rfl
  have hkept : ∀ r', .call (.remove r') ∈ sparingCode → r'.code ≠ .filled 1 := by
    simp [sparingCode, FixedBytes.filled]
  have honly : ∀ r', .call (.insert r') ∈ sparingCode → r'.code = .filled 1 →
      r' = firstUnderCode := by
    simp [sparingCode, firstUnderCode, FixedBytes.filled]
  have hafter := referral?_after_run [.call (.insert firstUnderCode)] sparingCode (.filled 1)
    firstUnderCode hstored hkept
  exact ⟨hstored, hkept, honly, hafter.1, hafter.2 honly⟩

theorem referral?_after_secondUnderCode :
    let second : Referral := { firstUnderCode with address := .filled 2 }
    let start := initial.after [.call (.insert firstUnderCode)]
    start.referral? (.filled 1) = .ok (some firstUnderCode) ∧
      (start.after [.call (.insert second)]).referral? (.filled 1) = .ok (some second) ∧
      second ≠ firstUnderCode :=
  ⟨rfl, rfl, by decide⟩

end Forest
end ReferralForest
