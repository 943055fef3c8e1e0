import ReferralForest.Proofs.Roster
import ReferralForest.Proofs.Withdrawals

/-!
# The stored tree is that of the live referrals

A run is orderly when referrals join and leave its roster in order, as far as the calls
succeed. Then the three indexes hold what the roster says, entry by entry: an invitation
finds the inviter that the roster names, and a withdrawal finds it again, as nobody that
a live referral names has left. So every question about the tree is answered from the
roster.
-/

namespace ReferralForest
open Roster

structure Keeps (m : ByteMap Bytes) (live : Roster) : Prop where
  wellFormed : WellFormed m
  referral : ∀ code, referralAt m code = byCode? live code
  parent : ∀ a, parentAt m a = (byAddress? live a).map fun r => named live r.previous
  children : ∀ p, childrenAt m p = invitedBy live p
  filled : ∀ p, m.get? (Key.children p) ≠ none → invitedBy live p ≠ []

namespace Keeps
variable {m m' : ByteMap Bytes} {live : Roster} {r : Referral}

theorem empty : Keeps .empty [] :=
  ⟨wellFormed_empty, fun _ => rfl, fun _ => rfl, fun _ => rfl, fun _ h => absurd rfl h⟩

theorem congr (h : Keeps m live) (hm' : WellFormed m') (hsame : SameTree m m') : Keeps m' live := by
  refine ⟨hm', fun code => ?_, fun a => ?_, fun p => ?_, fun p => ?_⟩
  · rw [hsame.referralAt_eq, h.referral]
  · rw [hsame.parentAt_eq, h.parent]
  · rw [hsame.childrenAt_eq, h.children]
  · rw [hsame _ (.inr (.inr rfl))]
    exact h.filled p

theorem namedAt_eq (h : Keeps m live) (code : CodeHash) : namedAt m code = named live code := by
  rw [namedAt, h.referral, named]

theorem join (h : Keeps m live) (hlive : Grown live) (hr : Joins live r)
    (hcount : live.length + 1 < UInt64.size) :
    ∃ m', (Tx.invite r).eval m = (.ok (), m') ∧ Keeps m' (live ++ [r]) := by
  have heval := eval_invite_eq h.wellFormed r
  have hunder : joinedUnder m r = named live r.previous := by
    rw [joinedUnder, if_neg hr.previous_ne.symm, h.namedAt_eq]
  rw [hunder, h.children] at heval
  have hlen : (invitedBy live (named live r.previous) ++ [r.address]).length < Bytes.count 8 := by
    have := length_invitedBy_le live (named live r.previous)
    rw [List.length_append, List.length_singleton, Bytes.count_eight]
    omega
  refine ⟨_, heval, h.wellFormed.invited, fun code => ?_, fun a => ?_, fun p => ?_, fun p hp => ?_⟩
  · rw [referralAt_invited, byCode?_join hr, h.referral]
  · rw [parentAt_invited, byAddress?_join hr]
    by_cases ha : r.address = a
    · rw [if_pos ha, if_pos ha, Option.map_some, named_join hr hr.previous]
    · rw [if_neg ha, if_neg ha, h.parent]
      cases hs : byAddress? live a with
      | none => rfl
      | some s =>
        have hmem : s ∈ live := List.mem_of_find?_eq_some hs
        rw [Option.map_some, Option.map_some, named_join hr (hlive.previous s hmem)]
  · rw [childrenAt_invited m hlen, invitedBy_join hr hlive, h.children]
    by_cases hp : named live r.previous = p
    · rw [if_pos hp, if_pos hp, hp]
    · rw [if_neg hp, if_neg hp]
  · rw [invitedBy_join hr hlive]
    by_cases hunderp : named live r.previous = p
    · rw [if_pos hunderp]
      simp
    · rw [get?_invited_children, if_neg hunderp] at hp
      rw [if_neg hunderp]
      exact h.filled p hp

theorem invitedBy_filter_of_ne (hlive : Grown live) (hr : r ∈ live) {p : Address}
    (hp : named live r.previous ≠ p) :
    (invitedBy live p).filter (· ≠ r.address) = invitedBy live p := by
  refine List.filter_eq_self.mpr fun a ha => decide_eq_true ?_
  obtain ⟨s, hs, rfl⟩ := List.mem_map.mp ha
  obtain ⟨hmem, hunder⟩ := List.mem_filter.mp hs
  intro heq
  rw [hlive.eq_of_address hmem hr heq] at hunder
  exact hp (of_decide_eq_true hunder)

theorem leave (h : Keeps m live) (hlive : Grown live) (hr : Leaves live r)
    (hcount : live.length < UInt64.size) :
    ∃ m', (Tx.withdraw r).eval m = (.ok (), m') ∧ Keeps m' (live.filter (· ≠ r)) := by
  have heval := eval_withdraw h.wellFormed r
  have hown : r.previous ≠ r.code := hlive.previous_ne r hr.mem
  have hunder : leftUnder m r = named live r.previous := by
    rw [leftUnder, if_neg hown.symm, h.namedAt_eq]
  rw [hunder, h.children, ← invitedBy_leave hlive hr] at heval
  have hlen : (invitedBy (live.filter (· ≠ r)) (named live r.previous)).length < Bytes.count 8 := by
    have hinvited := length_invitedBy_le (live.filter (· ≠ r)) (named live r.previous)
    have hfilter := List.length_filter_le (· ≠ r) live
    rw [Bytes.count_eight]
    omega
  refine ⟨_, heval, h.wellFormed.withdrawn, fun code => ?_, fun a => ?_, fun p => ?_,
    fun p hp => ?_⟩
  · rw [referralAt_withdrawn, byCode?_leave hlive hr, h.referral]
  · rw [parentAt_withdrawn, byAddress?_leave hlive hr, h.parent]
    by_cases ha : r.address = a
    · rw [if_pos ha, if_pos ha]
      rfl
    · rw [if_neg ha, if_neg ha]
      cases hs : byAddress? live a with
      | none => rfl
      | some s =>
        have hmem : s ∈ live := List.mem_of_find?_eq_some hs
        have haddress : s.address = a := by simpa using List.find?_some hs
        have hsr : s ≠ r := fun heq => ha (heq ▸ haddress)
        rw [Option.map_some, Option.map_some, named_leave hlive hr (hr.unnamed s hmem hsr)]
  · rw [childrenAt_withdrawn m hlen, h.children]
    by_cases hp : named live r.previous = p
    · rw [if_pos hp, hp]
    · rw [if_neg hp, invitedBy_leave hlive hr, invitedBy_filter_of_ne hlive hr.mem hp]
  · rw [get?_withdrawn_children] at hp
    by_cases hunderp : named live r.previous = p
    · rw [if_pos hunderp] at hp
      split at hp
      · exact absurd rfl hp
      · rename_i hlist
        rw [hunderp, List.isEmpty_iff] at hlist
        exact hlist
    · rw [if_neg hunderp] at hp
      rw [invitedBy_leave hlive hr, invitedBy_filter_of_ne hlive hr.mem hunderp]
      exact h.filled p hp

end Keeps

def Event.roster (live : Roster) (e : Event) : Roster :=
  match e.step, e.answer with
  | .call (.insert r), .ok _ => live ++ [r]
  | .call (.remove r), .ok _ => live.filter (· ≠ r)
  | _, _ => live

def Step.Orderly (live : Roster) : Step → Prop
  | .call (.insert r) => Joins live r
  | .call (.remove r) => Leaves live r
  | _ => True

instance (live : Roster) : (s : Step) → Decidable (s.Orderly live)
  | .call (.insert r) => inferInstanceAs (Decidable (Joins live r))
  | .call (.remove r) => inferInstanceAs (Decidable (Leaves live r))
  | .call (.credit ..) | .call (.offer ..) | .call (.push ..) | .call .pop => .isTrue trivial
  | .failAfter _ | .clearFailure | .limit .. => .isTrue trivial

namespace Run

def rosterFrom (live : Roster) (run : List Event) : Roster := run.foldl Event.roster live

/-- Each call of a run is in order for the referrals that are live at its time. -/
def Orderly : Roster → List Event → Prop
  | _, [] => True
  | live, e :: rest => e.step.Orderly live ∧ Orderly (e.roster live) rest

instance : (live : Roster) → (run : List Event) → Decidable (Orderly live run)
  | _, [] => .isTrue trivial
  | live, e :: rest =>
    have := instDecidableOrderly (e.roster live) rest
    inferInstanceAs (Decidable (_ ∧ _))

end Run

namespace Keeps
variable {f : Forest MemoryStore} {live : Roster} {r : Referral}

theorem run_insert (h : Keeps f.store.entries live) (hlive : Grown live) (hr : Joins live r)
    (hcount : live.length + 1 < UInt64.size) :
    let after := Event.roster live ⟨f, .call (.insert r), ((Command.insert r).run f).1⟩
    Keeps ((Command.insert r).run f).2.store.entries after ∧ Grown after := by
  cases hanswer : ((Command.insert r).run f).1 with
  | error err =>
    rw [Command.run_eq_error hanswer]
    exact ⟨h, hlive⟩
  | ok a =>
    obtain ⟨-, hprogram⟩ := Command.run_eq_done rfl hanswer
    obtain ⟨m', hinvite, hkeeps⟩ := h.join hlive hr hcount
    cases hinvite.symm.trans hprogram
    exact ⟨hkeeps, hlive.join hr⟩

theorem run_remove (h : Keeps f.store.entries live) (hlive : Grown live) (hr : Leaves live r)
    (hcount : live.length < UInt64.size) :
    let after := Event.roster live ⟨f, .call (.remove r), ((Command.remove r).run f).1⟩
    Keeps ((Command.remove r).run f).2.store.entries after ∧ Grown after := by
  cases hanswer : ((Command.remove r).run f).1 with
  | error err =>
    rw [Command.run_eq_error hanswer]
    exact ⟨h, hlive⟩
  | ok a =>
    obtain ⟨-, hprogram⟩ := Command.run_eq_done rfl hanswer
    obtain ⟨m', hwithdraw, hkeeps⟩ := h.leave hlive hr hcount
    cases hwithdraw.symm.trans hprogram
    exact ⟨hkeeps, hlive.leave hr⟩

theorem run_apart (h : Keeps f.store.entries live) {s : Step}
    (hs : ∀ c, s = .call c → c.isTree = false) : Keeps (s.run f).2.store.entries live :=
  h.congr (s.wellFormed_run h.wellFormed) (s.sameTree_run f hs)

theorem run (h : Keeps f.store.entries live) (hlive : Grown live) {s : Step}
    (hcount : live.length + s.isInsert.toNat < UInt64.size) (hs : s.Orderly live) :
    let after := Event.roster live ⟨f, s, (s.run f).1⟩
    Keeps (s.run f).2.store.entries after ∧ Grown after := by
  cases s with
  | call c =>
    cases c with
    | insert r => exact h.run_insert hlive hs hcount
    | remove r => exact h.run_remove hlive hs hcount
    | credit kind start change => exact ⟨h.run_apart (by rintro _ ⟨⟩; rfl), hlive⟩
    | offer seed address => exact ⟨h.run_apart (by rintro _ ⟨⟩; rfl), hlive⟩
    | push key address => exact ⟨h.run_apart (by rintro _ ⟨⟩; rfl), hlive⟩
    | pop => exact ⟨h.run_apart (by rintro _ ⟨⟩; rfl), hlive⟩
  | failAfter writes => exact ⟨h.run_apart (by rintro _ ⟨⟩), hlive⟩
  | clearFailure => exact ⟨h.run_apart (by rintro _ ⟨⟩), hlive⟩
  | limit levels capacity => exact ⟨h.run_apart (by rintro _ ⟨⟩), hlive⟩

end Keeps

theorem Event.length_roster_le (live : Roster) (e : Event) :
    (e.roster live).length ≤ live.length + e.step.isInsert.toNat := by
  rw [Event.roster]
  split
  · rename_i hstep _
    simp [hstep, Step.isInsert]
  · exact Nat.le_add_right_of_le (List.length_filter_le _ live)
  · exact Nat.le_add_right _ _

theorem Keeps.after {f : Forest MemoryStore} {live : Roster} (h : Keeps f.store.entries live)
    (hlive : Grown live) {steps : List Step}
    (hcount : live.length + Step.inserts steps < UInt64.size)
    (horderly : Run.Orderly live (f.history steps)) :
    let roster := Run.rosterFrom live (f.history steps)
    Keeps (f.after steps).store.entries roster ∧ Grown roster := by
  induction steps generalizing f live with
  | nil => exact ⟨h, hlive⟩
  | cons s rest ih =>
    rw [Step.inserts_cons, ← Nat.add_assoc] at hcount
    obtain ⟨hs, hrest⟩ := horderly
    obtain ⟨hkeeps, hgrown⟩ := h.run hlive (Nat.lt_of_add_right_lt hcount) hs
    have hlen := Event.length_roster_le live ⟨f, s, (s.run f).1⟩
    exact ih hkeeps hgrown (Nat.lt_of_le_of_lt (Nat.add_le_add_right hlen _) hcount) hrest

namespace Forest

structure Mirrors (f : Forest MemoryStore) (live : Roster) : Prop where
  referral : ∀ code, f.referral? code = .ok (byCode? live code)
  inviter : ∀ a, f.inviter? a = .ok (live.inviter? a)
  referred : ∀ a, f.isReferred a = .ok (decide (a ∈ live.map Referral.address))
  children : ∀ p, f.children p = .ok (invitedBy live p)
  distinct : ∀ p, (invitedBy live p).Nodup
  filled : ∀ p value, f.store.entries.get? (Key.children p) = some value →
    ∃ a list, Children.ofBytes value = .ok (a :: list)
  grounded : ∀ r ∈ live, ∃ way, Ascent live.inviter? r.address way ∧ way.Nodup ∧
    ∀ a ∈ way, a ∈ live.map Referral.address

variable {f : Forest MemoryStore} {live : Roster}

theorem parentOf_of_keeps {m : ByteMap Bytes} (h : Keeps m live) (hlive : Grown live)
    (a : Address) : parentOf m a = live.inviter? a := by
  rw [parentOf_eq (h.wellFormed.eval_parentAt a), h.parent, Roster.inviter?]
  cases byAddress? live a with
  | none => rfl
  | some r =>
    rw [Option.map_some, Option.bind_some, Option.bind_some, named]
    cases hs : byCode? live r.previous with
    | none => rfl
    | some s =>
      have hroot : s.address ≠ .root := hlive.address_ne s (List.mem_of_find?_eq_some hs)
      exact Address.nonRoot_eq_some.mpr ⟨rfl, hroot⟩

theorem mirrors_of_keeps (h : Keeps f.store.entries live) (hlive : Grown live) :
    f.Mirrors live := by
  have hwf := h.wellFormed
  refine ⟨fun code => ?_, fun a => ?_, fun a => ?_, fun p => ?_, hlive.nodup_invitedBy,
    fun p value hvalue => ?_, hlive.exists_ascent⟩
  · rw [referral?_eq hwf, h.referral]
  · rw [inviter?_eq hwf, parentOf_of_keeps h hlive]
  · rw [isReferred_eq hwf, h.parent, Option.isSome_map, byAddress?]
    congr 1
    rw [Bool.eq_iff_iff, List.find?_isSome]
    simp
  · rw [children_eq hwf, h.children]
  · have hfilled := h.filled p (by rw [hvalue]; simp)
    rw [← h.children, childrenAt] at hfilled
    cases hlist : decodedAt Children.ofBytes f.store.entries (Key.children p) with
    | none =>
      rw [hlist] at hfilled
      exact absurd rfl hfilled
    | some list =>
      rw [hlist] at hfilled
      obtain ⟨value', hvalue', hdecode⟩ := decodedAt_eq_some.mp hlist
      cases hvalue.symm.trans hvalue'
      obtain ⟨a, rest, rfl⟩ := List.exists_cons_of_ne_nil hfilled
      exact ⟨a, rest, hdecode⟩

/-- In every orderly run the tree is that of the referrals that joined and did not leave,
for as many invitations as the count of a stored list can tell apart. -/
theorem mirrors_after (steps : List Step) (hcount : Step.inserts steps < UInt64.size)
    (horderly : Run.Orderly [] (initial.history steps)) :
    (initial.after steps).Mirrors (Run.rosterFrom [] (initial.history steps)) := by
  have hstart : Keeps initial.store.entries [] := Keeps.empty
  obtain ⟨hkeeps, hgrown⟩ := hstart.after .empty (by simpa using hcount) horderly
  exact mirrors_of_keeps hkeeps hgrown

def replacedReferral : List Step :=
  let third : Referral := ⟨.filled 3, .filled 3, .filled 2, .script⟩
  [.call (.insert ⟨.filled 1, .filled 1, FixedBytes.zero 32, .wallet⟩),
    .call (.insert ⟨.filled 2, .filled 2, .filled 1, .wallet⟩), .failAfter 2,
    .call (.insert third), .call (.insert third), .call (.credit .wallet third.address 5),
    .call (.remove third), .call (.insert { third with previous := .filled 1 })]

theorem mirrors_after_replacedReferral :
    Step.inserts replacedReferral < UInt64.size ∧
      Run.Orderly [] (initial.history replacedReferral) ∧
      (initial.after replacedReferral).Mirrors
        (Run.rosterFrom [] (initial.history replacedReferral)) := by
  have hcount : Step.inserts replacedReferral < UInt64.size := by decide
  have horderly : Run.Orderly [] (initial.history replacedReferral) := by decide +kernel
  exact ⟨hcount, horderly, mirrors_after replacedReferral hcount horderly⟩

end Forest
end ReferralForest
