import Mathlib.Data.List.Nodup
import ReferralForest.Record

/-!
# Rosters

A roster lists the live referrals, oldest first. A referral joins at the end when its
code and its address are new and it names nobody or somebody in the roster; it leaves
when nobody else in the roster names it. Whatever the tree is asked can be read off the
roster: who has a code, who invited an address, whom an address invited.
-/

namespace ReferralForest

abbrev Roster := List Referral

namespace Roster

def byCode? (live : Roster) (code : CodeHash) : Option Referral := live.find? (·.code = code)

def byAddress? (live : Roster) (a : Address) : Option Referral := live.find? (·.address = a)

def named (live : Roster) (code : CodeHash) : Address :=
  ((byCode? live code).map Referral.address).getD .root

def invitedBy (live : Roster) (p : Address) : List Address :=
  (live.filter fun r => named live r.previous = p).map Referral.address

def inviter? (live : Roster) (a : Address) : Option Address :=
  (byAddress? live a).bind fun r => (byCode? live r.previous).map Referral.address

structure Joins (live : Roster) (r : Referral) : Prop where
  code : r.code ≠ FixedBytes.zero 32
  address : r.address ≠ .root
  fresh : ∀ s ∈ live, s.code ≠ r.code ∧ s.address ≠ r.address
  previous : r.previous = FixedBytes.zero 32 ∨ ∃ s ∈ live, s.code = r.previous

structure Leaves (live : Roster) (r : Referral) : Prop where
  mem : r ∈ live
  unnamed : ∀ s ∈ live, s ≠ r → s.previous ≠ r.code

instance (live : Roster) (r : Referral) : Decidable (Joins live r) :=
  decidable_of_iff (r.code ≠ FixedBytes.zero 32 ∧ r.address ≠ .root ∧
      (∀ s ∈ live, s.code ≠ r.code ∧ s.address ≠ r.address) ∧
      (r.previous = FixedBytes.zero 32 ∨ ∃ s ∈ live, s.code = r.previous))
    ⟨fun ⟨hc, ha, hf, hp⟩ => ⟨hc, ha, hf, hp⟩, fun ⟨hc, ha, hf, hp⟩ => ⟨hc, ha, hf, hp⟩⟩

instance (live : Roster) (r : Referral) : Decidable (Leaves live r) :=
  decidable_of_iff (r ∈ live ∧ ∀ s ∈ live, s ≠ r → s.previous ≠ r.code)
    ⟨fun ⟨hm, hu⟩ => ⟨hm, hu⟩, fun ⟨hm, hu⟩ => ⟨hm, hu⟩⟩

/-- The rosters that referrals joined one after the other. -/
inductive Grown : Roster → Prop
  | empty : Grown []
  | join {live : Roster} {r : Referral} (h : Grown live) (hr : Joins live r) : Grown (live ++ [r])

variable {live : Roster} {r : Referral}

theorem Joins.previous_ne (hr : Joins live r) : r.previous ≠ r.code := by
  intro heq
  rcases hr.previous with hzero | ⟨s, hs, hcode⟩
  · exact hr.code (heq ▸ hzero)
  · exact (hr.fresh s hs).1 (hcode.trans heq)

namespace Grown

theorem address_ne (h : Grown live) : ∀ s ∈ live, s.address ≠ .root := by
  induction h with
  | empty => simp
  | join h hr ih =>
    intro s hs
    rcases List.mem_append.mp hs with hs | hs
    · exact ih s hs
    · rw [List.mem_singleton.mp hs]
      exact hr.address

theorem previous (h : Grown live) :
    ∀ s ∈ live, s.previous = FixedBytes.zero 32 ∨ ∃ t ∈ live, t.code = s.previous := by
  induction h with
  | empty => simp
  | @join live r h hr ih =>
    intro s hs
    have hold : s.previous = FixedBytes.zero 32 ∨ ∃ t ∈ live, t.code = s.previous := by
      rcases List.mem_append.mp hs with hs | hs
      · exact ih s hs
      · rw [List.mem_singleton.mp hs]
        exact hr.previous
    exact hold.imp id fun ⟨t, ht, hcode⟩ => ⟨t, List.mem_append_left _ ht, hcode⟩

theorem previous_ne (h : Grown live) : ∀ s ∈ live, s.previous ≠ s.code := by
  induction h with
  | empty => simp
  | join h hr ih =>
    intro s hs
    rcases List.mem_append.mp hs with hs | hs
    · exact ih s hs
    · rw [List.mem_singleton.mp hs]
      exact hr.previous_ne

theorem nodup_address (h : Grown live) : (live.map Referral.address).Nodup := by
  induction h with
  | empty => simp
  | join h hr ih =>
    rw [List.map_append, List.nodup_append]
    refine ⟨ih, by simp, fun a ha b hb => ?_⟩
    obtain ⟨s, hs, rfl⟩ := List.mem_map.mp ha
    obtain rfl : b = _ := by simpa using hb
    exact (hr.fresh s hs).2

theorem eq_of_address (h : Grown live) {s t : Referral} (hs : s ∈ live) (ht : t ∈ live)
    (heq : s.address = t.address) : s = t :=
  List.inj_on_of_nodup_map h.nodup_address hs ht heq

theorem eq_of_code (h : Grown live) {s t : Referral} (hs : s ∈ live) (ht : t ∈ live)
    (heq : s.code = t.code) : s = t := by
  induction h with
  | empty => cases hs
  | join h hr ih =>
    rcases List.mem_append.mp hs with hs | hs <;> rcases List.mem_append.mp ht with ht | ht
    · exact ih hs ht
    · rw [List.mem_singleton.mp ht] at heq
      exact absurd heq (hr.fresh s hs).1
    · rw [List.mem_singleton.mp hs] at heq
      exact absurd heq.symm (hr.fresh t ht).1
    · rw [List.mem_singleton.mp hs, List.mem_singleton.mp ht]

end Grown

section Keyed
variable {κ : Type} [DecidableEq κ] {key : Referral → κ}

theorem find?_snoc (h : ∀ s ∈ live, key s ≠ key r) (k : κ) :
    (live ++ [r]).find? (key · = k) = if key r = k then some r else live.find? (key · = k) := by
  rw [List.find?_append]
  by_cases hk : key r = k
  · have hnone : live.find? (key · = k) = none :=
      List.find?_eq_none.mpr fun s hs => by simpa [← hk] using h s hs
    simp [hnone, hk]
  · simp [hk]

theorem find?_without (hr : ∀ s ∈ live, key s = key r → s = r) (k : κ) :
    (live.filter (· ≠ r)).find? (key · = k) =
      if key r = k then none else live.find? (key · = k) := by
  rw [List.find?_filter]
  by_cases hk : key r = k
  · rw [if_pos hk, List.find?_eq_none]
    intro s hs hfound
    simp only [decide_eq_true_eq] at hfound
    exact hfound.1 (hr s hs (hfound.2.trans hk.symm))
  · rw [if_neg hk]
    congr 1
    funext s
    by_cases hs : s = r
    · subst hs
      simp [hk]
    · simp [hs]

end Keyed

section Join
variable (hr : Joins live r)
include hr

theorem byCode?_join (code : CodeHash) :
    byCode? (live ++ [r]) code = if r.code = code then some r else byCode? live code :=
  find?_snoc (fun s hs => (hr.fresh s hs).1) code

theorem byAddress?_join (a : Address) :
    byAddress? (live ++ [r]) a = if r.address = a then some r else byAddress? live a :=
  find?_snoc (fun s hs => (hr.fresh s hs).2) a

theorem byCode?_join_previous {previous : CodeHash}
    (h : previous = FixedBytes.zero 32 ∨ ∃ s ∈ live, s.code = previous) :
    byCode? (live ++ [r]) previous = byCode? live previous := by
  rw [byCode?_join hr, if_neg]
  rintro rfl
  rcases h with hzero | ⟨s, hs, hcode⟩
  · exact hr.code hzero
  · exact (hr.fresh s hs).1 hcode

theorem named_join {previous : CodeHash}
    (h : previous = FixedBytes.zero 32 ∨ ∃ s ∈ live, s.code = previous) :
    named (live ++ [r]) previous = named live previous := by
  rw [named, byCode?_join_previous hr h, named]

theorem invitedBy_join (h : Grown live) (p : Address) :
    invitedBy (live ++ [r]) p =
      if named live r.previous = p then invitedBy live p ++ [r.address] else invitedBy live p := by
  have hold : live.filter (fun s => named (live ++ [r]) s.previous = p) =
      live.filter fun s => named live s.previous = p :=
    List.filter_congr fun s hs => by rw [named_join hr (h.previous s hs)]
  rw [invitedBy, List.filter_append, List.map_append, hold, invitedBy]
  by_cases hp : named live r.previous = p <;> simp [named_join hr hr.previous, hp]

theorem inviter?_join (h : Grown live) (a : Address) :
    inviter? (live ++ [r]) a =
      if r.address = a then (byCode? live r.previous).map Referral.address
      else inviter? live a := by
  rw [inviter?, byAddress?_join hr]
  by_cases ha : r.address = a
  · rw [if_pos ha, if_pos ha, Option.bind_some, byCode?_join_previous hr hr.previous]
  · rw [if_neg ha, if_neg ha, inviter?]
    cases hs : byAddress? live a with
    | none => rfl
    | some s =>
      have hmem : s ∈ live := List.mem_of_find?_eq_some hs
      rw [Option.bind_some, Option.bind_some, byCode?_join_previous hr (h.previous s hmem)]

end Join

section Leave
variable (h : Grown live) (hr : Leaves live r)
include h hr

theorem byCode?_leave (code : CodeHash) :
    byCode? (live.filter (· ≠ r)) code = if r.code = code then none else byCode? live code :=
  find?_without (fun _ hs => h.eq_of_code hs hr.mem) code

theorem byAddress?_leave (a : Address) :
    byAddress? (live.filter (· ≠ r)) a = if r.address = a then none else byAddress? live a :=
  find?_without (fun _ hs => h.eq_of_address hs hr.mem) a

theorem named_leave {previous : CodeHash} (hp : previous ≠ r.code) :
    named (live.filter (· ≠ r)) previous = named live previous := by
  rw [named, byCode?_leave h hr, if_neg (Ne.symm hp), named]

theorem invitedBy_leave (p : Address) :
    invitedBy (live.filter (· ≠ r)) p = (invitedBy live p).filter (· ≠ r.address) := by
  rw [invitedBy, invitedBy, List.filter_map, List.filter_filter, List.filter_filter]
  congr 1
  refine List.filter_congr fun s hs => ?_
  by_cases hsr : s = r
  · subst hsr
    simp
  · have haddress : s.address ≠ r.address := fun heq => hsr (h.eq_of_address hs hr.mem heq)
    rw [named_leave h hr (hr.unnamed s hs hsr)]
    simp [hsr, haddress]

end Leave

theorem Grown.leave (h : Grown live) (hr : Leaves live r) : Grown (live.filter (· ≠ r)) := by
  induction h with
  | empty => exact .empty
  | @join live s h hs ih =>
    rw [List.filter_append]
    by_cases hsr : s = r
    · subst hsr
      have hkeep : live.filter (· ≠ s) = live :=
        List.filter_eq_self.mpr fun t ht => decide_eq_true fun heq => (hs.fresh t ht).1 (heq ▸ rfl)
      rw [hkeep, List.filter_cons_of_neg (by simp), List.filter_nil, List.append_nil]
      exact h
    · have hmem : r ∈ live := (List.mem_append.mp hr.mem).resolve_right fun hmem =>
        hsr (List.mem_singleton.mp hmem).symm
      have hgrown := ih ⟨hmem, fun t ht => hr.unnamed t (List.mem_append_left _ ht)⟩
      have hunnamed : s.previous ≠ r.code :=
        hr.unnamed s (List.mem_append_right _ (List.mem_singleton_self s)) hsr
      rw [List.filter_cons_of_pos (by simpa using hsr), List.filter_nil]
      refine hgrown.join ⟨hs.code, hs.address, fun t ht => hs.fresh t (List.mem_filter.mp ht).1, ?_⟩
      refine hs.previous.imp id fun ⟨t, ht, hcode⟩ => ⟨t, List.mem_filter.mpr ⟨ht, ?_⟩, hcode⟩
      exact decide_eq_true fun heq => hunnamed (heq ▸ hcode.symm)

theorem invitedBy_sublist (live : Roster) (p : Address) :
    (invitedBy live p).Sublist (live.map Referral.address) :=
  List.filter_sublist.map _

theorem Grown.nodup_invitedBy (h : Grown live) (p : Address) : (invitedBy live p).Nodup :=
  h.nodup_address.sublist (invitedBy_sublist live p)

theorem length_invitedBy_le (live : Roster) (p : Address) :
    (invitedBy live p).length ≤ live.length := by
  simpa using (invitedBy_sublist live p).length_le

inductive Ascent (inviter : Address → Option Address) : Address → List Address → Prop
  | root {a : Address} (h : inviter a = none) : Ascent inviter a [a]
  | step {a p : Address} {way : List Address} (h : inviter a = some p)
      (hway : Ascent inviter p way) : Ascent inviter a (a :: way)

theorem Ascent.congr {inviter inviter' : Address → Option Address} {a : Address}
    {way : List Address} (h : Ascent inviter a way) (hsame : ∀ b ∈ way, inviter' b = inviter b) :
    Ascent inviter' a way := by
  induction h with
  | root h => exact .root ((hsame _ List.mem_cons_self).trans h)
  | step h _ ih =>
    exact .step ((hsame _ List.mem_cons_self).trans h)
      (ih fun b hb => hsame b (List.mem_cons_of_mem _ hb))

theorem Grown.exists_ascent (h : Grown live) :
    ∀ s ∈ live, ∃ way, Ascent (inviter? live) s.address way ∧ way.Nodup ∧
      ∀ a ∈ way, a ∈ live.map Referral.address := by
  induction h with
  | empty => simp
  | @join live r h hr ih =>
    have hfresh : r.address ∉ live.map Referral.address := by
      intro hmem
      obtain ⟨s, hs, heq⟩ := List.mem_map.mp hmem
      exact (hr.fresh s hs).2 heq
    -- the ways of the referrals that were there stay as they are
    have hold : ∀ s ∈ live, ∃ way, Ascent (inviter? (live ++ [r])) s.address way ∧ way.Nodup ∧
        ∀ a ∈ way, a ∈ live.map Referral.address := by
      intro s hs
      obtain ⟨way, hway, hnodup, hlive⟩ := ih s hs
      refine ⟨way, hway.congr fun a ha => ?_, hnodup, hlive⟩
      rw [inviter?_join hr h, if_neg]
      rintro rfl
      exact hfresh (hlive _ ha)
    intro s hs
    rw [List.map_append]
    rcases List.mem_append.mp hs with hs | hs
    · obtain ⟨way, hway, hnodup, hlive⟩ := hold s hs
      exact ⟨way, hway, hnodup, fun a ha => List.mem_append_left _ (hlive a ha)⟩
    · rw [List.mem_singleton.mp hs]
      have hself : inviter? (live ++ [r]) r.address =
          (byCode? live r.previous).map Referral.address := by
        rw [inviter?_join hr h, if_pos rfl]
      cases hfound : byCode? live r.previous with
      | none =>
        rw [hfound] at hself
        exact ⟨[r.address], .root hself, by simp, by simp⟩
      | some t =>
        rw [hfound] at hself
        obtain ⟨way, hway, hnodup, hlive⟩ := hold t (List.mem_of_find?_eq_some hfound)
        refine ⟨r.address :: way, .step hself hway, ?_, fun a ha => ?_⟩
        · exact List.nodup_cons.mpr ⟨fun hmem => hfresh (hlive _ hmem), hnodup⟩
        · rcases List.mem_cons.mp ha with rfl | ha
          · simp
          · exact List.mem_append_left _ (hlive a ha)

end Roster
end ReferralForest
