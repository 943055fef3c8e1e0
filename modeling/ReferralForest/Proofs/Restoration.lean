import ReferralForest.Proofs.Withdrawals

/-!
# Invitations that are taken back

A referral that is new to each index joins and is withdrawn later, whatever credits and
draws there are between. Then the tree is what it was, entry by entry. As the referral
does not name itself, both calls find the same inviter, with its record there or not. The
address goes from the end of the list that it was put on, as it was nowhere else in it.
A list with nobody left goes too, and no run has ever stored one, so none was there before.
-/

namespace ReferralForest

structure Tidy (m : ByteMap Bytes) : Prop where
  wellFormed : WellFormed m
  peopled : ∀ p value, m.get? (Key.children p) = some value →
    ∃ list, value = Children.toBytes list ∧ list ≠ []

namespace Tidy
variable {m m' : ByteMap Bytes}

theorem empty : Tidy .empty := ⟨wellFormed_empty, fun _ _ h => nomatch h⟩

theorem congr (h : Tidy m) (hm' : WellFormed m') (hsame : SameTree m m') : Tidy m' := by
  refine ⟨hm', fun p value => ?_⟩
  rw [hsame _ (.inr (.inr rfl))]
  exact h.peopled p value

theorem invited (h : Tidy m) (r : Referral) (parent : Address) {list : List Address}
    (hlist : list ≠ []) : Tidy (invited m r parent list) := by
  refine ⟨h.wellFormed.invited, fun p value hvalue => ?_⟩
  rw [get?_invited_children] at hvalue
  split at hvalue
  · exact ⟨list, (Option.some.inj hvalue).symm, hlist⟩
  · exact h.peopled p value hvalue

theorem withdrawn (h : Tidy m) (r : Referral) (parent : Address) (list : List Address) :
    Tidy (withdrawn m r parent list) := by
  refine ⟨h.wellFormed.withdrawn, fun p value hvalue => ?_⟩
  rw [get?_withdrawn_children] at hvalue
  split at hvalue
  · split at hvalue
    · cases hvalue
    · rename_i hlist
      exact ⟨list, (Option.some.inj hvalue).symm, by simpa using hlist⟩
  · exact h.peopled p value hvalue

theorem eval {f : Forest MemoryStore} (h : Tidy f.store.entries) (c : Command) :
    Tidy (c.eval f).2 := by
  have hapart : c.isTree = false → Tidy (c.eval f).2 := fun hc =>
    h.congr (c.wellFormed_eval h.wellFormed) (c.sameTree_eval f hc)
  cases c with
  | insert r =>
    rw [Command.eval, Command.program, Tx.eval_bind_ok (eval_invite_eq h.wellFormed r)]
    exact h.invited r _ (by simp)
  | remove r =>
    rw [Command.eval, Command.program, Tx.eval_bind_ok (eval_withdraw h.wellFormed r)]
    exact h.withdrawn r _ _
  | credit kind start change => exact hapart rfl
  | offer seed address => exact hapart rfl
  | push key address => exact hapart rfl
  | pop => exact hapart rfl

theorem run {f : Forest MemoryStore} (h : Tidy f.store.entries) (s : Step) :
    Tidy (s.run f).2.store.entries :=
  s.entries_run_of_eval h fun c _ => h.eval c

theorem after (steps : List Step) : Tidy (Forest.initial.after steps).store.entries :=
  Forest.after_of_step (P := fun f => Tidy f.store.entries) (fun _ s h => h.run s) empty steps

theorem get?_children (h : Tidy m) {p : Address}
    (hshort : ∀ value, m.get? (Key.children p) = some value → value.length < UInt64.size) :
    m.get? (Key.children p) = (if (childrenAt m p).isEmpty then none
      else some (Children.toBytes (childrenAt m p))) ∧
      (childrenAt m p).length + 1 < Bytes.count 8 := by
  cases hget : m.get? (Key.children p) with
  | none =>
    have hnone : childrenAt m p = [] := by
      rw [childrenAt, decodedAt, hget]
      rfl
    rw [hnone]
    exact ⟨rfl, by decide⟩
  | some value =>
    obtain ⟨list, rfl, hlist⟩ := h.peopled p value hget
    have hbytes := hshort _ hget
    have hlen : list.length + 1 < Bytes.count 8 := by
      rw [Children.length_toBytes] at hbytes
      have hword : UInt64.size = Bytes.count 8 := rfl
      omega
    have hread : childrenAt m p = list := by
      have hdecode := Children.ofBytes_toBytes (Nat.lt_of_succ_lt hlen)
      rw [childrenAt, decodedAt_eq_some.mpr ⟨_, hget, hdecode⟩]
      rfl
    rw [hread, if_neg (by simpa using hlist)]
    exact ⟨rfl, hlen⟩

end Tidy

/-- An invitation is undone by a withdrawal that finds its inviter, if all was new. -/
theorem sameTree_withdrawn {m m' : ByteMap Bytes} (h : Tidy m) {r : Referral} {parent : Address}
    (hcode : m.get? (Key.referral r.code) = none)
    (haddress : m.get? (Key.parent r.address) = none)
    (hshort : ∀ value, m.get? (Key.children parent) = some value → value.length < UInt64.size)
    (hunlisted : r.address ∉ childrenAt m parent)
    (hsame : SameTree (invited m r parent (childrenAt m parent ++ [r.address])) m') :
    SameTree m (withdrawn m' r parent ((childrenAt m' parent).filter (· ≠ r.address))) := by
  obtain ⟨hstored, hlen⟩ := h.get?_children hshort
  have hothers : (childrenAt m parent).filter (· ≠ r.address) = childrenAt m parent := by
    refine List.filter_eq_self.mpr fun a ha => decide_eq_true ?_
    rintro rfl
    exact hunlisted ha
  have hlist : (childrenAt m' parent).filter (· ≠ r.address) = childrenAt m parent := by
    rw [hsame.childrenAt_eq, childrenAt_invited m (by simpa using hlen), if_pos rfl,
      List.filter_append, hothers]
    simp
  -- three keys were written by both calls, and no other key of the tree by either
  intro key hkey
  rw [hlist, get?_withdrawn]
  by_cases hchildren : Key.children parent = key
  · rw [if_pos hchildren, ← hchildren, hstored]
  · by_cases hparent : Key.parent r.address = key
    · rw [if_neg hchildren, if_pos hparent, ← hparent, haddress]
    · by_cases hreferral : Key.referral r.code = key
      · rw [if_neg hchildren, if_neg hparent, if_pos hreferral, ← hreferral, hcode]
      · rw [if_neg hchildren, if_neg hparent, if_neg hreferral, hsame key hkey, get?_invited,
          if_neg hchildren, if_neg hparent, if_neg hreferral]

theorem leftUnder_eq_joinedUnder {m m' : ByteMap Bytes} {r : Referral} {parent : Address}
    {list : List Address} (hother : r.previous ≠ r.code)
    (hsame : SameTree (invited m r parent list) m') : leftUnder m' r = joinedUnder m r := by
  rw [leftUnder, joinedUnder, if_neg hother.symm, if_neg hother.symm, hsame.namedAt_eq, namedAt,
    referralAt_invited, if_neg hother.symm, namedAt]

namespace Forest
variable {f : Forest MemoryStore} {r : Referral}

theorem insert_eq_ok (h : WellFormed f.store.entries) (hok : (f.insert r).1 = .ok ()) :
    (f.insert r).2.store.entries = invited f.store.entries r (joinedUnder f.store.entries r)
      (childrenAt f.store.entries (joinedUnder f.store.entries r) ++ [r.address]) := by
  obtain ⟨m, heval, hentries⟩ := MemoryStore.transact_eq_ok hok
  cases (eval_invite_eq h r).symm.trans heval
  exact hentries

theorem remove_eq_ok (h : WellFormed f.store.entries) (hok : (f.remove r).1 = .ok ()) :
    (f.remove r).2.store.entries = withdrawn f.store.entries r (leftUnder f.store.entries r)
      ((childrenAt f.store.entries (leftUnder f.store.entries r)).filter (· ≠ r.address)) := by
  obtain ⟨m, heval, hentries⟩ := MemoryStore.transact_eq_ok hok
  cases (eval_withdraw h r).symm.trans heval
  exact hentries

/-- A referral that is new to each index, with the inviter that its previous code names. -/
structure Awaits (f : Forest MemoryStore) (r : Referral) (parent : Address) : Prop where
  code : f.hasCode r.code = .ok false
  other : r.previous ≠ r.code
  address : f.isReferred r.address = .ok false
  inviter : ∃ inviter?, f.referral? r.previous = .ok inviter? ∧
    (inviter?.map Referral.address).getD .root = parent
  unlisted : ∃ list, f.children parent = .ok list ∧ r.address ∉ list

namespace Awaits
variable {parent : Address}

theorem get?_referral (h : f.Awaits r parent) (hf : WellFormed f.store.entries) :
    f.store.entries.get? (Key.referral r.code) = none := by
  have hcode := h.code
  rw [hasCode_eq hf, ← hf.isSome_referral] at hcode
  exact Option.isNone_iff_eq_none.mp (by simpa using Except.ok.inj hcode)

theorem get?_parent (h : f.Awaits r parent) (hf : WellFormed f.store.entries) :
    f.store.entries.get? (Key.parent r.address) = none := by
  have haddress := h.address
  rw [isReferred_eq hf, ← hf.isSome_parent] at haddress
  exact Option.isNone_iff_eq_none.mp (by simpa using Except.ok.inj haddress)

theorem joinedUnder_eq (h : f.Awaits r parent) (hf : WellFormed f.store.entries) :
    joinedUnder f.store.entries r = parent := by
  obtain ⟨inviter?, hread, hparent⟩ := h.inviter
  rw [referral?_eq hf] at hread
  rw [joinedUnder, if_neg h.other.symm, namedAt, Except.ok.inj hread, hparent]

theorem not_mem_childrenAt (h : f.Awaits r parent) (hf : WellFormed f.store.entries) :
    r.address ∉ childrenAt f.store.entries parent := by
  obtain ⟨list, hread, hlist⟩ := h.unlisted
  rw [children_eq hf] at hread
  rwa [Except.ok.inj hread]

end Awaits

/-- A referral that joins a forest of some run and is withdrawn again leaves no trace in
the tree. The list that it joins has a length that a word can hold. -/
theorem sameTree_remove {before between : List Step} {f g : Forest MemoryStore} {r : Referral}
    {parent : Address} (hf : f = initial.after before) (hnew : f.Awaits r parent)
    (hshort : ∀ value, f.store.entries.get? (Key.children parent) = some value →
      value.length < UInt64.size)
    (hbetween : ∀ c, .call c ∈ between → c.isTree = false)
    (hg : g = (f.insert r).2.after between) :
    (f.store.writesLeft = none → (f.insert r).1 = .ok ()) ∧
      (g.store.writesLeft = none → (g.remove r).1 = .ok ()) ∧
      ((f.insert r).1 = .ok () → (g.remove r).1 = .ok () →
        SameTree f.store.entries (g.remove r).2.store.entries) := by
  have htidy : Tidy f.store.entries := hf ▸ .after before
  have hwf := htidy.wellFormed
  have hwf' : WellFormed g.store.entries :=
    hg ▸ after_of_step (P := fun f => WellFormed f.store.entries)
      (fun _ s h => s.wellFormed_run h) (Step.wellFormed_run hwf (.call (.insert r))) between
  have hsame : SameTree (f.insert r).2.store.entries g.store.entries :=
    hg ▸ sameTree_after _ hbetween
  refine ⟨fun hunarmed => ?_, fun hunarmed => ?_, fun hinsert hremove => ?_⟩
  · rw [insert, transact_unarmed hunarmed, eval_invite_eq hwf]
  · rw [remove, transact_unarmed hunarmed, eval_withdraw hwf']
  · rw [insert_eq_ok hwf hinsert] at hsame
    rw [remove_eq_ok hwf' hremove, leftUnder_eq_joinedUnder hnew.other hsame]
    rw [hnew.joinedUnder_eq hwf] at hsame ⊢
    exact sameTree_withdrawn htidy (hnew.get?_referral hwf) (hnew.get?_parent hwf) hshort
      (hnew.not_mem_childrenAt hwf) hsame

def guest : Referral := ⟨.filled 2, .filled 2, .filled 1, .script⟩

def lonely : Forest MemoryStore :=
  initial.after [.call (.insert ⟨.filled 1, .filled 1, FixedBytes.zero 32, .wallet⟩)]

def visit : List Step :=
  [.call (.credit .script guest.address 5), .limit 3 1, .call (.push ⟨.one⟩ guest.address)]

def visited : Forest MemoryStore := (lonely.insert guest).2.after visit

theorem sameTree_remove_visited :
    lonely.Awaits guest (.filled 1) ∧
      (∀ value, lonely.store.entries.get? (Key.children (.filled 1)) = some value →
        value.length < UInt64.size) ∧
      (∀ c, .call c ∈ visit → c.isTree = false) ∧
      (lonely.insert guest).1 = .ok () ∧ (visited.remove guest).1 = .ok () ∧
      SameTree lonely.store.entries (visited.remove guest).2.store.entries := by
  have hnew : lonely.Awaits guest (.filled 1) :=
    ⟨rfl, by decide, rfl, ⟨_, rfl, rfl⟩, ⟨_, rfl, by decide⟩⟩
  have hnone : lonely.store.entries.get? (Key.children (.filled 1)) = none := rfl
  have hshort : ∀ value, lonely.store.entries.get? (Key.children (.filled 1)) = some value →
      value.length < UInt64.size := fun value hvalue => nomatch hnone.symm.trans hvalue
  have hvisit : ∀ c, .call c ∈ visit → c.isTree = false := by simp [visit, Command.isTree]
  obtain ⟨hinsert, hremove, hsame⟩ :=
    sameTree_remove (f := lonely) (g := visited) rfl hnew hshort hvisit rfl
  have hjoined : (lonely.insert guest).1 = .ok () := hinsert rfl
  have hleft : (visited.remove guest).1 = .ok () := hremove (by decide +kernel)
  exact ⟨hnew, hshort, hvisit, hjoined, hleft, hsame hjoined hleft⟩

end Forest
end ReferralForest
