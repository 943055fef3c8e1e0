import ReferralForest.Proofs.Sampling
import ReferralForest.Proofs.WellFormed

/-!
# Runs of offers

The only lottery command of the runs here is the offer, which is decided by the net
value of the moment and the seed. Between offers the net values and the tree may
change at will. The balance of such a run is kept event by event: what the reservoir
held and what was offered is what it holds now and what was lost.
-/

namespace ReferralForest
open Heap

namespace Forest

def candidate? (f : Forest MemoryStore) (seed : CodeHash) (address : Address) : Option Ticket :=
  match f.netValue? address with
  | .ok (some value) =>
    (WeightedKey.ofDraw? seed.lowWord value.amount.toInt).map fun key => ⟨key, address⟩
  | _ => none

end Forest

namespace Event

def candidate (e : Event) : Multiset Ticket :=
  match e.step with
  | .call (.offer seed address) =>
    match e.before.candidate? seed address with
    | some ticket => {ticket}
    | none => 0
  | _ => 0

def offered (e : Event) : Multiset Ticket :=
  match e.answer with
  | .ok (.admission .noNetValue) | .ok (.admission .ineligible) | .error _ => 0
  | _ => e.candidate

def evicted (e : Event) : Multiset Ticket :=
  match e.answer with
  | .ok (.admission (.replaced ticket)) => {ticket}
  | _ => 0

def discarded (e : Event) : Multiset Ticket :=
  match e.answer with
  | .ok (.admission .discarded) => e.candidate
  | _ => 0

/-- An offer is decided, and for want of a candidate only if there is none, unless a heap
that is too deep has to be sifted. -/
def Decided (e : Event) : Prop :=
  ∀ seed address, e.step = .call (.offer seed address) →
    (∃ a, e.answer = .ok (.admission a) ∧
        (e.candidate = 0 ↔ a = .noNetValue ∨ a = .ineligible)) ∨
      (e.answer = .error .outOfRange ∧ Tx.firstChildless < e.before.capacity)

def lost (e : Event) : Multiset Ticket := e.evicted + e.discarded

theorem offered_of_considered {e : Event} {capacity : Nat} {ticket : Ticket} {a : Admission}
    {l l' : List Ticket} (hanswer : e.answer = .ok (.admission a))
    (hcandidate : e.candidate = {ticket})
    (h : Considered capacity ticket l a l') :
    e.offered = {ticket} ∧ e.lost = Kept.lostBy ticket a ∧ a ≠ .noNetValue ∧ a ≠ .ineligible := by
  rw [offered, lost, evicted, discarded, hanswer, hcandidate]
  cases h <;> exact ⟨rfl, rfl, nofun, nofun⟩

theorem offered_of_apart {e : Event} {c : Command} (hstep : e.step = .call c)
    (hc : c.isLottery = false) : e.offered = 0 := by
  have hcandidate : e.candidate = 0 := by
    rw [candidate, hstep]
    cases c with
    | offer seed address => cases hc
    | _ => rfl
  rw [offered]
  split
  · rfl
  · rfl
  · rfl
  · exact hcandidate

end Event

theorem Event.lost_of_apart (f : Forest MemoryStore) {c : Command} (hc : c.isLottery = false) :
    (Event.mk f (.call c) (c.run f).1).lost = 0 := by
  cases c with
  | insert r =>
    rw [Command.run]
    cases (f.insert r).1 <;> rfl
  | remove r =>
    rw [Command.run]
    cases (f.remove r).1 <;> rfl
  | credit kind start change =>
    rw [Command.run]
    cases (f.credit kind start change).1 <;> rfl
  | offer seed address => cases hc
  | push key address => cases hc
  | pop => cases hc

namespace Forest

/-- A forest in the middle of a run of offers, with the tickets that were lost so far. -/
structure Drawing (f : Forest MemoryStore) (kept : List Ticket) (lost : Multiset Ticket) :
    Prop where
  wellFormed : WellFormed f.store.entries
  unarmed : f.store.writesLeft = none
  word : f.capacity < UInt64.size
  stored : Stored f.store.entries kept
  kept : Kept f.capacity kept lost

variable {f : Forest MemoryStore} {kept : List Ticket} {lost : Multiset Ticket}

theorem candidate?_eq {value? : Option NetValue} {address : Address}
    (h : (Tx.readNetValue address).eval f.store.entries = (.ok value?, f.store.entries))
    (seed : CodeHash) :
    f.candidate? seed address = value?.bind fun value =>
      (WeightedKey.ofDraw? seed.lowWord value.amount.toInt).map fun key => ⟨key, address⟩ := by
  rw [candidate?, netValue?_eq h]
  cases value? <;> rfl

theorem Drawing.run (h : f.Drawing kept lost) {c : Command} {kept' : List Ticket}
    {lost' : Multiset Ticket} (hstored : Stored (c.run f).2.store.entries kept')
    (hkept : Kept f.capacity kept' lost') : (c.run f).2.Drawing kept' lost' := by
  have hcapacity : (c.run f).2.capacity = f.capacity := (Command.limits_run f c).2
  refine ⟨(Step.call c).wellFormed_run h.wellFormed, ?_, hcapacity ▸ h.word, hstored,
    hcapacity ▸ hkept⟩
  rw [Command.run_unarmed h.unarmed]
  exact h.unarmed

def Accounted (f : Forest MemoryStore) (c : Command) (kept : List Ticket) (lost : Multiset Ticket) :
    Prop :=
  let e : Event := ⟨f, .call c, (c.run f).1⟩
  e.Decided ∧ ∃ kept', (c.run f).2.Drawing kept' (lost + e.lost) ∧
    (kept : Multiset Ticket) + e.offered = (kept' : Multiset Ticket) + e.lost

theorem Drawing.accounted_of_none (h : f.Drawing kept lost) {c : Command}
    (hstored : Stored (c.run f).2.store.entries kept)
    (hdecided : (Event.mk f (.call c) (c.run f).1).Decided)
    (hoffered : (Event.mk f (.call c) (c.run f).1).offered = 0)
    (hlost : (Event.mk f (.call c) (c.run f).1).lost = 0) : f.Accounted c kept lost := by
  refine ⟨hdecided, kept, ?_, ?_⟩
  · rw [hlost, add_zero]
    exact h.run hstored h.kept
  · rw [hoffered, hlost]

theorem Drawing.accounted_apart (h : f.Drawing kept lost) {c : Command}
    (hc : c.isLottery = false) : f.Accounted c kept lost := by
  have hstored : Stored (c.run f).2.store.entries kept := by
    refine Step.entries_run_of_eval (P := (Stored · kept)) (s := .call c) h.stored fun c' hc' => ?_
    cases hc'
    exact Command.stored_eval_of_apart h.stored hc
  refine h.accounted_of_none hstored (fun seed address hstep => ?_)
    (Event.offered_of_apart rfl hc) (Event.lost_of_apart f hc)
  cases hstep
  cases hc

theorem Drawing.accounted_refused (h : f.Drawing kept lost) {seed : CodeHash} {address : Address}
    {a : Admission} (ha : a = .noNetValue ∨ a = .ineligible)
    (hcandidate : f.candidate? seed address = none)
    (heval : (Tx.offer f.capacity seed address).eval f.store.entries =
      (.ok a, f.store.entries)) : f.Accounted (.offer seed address) kept lost := by
  have hc : (Command.offer seed address).eval f = (.ok (.admission a), f.store.entries) :=
    Tx.eval_bind_ok heval
  have hrun := Command.run_unarmed h.unarmed (c := .offer seed address)
  rw [hc] at hrun
  have hanswer := congrArg Prod.fst hrun
  apply h.accounted_of_none
  · rw [hrun, MemoryStore.publish]
    rcases ha with rfl | rfl <;> exact h.stored
  · refine fun _ _ _ => .inl ⟨a, hanswer, iff_of_true ?_ ha⟩
    simp only [Event.candidate, hcandidate]
  · rw [Event.offered, hanswer]
    rcases ha with rfl | rfl <;> rfl
  · rw [Event.lost, Event.evicted, Event.discarded, hanswer]
    rcases ha with rfl | rfl <;> rfl

theorem Drawing.accounted_candidate (h : f.Drawing kept lost) {seed : CodeHash} {address : Address}
    {ticket : Ticket} (hcandidate : f.candidate? seed address = some ticket)
    (heval : (Tx.offer f.capacity seed address).eval f.store.entries =
      (Tx.consider f.capacity ticket).eval f.store.entries) :
    f.Accounted (.offer seed address) kept lost := by
  have hrun := Command.run_unarmed h.unarmed (c := .offer seed address)
  rcases eval_consider h.stored h.word ticket with
    ⟨a, m, kept', hok, hstored, hconsidered⟩ | ⟨m, herror, hdeep⟩ | ⟨m, -, hover⟩
  · have hc : (Command.offer seed address).eval f = (.ok (.admission a), m) :=
      Tx.eval_bind_ok (heval.trans hok)
    rw [hc] at hrun
    have hanswer := congrArg Prod.fst hrun
    obtain ⟨hkept, hbalance⟩ := h.kept.consider hconsidered
    have hticket : Event.candidate
        ⟨f, .call (.offer seed address), (Command.run f (.offer seed address)).1⟩ = {ticket} := by
      simp only [Event.candidate, hcandidate]
    obtain ⟨hoffered, hlost, hvalued, hfit⟩ :=
      Event.offered_of_considered hanswer hticket hconsidered
    have hsome := hticket.trans_ne (Multiset.singleton_ne_zero ticket)
    refine ⟨fun _ _ _ => .inl ⟨a, hanswer, iff_of_false hsome (not_or.mpr ⟨hvalued, hfit⟩)⟩,
      kept', h.run ?_ ?_, ?_⟩
    · rw [hrun, MemoryStore.publish]
      cases hconsidered with
      | inserted => exact hstored
      | replaced => exact hstored
      | discarded => exact h.stored
    · rw [hlost]
      exact hkept
    · rw [hoffered, hlost]
      exact hbalance
  · have hc : (Command.offer seed address).eval f = (.error .outOfRange, m) :=
      Tx.eval_bind_error (heval.trans herror)
    rw [hc] at hrun
    have hanswer := congrArg Prod.fst hrun
    apply h.accounted_of_none
    · rw [hrun]
      exact h.stored
    · exact fun _ _ _ => .inr ⟨hanswer, Nat.lt_of_lt_of_le hdeep h.kept.within⟩
    · rw [Event.offered, hanswer]
    · rw [Event.lost, Event.evicted, Event.discarded, hanswer]
      rfl
  · exact absurd h.kept.within (Nat.not_le.mpr hover)

theorem Drawing.accounted_offer (h : f.Drawing kept lost) (seed : CodeHash) (address : Address) :
    f.Accounted (.offer seed address) kept lost := by
  obtain ⟨value?, hread⟩ := h.wellFormed.eval_readNetValue address
  have heval := eval_offer hread f.capacity seed
  have hcandidate := candidate?_eq hread seed
  cases value? with
  | none => exact h.accounted_refused (.inl rfl) hcandidate heval
  | some value =>
    simp only at heval
    rw [Option.bind_some] at hcandidate
    cases hdraw : WeightedKey.ofDraw? seed.lowWord value.amount.toInt with
    | none =>
      rw [hdraw] at heval hcandidate
      exact h.accounted_refused (.inr rfl) hcandidate heval
    | some key =>
      rw [hdraw] at heval hcandidate
      exact h.accounted_candidate hcandidate heval

theorem Drawing.accounted (h : f.Drawing kept lost) {c : Command}
    (hc : c ≠ .pop ∧ ∀ key address, c ≠ .push key address) : f.Accounted c kept lost := by
  cases c with
  | insert r => exact h.accounted_apart rfl
  | remove r => exact h.accounted_apart rfl
  | credit kind start change => exact h.accounted_apart rfl
  | offer seed address => exact h.accounted_offer seed address
  | push key address => exact absurd rfl (hc.2 key address)
  | pop => exact absurd rfl hc.1

end Forest

namespace Run

def offered (run : List Event) : Multiset Ticket := (run.map Event.offered).sum

def evicted (run : List Event) : Multiset Ticket := (run.map Event.evicted).sum

def discarded (run : List Event) : Multiset Ticket := (run.map Event.discarded).sum

end Run

namespace Forest
variable {f : Forest MemoryStore} {kept : List Ticket} {lost : Multiset Ticket}

theorem Drawing.after (h : f.Drawing kept lost) (calls : List Command)
    (hcalls : ∀ c ∈ calls, c ≠ .pop ∧ ∀ key address, c ≠ .push key address) :
    let run := f.history (calls.map .call)
    (∀ e ∈ run, e.Decided) ∧ ∃ kept', (f.after (calls.map .call)).Drawing kept'
        (lost + (Run.evicted run + Run.discarded run)) ∧
      (kept : Multiset Ticket) + Run.offered run =
        (kept' : Multiset Ticket) + (Run.evicted run + Run.discarded run) := by
  induction calls generalizing f kept lost with
  | nil =>
    refine ⟨fun e he => (List.not_mem_nil he).elim, kept, ?_, rfl⟩
    have hnone : lost + (Run.evicted [] + Run.discarded []) = lost := add_zero lost
    rw [← hnone] at h
    exact h
  | cons c rest ih =>
    obtain ⟨hdecided, mid, hmid, hbalance⟩ := h.accounted (hcalls c List.mem_cons_self)
    obtain ⟨hrest, kept', hkept', hbalance'⟩ :=
      ih hmid fun c' hc' => hcalls c' (List.mem_cons_of_mem c hc')
    generalize hrun : (c.run f).2.history (rest.map .call) = run at hrest hkept' hbalance'
    have hhistory : f.history ((c :: rest).map .call) = ⟨f, .call c, (c.run f).1⟩ :: run :=
      congrArg (List.cons _) hrun
    generalize Event.mk f (.call c) (c.run f).1 = e at hdecided hmid hbalance hkept' hhistory
    have hlost : Run.evicted (e :: run) + Run.discarded (e :: run) =
        e.lost + (Run.evicted run + Run.discarded run) := by
      simp only [Run.evicted, Run.discarded, List.map_cons, List.sum_cons, Event.lost]
      abel
    simp only [hhistory, hlost]
    refine ⟨fun e' he' => ?_, kept', ?_, ?_⟩
    · rcases List.mem_cons.mp he' with rfl | he'
      · exact hdecided
      · exact hrest e' he'
    · rw [← add_assoc]
      exact hkept'
    · calc (kept : Multiset Ticket) + Run.offered (e :: run)
          = (kept + e.offered) + Run.offered run := by
            rw [Run.offered, List.map_cons, List.sum_cons, ← add_assoc, Run.offered]
        _ = (mid + Run.offered run) + e.lost := by
            rw [hbalance]
            abel
        _ = kept' + (e.lost + (Run.evicted run + Run.discarded run)) := by
            rw [hbalance']
            abel

end Forest
end ReferralForest
