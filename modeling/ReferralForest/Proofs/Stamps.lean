import ReferralForest.Proofs.CreditWalk
import ReferralForest.Proofs.Indexes
import ReferralForest.Proofs.Scans
import Mathlib.Logic.Function.Basic

/-!
# Stamps

A credit stamps the record of its start with a type and the address itself. Walks that
only pass by leave that stamp alone, and give the records that they make none. So after
every run the rewardable records are those of the addresses whose last credit had a
rewardable type, each under its own address.
-/

namespace ReferralForest

section Records
variable {m m' : ByteMap Bytes} {a b : Address}

def netValueAt (m : ByteMap Bytes) (a : Address) : Option NetValue :=
  decodedAt NetValue.ofBytes m (Key.netValue a)

theorem netValueAt_congr (h : m'.get? (Key.netValue a) = m.get? (Key.netValue a)) :
    netValueAt m' a = netValueAt m a :=
  decodedAt_congr h

theorem netValueAt_insert (m : ByteMap Bytes) (a : Address) (r : NetValue) (b : Address) :
    netValueAt (m.insert (Key.netValue a) r.toBytes) b =
      if b = a then some r else netValueAt m b := by
  rw [netValueAt, decodedAt_insert, NetValue.ofBytes_toBytes]
  simp only [Key.Subject.key_inj, Key.Subject.netValue.injEq, eq_comm (a := a)]
  rfl

theorem WellFormed.eval_netValueAt (h : WellFormed m) (a : Address) :
    (Tx.readNetValue a).eval m = (.ok (netValueAt m a), m) := by
  obtain ⟨value?, hread⟩ := h.eval_readNetValue a
  rw [hread, netValueAt, decodedAt_of_eval hread]

theorem NetValue.credit_eq_amended {r r' : NetValue} {address : Address} {change : Int64}
    (h : r.credit address change = .ok r') : r' = { r with amount := r'.amount } := by
  rw [credit] at h
  split at h
  · cases h
  · split at h
    · cases h
    · cases h
      rfl

theorem eval_creditOne_eq_insert (h : WellFormed m) {change : Int64} {stamp : NetValue → NetValue}
    (heval : (Tx.creditOne a change stamp).eval m = (.ok (), m')) :
    ∃ amount, m' = m.insert (Key.netValue a)
      { stamp ((netValueAt m a).getD .fresh) with amount }.toBytes := by
  obtain ⟨r, hcredit, rfl⟩ := eval_creditOne_eq_ok (h.eval_netValueAt a) heval
  exact ⟨r.amount, by rw [← NetValue.credit_eq_amended hcredit]⟩

end Records

/-- What the record of an address may be after its last stamp, if it was ever stamped. -/
inductive Bears (a : Address) : Option AddressType → Option NetValue → Prop
  | absent : Bears a none none
  | plain (r : NetValue) (h : r.kind = .unset) : Bears a none (some r)
  | stamped (r : NetValue) (h : r.origin = a) : Bears a (some r.kind) (some r)

theorem Bears.amend {a : Address} {mark : Option AddressType} {value? : Option NetValue}
    (h : Bears a mark value?) (amount : Int64) :
    Bears a mark (some { value?.getD .fresh with amount }) := by
  cases h with
  | absent => exact .plain _ rfl
  | plain r hkind => exact .plain _ hkind
  | stamped r horigin => exact .stamped { r with amount } horigin

theorem Bears.eq_stamped {a : Address} {mark : Option AddressType} {r : NetValue}
    (h : Bears a mark (some r)) (hkind : r.kind.isRewardable = true) :
    r.origin = a ∧ mark = some r.kind := by
  cases h with
  | plain _ hplain =>
    rw [hplain] at hkind
    cases hkind
  | stamped _ horigin => exact ⟨horigin, rfl⟩

structure Stamped (m : ByteMap Bytes) (mark : Address → Option AddressType) : Prop where
  wellFormed : WellFormed m
  bears : ∀ a, Bears a (mark a) (netValueAt m a)

namespace Stamped
variable {m m' : ByteMap Bytes} {mark : Address → Option AddressType} {a start : Address}

theorem empty : Stamped .empty fun _ => none := ⟨wellFormed_empty, fun _ => .absent⟩

theorem insert (h : Stamped m mark) {r : NetValue} {k : Option AddressType}
    (hr : Bears a k (some r)) :
    Stamped (m.insert (Key.netValue a) r.toBytes) (Function.update mark a k) := by
  refine ⟨h.wellFormed.insert (.inr (.inl (.record a r))), fun b => ?_⟩
  rw [netValueAt_insert]
  by_cases hb : b = a
  · subst hb
    simpa using hr
  · simpa [hb] using h.bears b

theorem pass (h : Stamped m mark) {limit levels : Nat} {change : Int64}
    (heval : (Tx.creditFrom start limit change levels id a).eval m = (.ok (), m')) :
    Stamped m' mark := by
  induction levels generalizing m a with
  | zero => cases heval
  | succ levels ih =>
    obtain ⟨u, m₁, hone, hrest⟩ := Tx.eval_bind_eq_ok heval
    obtain ⟨amount, rfl⟩ := eval_creditOne_eq_insert h.wellFormed hone
    have hmark := h.insert ((h.bears a).amend amount)
    rw [Function.update_eq_self] at hmark
    obtain ⟨parent?, m₂, hread, hnext⟩ := Tx.eval_bind_eq_ok hrest
    obtain ⟨rfl, -⟩ := Tx.eval_readAs_eq_ok hread
    split at hnext
    · exact ih hmark hnext
    · cases hnext
      exact hmark

theorem credit (h : Stamped m mark) {limit : Nat} {kind : AddressType} {change : Int64}
    (heval : (Tx.credit limit kind start change).eval m = (.ok (), m')) :
    Stamped m' (Function.update mark start (some kind)) := by
  cases limit with
  | zero => cases heval
  | succ levels =>
    obtain ⟨u, m₁, hone, hrest⟩ := Tx.eval_bind_eq_ok heval
    obtain ⟨amount, rfl⟩ := eval_creditOne_eq_insert h.wellFormed hone
    have hmark := h.insert (.stamped ⟨kind, start, amount⟩ rfl)
    obtain ⟨parent?, m₂, hread, hnext⟩ := Tx.eval_bind_eq_ok hrest
    obtain ⟨rfl, -⟩ := Tx.eval_readAs_eq_ok hread
    split at hnext
    · exact hmark.pass hnext
    · cases hnext
      exact hmark

end Stamped

section Run

def Command.isCredit : Command → Bool
  | credit .. => true
  | insert _ | remove _ | offer .. | push .. | pop => false

theorem Command.netValueAt_eval (f : Forest MemoryStore) {c : Command} (hc : c.isCredit = false)
    (a : Address) : netValueAt (c.eval f).2 a = netValueAt f.store.entries a := by
  refine netValueAt_congr (Tx.get?_eval_of_not (c.confined_program _ _) _ fun v hwrite => ?_)
  have htree : ∀ v, ¬TreeWrite (Key.netValue a) v := by
    intro v h
    rcases h.tag with htag | htag | htag <;> cases htag
  have hlottery : ∀ v, ¬LotteryWrite (Key.netValue a) v := by
    intro v h
    rcases h.tag with htag | htag <;> cases htag
  cases c with
  | insert r => exact htree v hwrite
  | remove r => exact htree v hwrite
  | credit kind start change => cases hc
  | offer seed address => exact hlottery v hwrite
  | push key address => exact hlottery v hwrite
  | pop => exact hlottery v hwrite

def Event.mark? (a : Address) (e : Event) : Option AddressType :=
  match e.step, e.answer with
  | .call (.credit kind start _), .ok _ => if a = start then some kind else none
  | _, _ => none

def marks (a : Address) (run : List Event) : List AddressType := run.filterMap (Event.mark? a)

namespace Stamped
variable {f : Forest MemoryStore} {mark : Address → Option AddressType}

theorem run_call (h : Stamped f.store.entries mark) {c : Command} (hc : c.isCredit = false) :
    Stamped (c.run f).2.store.entries mark := by
  refine ⟨Step.wellFormed_run h.wellFormed (.call c), fun a => ?_⟩
  cases hanswer : (c.run f).1 with
  | error e =>
    rw [Command.run_eq_error hanswer]
    exact h.bears a
  | ok o =>
    obtain ⟨m, heval, hentries⟩ := Command.run_eq_ok hanswer
    have hsame := c.netValueAt_eval f hc a
    rw [heval] at hsame
    rw [hentries]
    split
    · rw [hsame]
      exact h.bears a
    · exact h.bears a

theorem run_credit (h : Stamped f.store.entries mark) (kind : AddressType) (start : Address)
    (change : Int64) :
    let c := Command.credit kind start change
    Stamped (c.run f).2.store.entries
      fun a => (Event.mark? a ⟨f, .call c, (c.run f).1⟩).or (mark a) := by
  intro c
  cases hanswer : (c.run f).1 with
  | error e =>
    rw [Command.run_eq_error hanswer]
    exact h
  | ok o =>
    obtain ⟨rfl, hprogram⟩ := Command.run_eq_done rfl hanswer
    have hmark : (fun a => (Event.mark? a ⟨f, .call c, .ok .done⟩).or (mark a)) =
        Function.update mark start (some kind) := by
      funext a
      by_cases ha : a = start <;> simp [Event.mark?, c, ha]
    rw [hmark]
    exact h.credit hprogram

theorem run_step (h : Stamped f.store.entries mark) (s : Step) :
    Stamped (s.run f).2.store.entries
      fun a => (Event.mark? a ⟨f, s, (s.run f).1⟩).or (mark a) := by
  cases s with
  | call c =>
    cases c with
    | credit kind start change => exact h.run_credit kind start change
    | insert r => exact h.run_call rfl
    | remove r => exact h.run_call rfl
    | offer seed address => exact h.run_call rfl
    | push key address => exact h.run_call rfl
    | pop => exact h.run_call rfl
  | failAfter writes => exact h
  | clearFailure => exact h
  | limit levels capacity => exact h

theorem after (h : Stamped f.store.entries mark) (steps : List Step) :
    Stamped (f.after steps).store.entries
      fun a => (marks a (f.history steps)).getLast?.or (mark a) := by
  induction steps generalizing f mark with
  | nil => exact h
  | cons s rest ih =>
    have hrest := ih (h.run_step s)
    have hmarks : ∀ a, (marks a (f.history (s :: rest))).getLast?.or (mark a) =
        (marks a ((s.run f).2.history rest)).getLast?.or
          ((Event.mark? a ⟨f, s, (s.run f).1⟩).or (mark a)) := by
      intro a
      rw [marks, Forest.history, List.filterMap_cons]
      cases Event.mark? a ⟨f, s, (s.run f).1⟩ with
      | none => rfl
      | some k =>
        simp only [List.getLast?_cons, marks]
        cases (((s.run f).2.history rest).filterMap (Event.mark? a)).getLast? <;> rfl
    simp only [hmarks]
    exact hrest

end Stamped
end Run

section Rewardable
variable {m : ByteMap Bytes} {mark : Address → Option AddressType} {a : Address} {r : NetValue}

theorem netValueOf?_eq_some {e : Bytes × Bytes} : Forest.netValueOf? e = some r ↔
    ∃ a, e.1 = Key.netValue a ∧ NetValue.ofBytes e.2 = .ok r := by
  constructor
  · intro h
    rw [Forest.netValueOf?] at h
    split at h
    · rename_i hkey
      obtain ⟨a, ha⟩ := Option.isSome_iff_exists.mp hkey
      refine ⟨a, Key.address?_eq_some.mp ha, ?_⟩
      cases hvalue : NetValue.ofBytes e.2 with
      | ok r' =>
        rw [hvalue] at h
        cases h
        rfl
      | error cause =>
        rw [hvalue] at h
        cases h
    · cases h
  · rintro ⟨a, hkey, hvalue⟩
    have haddress : Key.address? Key.netValueTag e.1 = some a := Key.address?_eq_some.mpr hkey
    simp [Forest.netValueOf?, haddress, hvalue, Except.toOption]

def recordsIn (m : ByteMap Bytes) : List NetValue :=
  (m.scan [Key.netValueTag]).filterMap Forest.netValueOf?

def rewardableIn (m : ByteMap Bytes) : List NetValue :=
  (recordsIn m).filter (·.kind.isRewardable)

theorem netValueAt_of_scan {e : Bytes × Bytes} (he : e ∈ m.scan [Key.netValueTag])
    (hr : Forest.netValueOf? e = some r) : ∃ a, e.1 = Key.netValue a ∧ netValueAt m a = some r := by
  obtain ⟨a, hkey, hvalue⟩ := netValueOf?_eq_some.mp hr
  obtain ⟨-, hget⟩ := ByteMap.mem_scan_tag.mp he
  rw [hkey] at hget
  exact ⟨a, hkey, decodedAt_eq_some.mpr ⟨e.2, hget, hvalue⟩⟩

theorem mem_recordsIn : r ∈ recordsIn m ↔ ∃ a, netValueAt m a = some r := by
  rw [recordsIn, List.mem_filterMap]
  constructor
  · rintro ⟨e, he, hr⟩
    obtain ⟨a, -, hread⟩ := netValueAt_of_scan he hr
    exact ⟨a, hread⟩
  · rintro ⟨a, hread⟩
    obtain ⟨value, hget, hvalue⟩ := decodedAt_eq_some.mp hread
    exact ⟨(Key.netValue a, value), ByteMap.mem_scan_tag.mpr ⟨rfl, hget⟩,
      netValueOf?_eq_some.mpr ⟨a, rfl, hvalue⟩⟩

namespace Stamped

theorem netValueAt_origin (h : Stamped m mark) (hr : r ∈ rewardableIn m) :
    netValueAt m r.origin = some r ∧ mark r.origin = some r.kind := by
  obtain ⟨hmem, hkind⟩ := List.mem_filter.mp hr
  obtain ⟨a, hread⟩ := mem_recordsIn.mp hmem
  have hbears := h.bears a
  rw [hread] at hbears
  obtain ⟨rfl, hmark⟩ := hbears.eq_stamped hkind
  exact ⟨hread, hmark⟩

theorem mem_origins (h : Stamped m mark) : a ∈ (rewardableIn m).map NetValue.origin ↔
    ∃ kind, mark a = some kind ∧ kind.isRewardable = true := by
  rw [List.mem_map]
  constructor
  · rintro ⟨r, hr, rfl⟩
    exact ⟨r.kind, (h.netValueAt_origin hr).2, (List.mem_filter.mp hr).2⟩
  · rintro ⟨kind, hmark, hkind⟩
    have hbears := h.bears a
    rw [hmark] at hbears
    generalize hread : netValueAt m a = value? at hbears
    cases hbears with
    | stamped r horigin =>
      exact ⟨r, List.mem_filter.mpr ⟨mem_recordsIn.mpr ⟨a, hread⟩, hkind⟩, horigin⟩

theorem ascending (h : Stamped m mark) :
    (rewardableIn m).Pairwise fun r s => r.origin.toBytes < s.origin.toBytes := by
  rw [rewardableIn, recordsIn, List.pairwise_filter, List.pairwise_filterMap]
  apply (m.sorted_scan [Key.netValueTag]).imp_of_mem
  intro e e' he he' hlt r hr s hs hkind hkind'
  obtain ⟨a, ha, hread⟩ := netValueAt_of_scan he hr
  obtain ⟨b, hb, hread'⟩ := netValueAt_of_scan he' hs
  have hbears := h.bears a
  rw [hread] at hbears
  have hbears' := h.bears b
  rw [hread'] at hbears'
  rw [(hbears.eq_stamped hkind).1, (hbears'.eq_stamped hkind').1]
  rw [ha, hb] at hlt
  exact Key.netValue_lt_netValue.mp hlt

end Stamped
end Rewardable

namespace Forest

theorem netValue?_eq_netValueAt {f : Forest MemoryStore} (h : WellFormed f.store.entries)
    (a : Address) : f.netValue? a = .ok (netValueAt f.store.entries a) :=
  netValue?_eq (h.eval_netValueAt a)

/-- After every run the rewardable records stand under their own addresses, in ascending
order, one for each address whose last successful credit had a rewardable type. -/
theorem rewardable_after (steps : List Step) :
    let f := initial.after steps
    ∃ list, f.rewardable = .ok list ∧ (∀ r ∈ list, f.netValue? r.origin = .ok (some r)) ∧
      (list.map NetValue.origin).Nodup ∧
      list.Pairwise (fun r s => r.origin.toBytes < s.origin.toBytes) ∧
      ∀ a, a ∈ list.map NetValue.origin ↔
        (marks a (initial.history steps)).getLast? = some .wallet ∨
          (marks a (initial.history steps)).getLast? = some .script := by
  intro f
  have hinitial : Stamped initial.store.entries fun _ => none := Stamped.empty
  have hstamped := hinitial.after steps
  simp only [Option.or_none] at hstamped
  refine ⟨rewardableIn f.store.entries, rfl, fun r hr => ?_, ?_, hstamped.ascending, fun a => ?_⟩
  · rw [netValue?_eq_netValueAt hstamped.wellFormed, (hstamped.netValueAt_origin hr).1]
  · rw [List.Nodup, List.pairwise_map]
    refine hstamped.ascending.imp fun hlt heq => ?_
    rw [heq] at hlt
    exact List.lt_irrefl _ hlt
  · rw [hstamped.mem_origins]
    constructor
    · rintro ⟨kind, hmark, hkind⟩
      cases kind with
      | wallet => exact .inl hmark
      | script => exact .inr hmark
      | unset => cases hkind
      | parameterizedScript => cases hkind
    · rintro (hmark | hmark)
      · exact ⟨_, hmark, rfl⟩
      · exact ⟨_, hmark, rfl⟩

-- the inviter is only passed by, and its own credit is cut off
example : (initial.after
    [.call (.insert ⟨.filled 9, .filled 1, .zero 32, .wallet⟩),
      .call (.insert ⟨.filled 8, .filled 2, .filled 9, .wallet⟩),
      .call (.credit .script (.filled 2) 7), .call (.credit .wallet .root 3),
      .limit 0 0, .call (.credit .wallet (.filled 1) 5)]).rewardable.toOption =
    some [⟨.wallet, .root, 3⟩, ⟨.script, .filled 2, 7⟩] := by
  decide +kernel

end Forest
end ReferralForest
