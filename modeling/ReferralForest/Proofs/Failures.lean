import ReferralForest.Proofs.AuditReport
import ReferralForest.Proofs.HeapInvariant
import ReferralForest.Proofs.Withdrawals

/-!
# What can fail

The entries of every run can be read, and the slots below the heap size are there. So no
query fails, and a command fails only by itself: a credit at an amount or at the limit of
levels, an offer at a capacity below the heap size, and any command at an armed failure.
Apart from that only a heap of more than `2^63` tickets, more than the run has steps, has
no room for the positions of its last level.
-/

namespace ReferralForest
open Heap

inductive Command.MayFail (f : Forest MemoryStore) : Command → StoreError → Prop
  | injected {c : Command} {left : Nat} (harmed : f.store.writesLeft = some left)
      (hstruck : left < c.writes f) : MayFail f c (.backend .injected)
  | amount {kind : AddressType} {start : Address} {change : Int64} {v : Violation}
      (hamount : v.OfAmount) : MayFail f (.credit kind start change) (.invariant v)
  | cycle {kind : AddressType} {start : Address} {change : Int64} :
      MayFail f (.credit kind start change) (.invariant (.cycleDetected start f.maxLevels))
  | overCapacity {seed : CodeHash} {address : Address} {size : Nat} (hsize : f.heapSize = .ok size)
      (hover : f.capacity < size) :
      MayFail f (.offer seed address) (.invariant (.heapOverCapacity size f.capacity))

inductive Readable : Bytes → Bytes → Prop
  | referral {code : CodeHash} {value : Bytes} {r : Referral}
      (h : Referral.ofBytes value = .ok r) : Readable (Key.referral code) value
  | parent {a p : Address} {value : Bytes} (h : ParentEntry.ofBytes value = .ok p) :
      Readable (Key.parent a) value
  | children {p : Address} {value : Bytes} {list : List Address}
      (h : Children.ofBytes value = .ok list) : Readable (Key.children p) value
  | netValue {a : Address} {value : Bytes} {r : NetValue} (h : NetValue.ofBytes value = .ok r) :
      Readable (Key.netValue a) value
  | heapSize {value : Bytes} {size : Nat} (h : HeapSize.ofBytes value = .ok size) :
      Readable Key.heapSize value
  | slot {position : Nat} {value : Bytes} {t : Ticket} (h : Ticket.ofBytes value = .ok t) :
      Readable (Key.slot position) value

theorem WellFormed.readable {m : ByteMap Bytes} (h : WellFormed m) {key value : Bytes}
    (hget : m.get? key = some value) : Readable key value := by
  have hwritten := (h key).resolve_left (by simp [hget])
  rw [hget] at hwritten
  rcases hwritten with htree | hnet | hlottery
  · cases htree with
    | referral r => exact .referral (Referral.ofBytes_toBytes r)
    | parent child p => exact .parent (ParentEntry.ofBytes_toBytes p)
    | children p list =>
      obtain ⟨shown, hread, -⟩ := Children.ofBytes_append list []
      rw [List.append_nil] at hread
      exact .children hread
  · cases hnet with
    | record a r => exact .netValue (NetValue.ofBytes_toBytes r)
  · cases hlottery with
    | size n => exact .heapSize (HeapSize.ofBytes_toBytes n)
    | slot i t => exact .slot (Ticket.ofBytes_toBytes t)

namespace Forest

structure Answers (f : Forest MemoryStore) : Prop where
  referral : ∀ code, (f.referral? code).isOk
  inviter : ∀ a, (f.inviter? a).isOk
  parentEntry : ∀ a, (f.parentEntry? a).isOk
  children : ∀ a, (f.children a).isOk
  hasCode : ∀ code, (f.hasCode code).isOk
  isReferred : ∀ a, (f.isReferred a).isOk
  netValue : ∀ a, (f.netValue? a).isOk
  netValues : f.netValues.isOk
  rewardable : f.rewardable.isOk
  leastKey : f.leastKey?.isOk
  tickets : f.tickets.isOk
  audit : f.audit.isOk
  readable : ∀ key value, f.store.entries.get? key = some value → Readable key value
  occupied : ∃ size, f.heapSize = .ok size ∧ ∀ i < size, ∃ t, f.SlotHolds i t

variable {f : Forest MemoryStore} {l : List Ticket}

theorem answers_of_stored (hm : WellFormed f.store.entries) (hl : Stored f.store.entries l) :
    f.Answers := by
  have hsize := heapSize_of_stored hl
  obtain ⟨report, haudit, -⟩ := audit_of_heapSize hsize
  refine ⟨fun code => ?_, fun a => ?_, fun a => ?_, fun a => ?_, fun code => ?_, fun a => ?_,
    fun a => ?_, rfl, rfl, ?_, ?_, ?_, fun _ _ => hm.readable,
    ⟨l.length, hsize, (soundHeap_of_stored hl).decoded⟩⟩
  · rw [referral?_eq hm]
    rfl
  · rw [inviter?_eq hm]
    rfl
  · have hparent := parentEntry?_eq hm a
    rw [hparent]
    rfl
  · rw [children_eq hm]
    rfl
  · rw [hasCode_eq hm]
    rfl
  · rw [isReferred_eq hm]
    rfl
  · obtain ⟨value?, hread⟩ := hm.eval_readNetValue a
    rw [netValue?_eq hread]
    rfl
  · rw [leastKey?_of_stored hl]
    rfl
  · rw [tickets_of_stored hl]
    rfl
  · rw [haudit]
    rfl

end Forest

namespace Command
variable {f : Forest MemoryStore} {l : List Ticket} {c : Command} {e : StoreError}

theorem eval_offer_error (hm : WellFormed f.store.entries) (hl : Stored f.store.entries l)
    (hcapacity : f.capacity < UInt64.size) {seed : CodeHash} {address : Address}
    {m : ByteMap Bytes}
    (heval : (Tx.offer f.capacity seed address).eval f.store.entries = (.error e, m)) :
    (offer seed address).MayFail f e ∨ e = .outOfRange ∧ Tx.firstChildless < l.length := by
  obtain ⟨value?, hread⟩ := hm.eval_readNetValue address
  rw [eval_offer hread] at heval
  split at heval
  · cases heval
  split at heval
  · cases heval
  · rename_i key _
    rcases eval_consider hl hcapacity ⟨key, address⟩ with
      ⟨a, m', l', hok, -⟩ | ⟨m', herror, hdeep⟩ | ⟨m', herror, hover⟩
    · cases hok.symm.trans heval
    · cases herror.symm.trans heval
      exact .inr ⟨rfl, hdeep⟩
    · cases herror.symm.trans heval
      exact .inl (.overCapacity (Forest.heapSize_of_stored hl) hover)

theorem eval_error (hm : WellFormed f.store.entries) (hl : Stored f.store.entries l)
    (hcapacity : f.capacity < UInt64.size) {m : ByteMap Bytes}
    (heval : c.eval f = (.error e, m)) :
    c.MayFail f e ∨ e = .outOfRange ∧ Tx.firstChildless < l.length := by
  cases c with
  | insert r =>
    have hprogram := Tx.eval_bind_pure_eq_error heval
    cases (eval_invite_eq hm r).symm.trans hprogram
  | remove r =>
    have hprogram := Tx.eval_bind_pure_eq_error heval
    cases (eval_withdraw hm r).symm.trans hprogram
  | credit kind start change =>
    have hprogram := Tx.eval_bind_pure_eq_error heval
    obtain ⟨v, rfl, hamount | ⟨rfl, -⟩⟩ :=
      eval_creditFrom_error (by exact fun _ => rfl) hm rfl hprogram
    · exact .inl (.amount hamount)
    · exact .inl .cycle
  | offer seed address =>
    exact eval_offer_error hm hl hcapacity (Tx.eval_bind_pure_eq_error heval)
  | push key address =>
    have hprogram := Tx.eval_bind_pure_eq_error heval
    rcases Nat.lt_or_ge l.length f.capacity with hroom | hfull
    · obtain ⟨m', l', hpush, -⟩ := eval_heapPush_room hl hroom hcapacity ⟨key, address⟩
      cases hpush.symm.trans hprogram
    · cases (eval_heapPush_full hl hfull _).symm.trans hprogram
  | pop =>
    have hprogram := Tx.eval_bind_pure_eq_error heval
    cases l with
    | nil => cases (eval_heapPop_nil hl).symm.trans hprogram
    | cons least rest =>
      rcases eval_heapPop_cons hl with ⟨m', l', hpop, -⟩ | ⟨m', hpop, hdeep⟩
      · cases hpop.symm.trans hprogram
      · cases hpop.symm.trans hprogram
        exact .inr ⟨rfl, Nat.lt_succ_of_lt hdeep⟩

theorem run_error (hm : WellFormed f.store.entries) (hl : Stored f.store.entries l)
    (hcapacity : f.capacity < UInt64.size) (h : (c.run f).1 = .error e) :
    c.MayFail f e ∨ e = .outOfRange ∧ Tx.firstChildless < l.length := by
  rcases f.store.allows_or_exceeds (c.writes f) with hallows | ⟨left, harmed, hstruck⟩
  · rw [run_of_allows hallows] at h
    exact eval_error hm hl hcapacity (Prod.ext h rfl)
  · rw [run_of_exceeds harmed hstruck] at h
    cases h
    exact .inl (.injected harmed hstruck)

end Command

/-- In every run all queries answer, and a command fails in its own ways only. -/
theorem Forest.answers_after (steps : List Step) :
    let f := initial.after steps
    f.Answers ∧ ∀ c e, (Command.run f c).1 = .error e →
      c.MayFail f e ∨ e = .outOfRange ∧ Tx.firstChildless < steps.length := by
  intro f
  have hm := wellFormed_after steps
  have hcapacity := (sampling_after sampling_initial steps).1
  obtain ⟨l, hl, hlen⟩ := stored_after (f := initial) stored_empty (by decide) steps
  rw [List.length_nil, Nat.zero_add] at hlen
  refine ⟨answers_of_stored hm hl, fun c e h => ?_⟩
  exact (Command.run_error hm hl hcapacity h).imp id fun ⟨he, hdeep⟩ =>
    ⟨he, Nat.lt_of_lt_of_le hdeep hlen⟩

end ReferralForest
