import ReferralForest.Forest.Audit
import ReferralForest.Proofs.Run
import ReferralForest.Store.Persistent

/-!
# The same answers from every store

A forest uses its store only where all engines agree: it hands over keys of 1 to 511 bytes,
scans whole namespaces and keeps or drops a transaction as a whole. So the store in memory
and the one on disk give the same answers and hold the same entries after every call, and
so does a store that refuses keys of any other size outright.
-/

namespace ReferralForest

def Key.Sized (k : Bytes) : Prop := 1 ≤ k.length ∧ k.length ≤ 511

namespace Key

instance (k : Bytes) : Decidable (Sized k) := inferInstanceAs (Decidable (_ ∧ _))

theorem Sized.ne_nil {k : Bytes} (h : Sized k) : k ≠ [] := by
  rintro rfl
  exact absurd h.1 (by decide)

theorem sized_tagged {width : Nat} (hwidth : width < 511) (tag : UInt8) (x : FixedBytes width) :
    Sized (tag :: x.toBytes) := by
  have hlength := x.length_eq
  rw [Sized, List.length_cons]
  omega

theorem sized_slot (position : Nat) : Sized (Key.slot position) := by
  rw [Sized, Key.slot, List.length_cons, Bytes.length_bigEndian]
  omega

theorem OfTree.sized {k : Bytes} (h : OfTree k) : Sized k := by
  cases h with
  | referral code => exact sized_tagged (by decide) _ code
  | parent a => exact sized_tagged (by decide) _ a
  | children a => exact sized_tagged (by decide) _ a

theorem OfCredit.sized {k : Bytes} (h : OfCredit k) : Sized k := by
  cases h with
  | netValue a => exact sized_tagged (by decide) _ a
  | parent a => exact sized_tagged (by decide) _ a

theorem OfHeap.sized {k : Bytes} (h : OfHeap k) : Sized k := by
  cases h with
  | size => decide
  | slot position => exact sized_slot position

end Key

theorem TreeWrite.sized {k : Bytes} {v : Option Bytes} (h : TreeWrite k v) : Key.Sized k := by
  cases h with
  | referral r => exact (Key.OfTree.referral r.code).sized
  | noReferral code => exact (Key.OfTree.referral code).sized
  | parent child parent => exact (Key.OfTree.parent child).sized
  | noParent child => exact (Key.OfTree.parent child).sized
  | children parent list => exact (Key.OfTree.children parent).sized
  | noChildren parent => exact (Key.OfTree.children parent).sized

theorem NetValueWrite.sized {k : Bytes} {v : Option Bytes} (h : NetValueWrite k v) :
    Key.Sized k := by
  cases h with
  | record address r => exact (Key.OfCredit.netValue address).sized

theorem LotteryWrite.sized {k : Bytes} {v : Option Bytes} (h : LotteryWrite k v) :
    Key.Sized k := by
  cases h with
  | size n => exact Key.OfHeap.size.sized
  | slot position ticket => exact Key.sized_slot position
  | noSlot position => exact Key.sized_slot position

abbrev Tx.Portable {α : Type} (p : Tx α) : Prop := p.Uses Key.Sized fun k _ => Key.Sized k

namespace Tx

theorem portable_read {k : Bytes} (hk : Key.Sized k) : (read k).Portable :=
  ⟨hk, fun _ => trivial⟩

theorem portable_readAs {α : Type} {k : Bytes} (hk : Key.Sized k)
    (decode : Bytes → Except Malformed α) : (readAs k decode).Portable :=
  uses_readAs hk decode

theorem portable_readHeapSize : readHeapSize.Portable :=
  uses_readHeapSize.mono (fun _ => Key.OfHeap.sized) fun _ _ => id

theorem portable_readTickets (size position count : Nat) :
    (readTickets size position count).Portable :=
  (uses_readTickets size position count).mono (fun _ => Key.OfHeap.sized) fun _ _ => id

end Tx

theorem Command.portable_program (levels capacity : Nat) (c : Command) :
    (c.program levels capacity).Portable := by
  refine (c.uses_program levels capacity).mono (fun k hk => ?_) fun k v hwrite => ?_
  · cases c with
    | insert r => exact Key.OfTree.sized hk
    | remove r => exact Key.OfTree.sized hk
    | credit kind start change => exact Key.OfCredit.sized hk
    | offer seed address =>
      rcases hk with hk | rfl
      · exact hk.sized
      · exact (Key.OfCredit.netValue address).sized
    | push key address => exact Key.OfHeap.sized hk
    | pop => exact Key.OfHeap.sized hk
  · cases c with
    | insert r => exact TreeWrite.sized hwrite
    | remove r => exact TreeWrite.sized hwrite
    | credit kind start change => exact NetValueWrite.sized hwrite
    | offer seed address => exact LotteryWrite.sized hwrite
    | push key address => exact LotteryWrite.sized hwrite
    | pop => exact LotteryWrite.sized hwrite

section Calls

inductive Query
  | referral (code : CodeHash)
  | inviter (a : Address)
  | parentEntry (a : Address)
  | children (a : Address)
  | hasCode (code : CodeHash)
  | isReferred (a : Address)
  | netValue (a : Address)
  | netValues
  | rewardable
  | leastKey
  | heapSize
  | tickets
  | audit

inductive Reply
  | outcome (o : Outcome)
  | referral (r : Option Referral)
  | address (a : Option Address)
  | addresses (list : List Address)
  | flag (b : Bool)
  | netValue (r : Option NetValue)
  | netValues (list : List NetValue)
  | key (k : Option WeightedKey)
  | size (n : Nat)
  | tickets (list : List Ticket)
  | report (r : Report)

inductive Call
  | command (c : Command)
  | query (q : Query)
  | limit (levels capacity : Nat)

variable {S T : Type} [Transaction T] [Engine S T]

def Query.run (f : Forest S) : Query → Except StoreError Reply
  | referral code => (f.referral? code).map Reply.referral
  | inviter a => (f.inviter? a).map Reply.address
  | parentEntry a => (f.parentEntry? a).map Reply.address
  | children a => (f.children a).map Reply.addresses
  | hasCode code => (f.hasCode code).map Reply.flag
  | isReferred a => (f.isReferred a).map Reply.flag
  | netValue a => (f.netValue? a).map Reply.netValue
  | netValues => f.netValues.map Reply.netValues
  | rewardable => f.rewardable.map Reply.netValues
  | leastKey => f.leastKey?.map Reply.key
  | heapSize => f.heapSize.map Reply.size
  | tickets => f.tickets.map Reply.tickets
  | audit => f.audit.map Reply.report

def Call.run (f : Forest S) : Call → Except StoreError Reply × Forest S
  | command c => ((c.run f).1.map .outcome, (c.run f).2)
  | query q => (q.run f, f)
  | limit levels capacity => (.ok (.outcome .done), { f with maxLevels := levels, capacity })

def Forest.replies (f : Forest S) : List Call → List (Except StoreError Reply × ByteMap Bytes)
  | [] => []
  | c :: rest => ((c.run f).1, Engine.entries (c.run f).2.store) :: (c.run f).2.replies rest

end Calls

structure SameAnswer {α : Type} (r r' : Except StoreError α) : Prop where
  eq : r = r'
  own : ∀ fault, r ≠ .error (.backend fault)

namespace SameAnswer
variable {α β : Type} {r r' : Except StoreError α}

theorem ok (a : α) : SameAnswer (.ok a) (.ok a) := ⟨rfl, fun _ => nofun⟩

theorem map (h : SameAnswer r r') (g : α → β) : SameAnswer (r.map g) (r'.map g) := by
  refine ⟨congrArg _ h.eq, fun fault => ?_⟩
  cases r with
  | ok a => exact nofun
  | error e => exact fun heq => h.own fault (congrArg _ (Except.error.inj heq))

theorem bind (h : SameAnswer r r') {g g' : α → Except StoreError β}
    (hg : ∀ a, SameAnswer (g a) (g' a)) : SameAnswer (r >>= g) (r' >>= g') := by
  cases h.eq
  cases r with
  | ok a => exact hg a
  | error e => exact ⟨rfl, fun fault heq => h.own fault (congrArg _ (Except.error.inj heq))⟩

end SameAnswer

/-- A store whose entries are a map does to them what a portable program does to the map. -/
structure Simulates {S T : Type} [Transaction T] [Engine S T] (R : S → ByteMap Bytes → Prop) :
    Prop where
  entries : ∀ {s m}, R s m → Engine.entries s = m
  scan : ∀ {s m first}, R s m → Key.Sized first → Engine.scan s first = .ok (m.scan first)
  view : ∀ {s m α} {p : Tx α}, R s m → p.Portable → Engine.view s p = (p.eval m).1
  transact : ∀ {s m α} {p : Tx α} (commits : α → Bool), R s m → p.Portable →
    ∃ s', Engine.transact s p commits = ((p.eval m).1, s') ∧
      R s' (MemoryStore.publish commits m (p.eval m))

section Alike
variable {S T S' T' : Type} [Transaction T] [Engine S T] [Transaction T'] [Engine S' T']
variable {R : S → ByteMap Bytes → Prop} {R' : S' → ByteMap Bytes → Prop}
variable {f : Forest S} {g : Forest S'}

structure Alike (R : S → ByteMap Bytes → Prop) (R' : S' → ByteMap Bytes → Prop) (f : Forest S)
    (g : Forest S') : Prop where
  entries : ∃ m, R f.store m ∧ R' g.store m
  maxLevels : f.maxLevels = g.maxLevels
  capacity : f.capacity = g.capacity

namespace Alike

theorem view {α : Type} (h : Alike R R' f g) (hR : Simulates R) (hR' : Simulates R') {p : Tx α}
    (hp : p.Portable) : SameAnswer (f.view p) (g.view p) := by
  obtain ⟨m, hf, hg⟩ := h.entries
  have hview : f.view p = (p.eval m).1 := hR.view hf hp
  have hview' : g.view p = (p.eval m).1 := hR'.view hg hp
  rw [hview, hview']
  exact ⟨rfl, hp.eval_ne_backend m⟩

theorem view_map {α β : Type} (h : Alike R R' f g) (hR : Simulates R) (hR' : Simulates R')
    {p : Tx α} (hp : p.Portable) (c : α → β) :
    SameAnswer (f.view do return c (← p)) (g.view do return c (← p)) :=
  h.view hR hR' (Tx.uses_bind hp fun _ => trivial)

theorem scan (h : Alike R R' f g) (hR : Simulates R) (hR' : Simulates R') (tag : UInt8) :
    SameAnswer (Engine.scan f.store [tag]) (Engine.scan g.store [tag]) := by
  obtain ⟨m, hf, hg⟩ := h.entries
  have hsized : Key.Sized [tag] := by
    constructor <;> simp
  rw [hR.scan hf hsized, hR'.scan hg hsized]
  exact .ok _

theorem netValues (h : Alike R R' f g) (hR : Simulates R) (hR' : Simulates R') :
    SameAnswer f.netValues g.netValues :=
  (h.scan hR hR' _).bind fun _ => .ok _

theorem audit (h : Alike R R' f g) (hR : Simulates R) (hR' : Simulates R') :
    SameAnswer f.audit g.audit := by
  refine (h.scan hR hR' _).bind fun parents => (h.scan hR hR' _).bind fun children =>
    (h.scan hR hR' _).bind fun referrals =>
      (h.view hR hR' Tx.portable_readHeapSize).bind fun size =>
        (h.scan hR hR' _).bind fun slots => (h.scan hR hR' _).bind fun reserved => ?_
  rw [h.capacity]
  exact .ok _

theorem query (h : Alike R R' f g) (hR : Simulates R) (hR' : Simulates R') (q : Query) :
    SameAnswer (q.run f) (q.run g) := by
  cases q with
  | referral code =>
    have hread := Tx.portable_readAs (Key.OfTree.referral code).sized Referral.ofBytes
    exact (h.view hR hR' hread).map Reply.referral
  | inviter a =>
    have hread := Tx.portable_readAs (Key.OfTree.parent a).sized ParentEntry.ofBytes
    exact (h.view_map hR hR' hread _).map Reply.address
  | parentEntry a =>
    have hread := Tx.portable_readAs (Key.OfTree.parent a).sized ParentEntry.ofBytes
    exact (h.view hR hR' hread).map Reply.address
  | children a =>
    have hread := Tx.portable_readAs (Key.OfTree.children a).sized Children.ofBytes
    exact (h.view_map hR hR' hread _).map Reply.addresses
  | hasCode code =>
    have hread := Tx.portable_read (Key.OfTree.referral code).sized
    exact (h.view_map hR hR' hread _).map Reply.flag
  | isReferred a =>
    have hread := Tx.portable_read (Key.OfTree.parent a).sized
    exact (h.view_map hR hR' hread _).map Reply.flag
  | netValue a =>
    have hread := Tx.portable_readAs (Key.OfCredit.netValue a).sized NetValue.ofBytes
    exact (h.view hR hR' hread).map Reply.netValue
  | netValues => exact (h.netValues hR hR').map Reply.netValues
  | rewardable => exact ((h.netValues hR hR').bind fun _ => .ok _).map Reply.netValues
  | leastKey =>
    have hread := Tx.portable_readAs (Key.sized_slot 0) Ticket.ofBytes
    exact (h.view_map hR hR' hread _).map Reply.key
  | heapSize => exact (h.view hR hR' Tx.portable_readHeapSize).map Reply.size
  | tickets =>
    have hread := fun size => Tx.portable_readTickets size 0 size
    exact (h.view hR hR' (Tx.uses_bind Tx.portable_readHeapSize hread)).map Reply.tickets
  | audit => exact (h.audit hR hR').map Reply.report

theorem command (h : Alike R R' f g) (hR : Simulates R) (hR' : Simulates R') (c : Command) :
    SameAnswer (c.run f).1 (c.run g).1 ∧ Alike R R' (c.run f).2 (c.run g).2 := by
  obtain ⟨m, hf, hg⟩ := h.entries
  have hp := c.portable_program g.maxLevels g.capacity
  obtain ⟨s, hs, hRs⟩ := hR.transact Outcome.commits hf hp
  obtain ⟨s', hs', hRs'⟩ := hR'.transact Outcome.commits hg hp
  rw [Command.run_eq_transact, Command.run_eq_transact, h.maxLevels, h.capacity, Forest.transact,
    Forest.transact, hs, hs']
  exact ⟨⟨rfl, hp.eval_ne_backend m⟩, ⟨_, hRs, hRs'⟩, h.maxLevels, h.capacity⟩

theorem call (h : Alike R R' f g) (hR : Simulates R) (hR' : Simulates R') (c : Call) :
    SameAnswer (c.run f).1 (c.run g).1 ∧ Alike R R' (c.run f).2 (c.run g).2 := by
  cases c with
  | command c => exact (h.command hR hR' c).imp (·.map _) id
  | query q => exact ⟨h.query hR hR' q, h⟩
  | limit levels capacity => exact ⟨.ok _, h.entries, rfl, rfl⟩

theorem replies (h : Alike R R' f g) (hR : Simulates R) (hR' : Simulates R') (calls : List Call) :
    f.replies calls = g.replies calls ∧
      ∀ reply ∈ f.replies calls, ∀ fault, reply.1 ≠ .error (.backend fault) := by
  induction calls generalizing f g with
  | nil => exact ⟨rfl, nofun⟩
  | cons c rest ih =>
    obtain ⟨hanswer, hnext⟩ := h.call hR hR' c
    obtain ⟨m, hf, hg⟩ := hnext.entries
    obtain ⟨hsame, hown⟩ := ih hnext
    refine ⟨?_, fun reply hreply => ?_⟩
    · rw [Forest.replies, Forest.replies, hanswer.eq, hR.entries hf, hR'.entries hg, hsame]
    · rcases List.mem_cons.mp hreply with rfl | hreply
      · exact hanswer.own
      · exact hown reply hreply

end Alike
end Alike

section Memory

theorem MemoryStore.simulates : Simulates fun s m => s = MemoryStore.mk m none := by
  refine ⟨fun h => h ▸ rfl, fun h _ => h ▸ rfl, fun {s m α p} h hp => ?_,
    fun {s m α p} commits h hp => ?_⟩
  · subst h
    have hrun := MemoryTxn.run_of_allows p ⟨⟨m, none⟩, .empty⟩ (MemoryStore.allows_unarmed rfl _)
    rw [MemoryStore.view_start] at hrun
    exact hrun.1
  · subst h
    refine ⟨_, MemoryStore.transact_of_allows _ p commits (MemoryStore.allows_unarmed rfl _), ?_⟩
    rw [MemoryStore.after_unarmed rfl]

end Memory

section Persistent

theorem PersistentStore.entries_setEntries (s : PersistentStore) (m : ByteMap Bytes) :
    (s.setEntries m).entries = m := by
  obtain ⟨d, location⟩ := s
  cases location with
  | scratch entries => rfl
  | directory path name size =>
    have hget : (d.set (path ++ [Disk.dataFile]) (.database size m)).node?
        (path ++ [Disk.dataFile]) = some (.database size m) := Node.get?_set_self _ _ _
    simp only [setEntries, entries, hget]

theorem PersistentTxn.run_eq {α : Type} {p : Tx α} (hp : p.Portable) (t : PersistentTxn) :
    p.run t = ((p.eval t.copy).1, { t with copy := (p.eval t.copy).2 }) := by
  induction p generalizing t with
  | done a => rfl
  | fail e => rfl
  | get k next ih =>
    have hget : Transaction.get t k = .ok (t.copy.get? k) := if_neg hp.1.ne_nil
    rw [Tx.run, hget]
    exact ih (t.copy.get? k) (hp.2 _) t
  | put k v next ih =>
    have hsize : ¬(k = [] ∨ 511 < k.length) := not_or.mpr ⟨hp.1.ne_nil, Nat.not_lt.mpr hp.1.2⟩
    have hput : Transaction.put t k v = (.ok (), { t with copy := t.copy.insert k v }) :=
      if_neg hsize
    rw [Tx.run, hput]
    exact ih hp.2 { t with copy := t.copy.insert k v }
  | delete k next ih =>
    have hdelete : Transaction.delete t k =
        (.ok (t.copy.get? k).isSome, { t with copy := t.copy.erase k }) := if_neg hp.1.ne_nil
    rw [Tx.run, hdelete]
    exact ih _ (hp.2 _) { t with copy := t.copy.erase k }

theorem PersistentStore.simulates : Simulates fun (s : PersistentStore) m => s.entries = m := by
  refine ⟨id, fun {s m first} h hfirst => ?_, fun {s m α p} h hp => ?_,
    fun {s m α p} commits h hp => ?_⟩
  · subst h
    exact if_neg hfirst.ne_nil
  · subst h
    exact congrArg Prod.fst (PersistentTxn.run_eq hp ⟨s, s.entries⟩)
  · subst h
    have hrun := PersistentTxn.run_eq hp ⟨s, s.entries⟩
    have hstart : Engine.start s = PersistentTxn.mk s s.entries := rfl
    rw [Engine.transact, hstart, hrun]
    generalize p.eval s.entries = r
    obtain ⟨answer, m⟩ := r
    cases answer with
    | error e => exact ⟨_, rfl, rfl⟩
    | ok a =>
      refine ⟨_, rfl, ?_⟩
      by_cases hcommits : commits a = true
      · simp only [hcommits, if_true, MemoryStore.publish]
        exact s.entries_setEntries m
      · simp only [hcommits, MemoryStore.publish]
        rfl

end Persistent

section Strict

/-- A store, or a transaction of it, that refuses keys which not every engine takes. -/
structure Strict (S : Type) where
  inner : S

variable {S T : Type} [Transaction T] [Engine S T]

instance : Transaction (Strict T) where
  get t k := if Key.Sized k then Transaction.get t.inner k else .error PersistentStore.keySizeError
  put t k v :=
    if Key.Sized k then ((Transaction.put t.inner k v).1, ⟨(Transaction.put t.inner k v).2⟩)
    else (.error PersistentStore.keySizeError, t)
  delete t k :=
    if Key.Sized k then ((Transaction.delete t.inner k).1, ⟨(Transaction.delete t.inner k).2⟩)
    else (.error PersistentStore.keySizeError, t)

instance : Engine (Strict S) (Strict T) where
  entries s := Engine.entries s.inner
  scan s first :=
    if Key.Sized first then Engine.scan s.inner first else .error PersistentStore.keySizeError
  start s := ⟨Engine.start s.inner⟩
  commit t := ⟨Engine.commit t.inner⟩
  abandon t := ⟨Engine.abandon t.inner⟩

theorem Strict.run_eq {α : Type} {p : Tx α} (hp : p.Portable) (t : T) :
    p.run (Strict.mk t) = ((p.run t).1, ⟨(p.run t).2⟩) := by
  induction p generalizing t with
  | done a => rfl
  | fail e => rfl
  | get k next ih =>
    have hget : Transaction.get (Strict.mk t) k = Transaction.get t k := if_pos hp.1
    rw [Tx.run, Tx.run, hget]
    cases Transaction.get t k with
    | ok v => exact ih v (hp.2 v) t
    | error e => rfl
  | put k v next ih =>
    have hput : Transaction.put (Strict.mk t) k v =
        ((Transaction.put t k v).1, ⟨(Transaction.put t k v).2⟩) := if_pos hp.1
    rw [Tx.run, Tx.run, hput]
    rcases Transaction.put t k v with ⟨answer, t'⟩
    cases answer with
    | ok u => exact ih hp.2 t'
    | error e => rfl
  | delete k next ih =>
    have hdelete : Transaction.delete (Strict.mk t) k =
        ((Transaction.delete t k).1, ⟨(Transaction.delete t k).2⟩) := if_pos hp.1
    rw [Tx.run, Tx.run, hdelete]
    rcases Transaction.delete t k with ⟨answer, t'⟩
    cases answer with
    | ok existed => exact ih existed (hp.2 existed) t'
    | error e => rfl

theorem Strict.transact_eq {α : Type} {p : Tx α} (hp : p.Portable) (s : S) (commits : α → Bool) :
    Engine.transact (Strict.mk s) p commits =
      ((Engine.transact s p commits).1, ⟨(Engine.transact s p commits).2⟩) := by
  have hstart : Engine.start (Strict.mk s) = Strict.mk (Engine.start s) := rfl
  rw [Engine.transact, Engine.transact, hstart, Strict.run_eq hp]
  rcases p.run (Engine.start s) with ⟨answer, t⟩
  cases answer with
  | error e => rfl
  | ok a => by_cases hcommits : commits a = true <;> simp only [hcommits] <;> rfl

theorem Strict.simulates {R : S → ByteMap Bytes → Prop} (hR : Simulates R) :
    Simulates fun (s : Strict S) m => R s.inner m := by
  refine ⟨hR.entries, fun {s m first} h hfirst => ?_, fun {s m α p} h hp => ?_,
    fun {s m α p} commits h hp => ?_⟩
  · exact (if_pos hfirst).trans (hR.scan h hfirst)
  · exact (congrArg Prod.fst (Strict.run_eq hp (Engine.start s.inner))).trans (hR.view h hp)
  · obtain ⟨s', hs', hRs'⟩ := hR.transact commits h hp
    refine ⟨⟨s'⟩, ?_, hRs'⟩
    rw [Strict.transact_eq hp s.inner, hs']

end Strict

/-- On disk every call is answered as in memory, with the same entries after it; none is
answered otherwise when keys outside 1 to 511 bytes are refused, and none of them is. -/
theorem Forest.replies_onDisk (store : PersistentStore) (levels capacity : Nat)
    (calls : List Call) :
    let inMemory : Forest MemoryStore := ⟨{ entries := store.entries }, levels, capacity⟩
    let onDisk : Forest PersistentStore := ⟨store, levels, capacity⟩
    let strict : Forest (Strict PersistentStore) := ⟨⟨store⟩, levels, capacity⟩
    inMemory.replies calls = onDisk.replies calls ∧
      inMemory.replies calls = strict.replies calls ∧
      ∀ reply ∈ inMemory.replies calls, reply.1 ≠ .error PersistentStore.keySizeError := by
  intro inMemory onDisk strict
  have hdisk : Alike (fun s m => s = MemoryStore.mk m none) (fun s m => s.entries = m)
      inMemory onDisk := ⟨⟨store.entries, rfl, rfl⟩, rfl, rfl⟩
  have hstrict : Alike (fun s m => s = MemoryStore.mk m none) (fun s m => s.inner.entries = m)
      inMemory strict := ⟨⟨store.entries, rfl, rfl⟩, rfl, rfl⟩
  obtain ⟨hsame, hown⟩ := hdisk.replies MemoryStore.simulates PersistentStore.simulates calls
  obtain ⟨hsame', -⟩ :=
    hstrict.replies MemoryStore.simulates (Strict.simulates PersistentStore.simulates) calls
  exact ⟨hsame, hsame', fun reply hreply => hown reply hreply _⟩

end ReferralForest
