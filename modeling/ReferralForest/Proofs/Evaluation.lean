import ReferralForest.Store.Memory

/-!
# Programs on a plain map

A program means what it does to a map when every step is taken at once. The store
in memory gives that answer as long as its count of writes lasts: reads of a
transaction go to the committed entries with the staged ones over them, and the
number of writes a program makes says whether a failure strikes it. A program that
is struck leaves the committed entries alone, whatever it did before.
-/

namespace ReferralForest

namespace ByteMap
variable {β : Type}

theorem lookup_eq_none {key : Bytes} {l : List (Bytes × β)} (h : ∀ e ∈ l, key < e.1) :
    lookup key l = none := by
  induction l with
  | nil => rfl
  | cons hd tl ih =>
    have hlt : key < hd.1 := h hd List.mem_cons_self
    have hne : hd.1 ≠ key := fun heq => List.lt_irrefl key (heq ▸ hlt)
    rw [lookup, if_neg hne]
    exact ih fun e he => h e (List.mem_cons_of_mem _ he)

theorem get?_apply (m : ByteMap β) (changes : ByteMap (Option β)) (key : Bytes) :
    (m.apply changes).get? key = (changes.get? key).getD (m.get? key) := by
  obtain ⟨l, hl⟩ := changes
  show ((l.foldl _ m).get? key) = (lookup key l).getD (m.get? key)
  induction l generalizing m with
  | nil => rfl
  | cons hd tl ih =>
    obtain ⟨k, staged⟩ := hd
    rw [List.pairwise_cons] at hl
    refine (ih _ hl.2).trans ?_
    by_cases hk : k = key
    · have hnone : lookup key tl = none := lookup_eq_none fun e he => hk ▸ hl.1 e he
      rw [hnone, lookup.eq_def]
      cases staged with
      | some value => simp only [get?_insert, if_pos hk, Option.getD_none, Option.getD_some]
      | none => simp only [get?_erase, if_pos hk, Option.getD_none, Option.getD_some]
    · have hcons : lookup key ((k, staged) :: tl) = lookup key tl := by rw [lookup, if_neg hk]
      rw [hcons]
      cases staged with
      | some value => simp only [get?_insert, if_neg hk]
      | none => simp only [get?_erase, if_neg hk]

end ByteMap

namespace Tx
variable {α β : Type}

def eval : Tx α → ByteMap Bytes → Except StoreError α × ByteMap Bytes
  | done a, m => (.ok a, m)
  | fail e, m => (.error e, m)
  | get k next, m => (next (m.get? k)).eval m
  | put k v next, m => next.eval (m.insert k v)
  | delete k next, m => (next (m.get? k).isSome).eval (m.erase k)

/-- How many keys a program sets or deletes on a map, one counted each time. -/
def writes : Tx α → ByteMap Bytes → Nat
  | done _, _ => 0
  | fail _, _ => 0
  | get k next, m => (next (m.get? k)).writes m
  | put k v next, m => next.writes (m.insert k v) + 1
  | delete k next, m => (next (m.get? k).isSome).writes (m.erase k) + 1

theorem eval_bind (t : Tx α) (f : α → Tx β) (m : ByteMap Bytes) :
    (t >>= f).eval m = match t.eval m with
      | (.ok a, m') => (f a).eval m'
      | (.error e, m') => (.error e, m') := by
  induction t generalizing m with
  | done a => rfl
  | fail e => rfl
  | get k next ih => exact ih _ m
  | put k v next ih => exact ih _
  | delete k next ih => exact ih _ _

theorem eval_bind_ok {t : Tx α} {f : α → Tx β} {m m' : ByteMap Bytes} {a : α}
    (h : t.eval m = (.ok a, m')) : (t >>= f).eval m = (f a).eval m' := by
  rw [eval_bind, h]

theorem writes_bind_ok {t : Tx α} {f : α → Tx β} {m m' : ByteMap Bytes} {a : α}
    (h : t.eval m = (.ok a, m')) : (t >>= f).writes m = t.writes m + (f a).writes m' := by
  induction t generalizing m with
  | done b =>
    cases h
    exact (Nat.zero_add _).symm
  | fail e => cases h
  | get k next ih => exact ih _ h
  | put k v next ih => exact (congrArg (· + 1) (ih h)).trans (Nat.add_right_comm _ _ _)
  | delete k next ih => exact (congrArg (· + 1) (ih _ h)).trans (Nat.add_right_comm _ _ _)

theorem eval_bind_error {t : Tx α} {f : α → Tx β} {m m' : ByteMap Bytes} {e : StoreError}
    (h : t.eval m = (.error e, m')) : (t >>= f).eval m = (.error e, m') := by
  rw [eval_bind, h]

theorem eval_bind_eq_ok {t : Tx α} {f : α → Tx β} {m m' : ByteMap Bytes} {b : β}
    (h : (t >>= f).eval m = (.ok b, m')) :
    ∃ a mid, t.eval m = (.ok a, mid) ∧ (f a).eval mid = (.ok b, m') := by
  rw [eval_bind] at h
  split at h
  · rename_i a mid ht
    exact ⟨a, mid, ht, h⟩
  · cases h

theorem eval_bind_eq_error {t : Tx α} {f : α → Tx β} {m m' : ByteMap Bytes} {e : StoreError}
    (h : (t >>= f).eval m = (.error e, m')) :
    t.eval m = (.error e, m') ∨
      ∃ a mid, t.eval m = (.ok a, mid) ∧ (f a).eval mid = (.error e, m') := by
  rw [eval_bind] at h
  split at h
  · rename_i a mid ht
    exact .inr ⟨a, mid, ht, h⟩
  · rename_i e' mid ht
    cases h
    exact .inl ht

theorem eval_bind_pure_eq_ok {t : Tx α} {g : α → β} {m m' : ByteMap Bytes} {b : β}
    (h : (t >>= fun a => pure (g a)).eval m = (.ok b, m')) :
    ∃ a, t.eval m = (.ok a, m') ∧ g a = b := by
  obtain ⟨a, mid, ht, hg⟩ := eval_bind_eq_ok h
  cases hg
  exact ⟨a, ht, rfl⟩

theorem eval_bind_pure_eq_error {t : Tx α} {g : α → β} {m m' : ByteMap Bytes} {e : StoreError}
    (h : (t >>= fun a => pure (g a)).eval m = (.error e, m')) : t.eval m = (.error e, m') := by
  rcases eval_bind_eq_error h with ht | ⟨a, mid, -, hg⟩
  · exact ht
  · cases hg

@[simp] theorem eval_pure (a : α) (m : ByteMap Bytes) : (pure a : Tx α).eval m = (.ok a, m) := rfl

@[simp] theorem eval_write (k v : Bytes) (m : ByteMap Bytes) :
    (write k v).eval m = (.ok (), m.insert k v) := rfl

theorem eval_readAs_none {k : Bytes} {decode : Bytes → Except Malformed α} {m : ByteMap Bytes}
    (h : m.get? k = none) : (readAs k decode).eval m = (.ok none, m) := by
  rw [readAs, eval, h, eval]

theorem eval_readAs_some {k v : Bytes} {a : α} {decode : Bytes → Except Malformed α}
    {m : ByteMap Bytes} (h : m.get? k = some v) (hv : decode v = .ok a) :
    (readAs k decode).eval m = (.ok (some a), m) := by
  simp only [readAs, eval, h, hv]

theorem eval_readAs_of_decodes {k : Bytes} {decode : Bytes → Except Malformed α} {m : ByteMap Bytes}
    (h : ∀ v, m.get? k = some v → ∃ a, decode v = .ok a) :
    ∃ r, (readAs k decode).eval m = (.ok r, m) := by
  cases hget : m.get? k with
  | none => exact ⟨none, eval_readAs_none hget⟩
  | some v =>
    obtain ⟨a, ha⟩ := h v hget
    exact ⟨some a, eval_readAs_some hget ha⟩

theorem eval_readAs_snd (k : Bytes) (decode : Bytes → Except Malformed α) (m : ByteMap Bytes) :
    ((readAs k decode).eval m).2 = m := by
  rw [readAs, eval]
  split
  · split <;> rfl
  · rfl

theorem eval_readAs_congr {k : Bytes} (decode : Bytes → Except Malformed α) {m m' : ByteMap Bytes}
    (h : m'.get? k = m.get? k) :
    ∃ r, (readAs k decode).eval m = (r, m) ∧ (readAs k decode).eval m' = (r, m') := by
  refine ⟨((readAs k decode).eval m).1, Prod.ext rfl (eval_readAs_snd k decode m), ?_⟩
  refine Prod.ext ?_ (eval_readAs_snd k decode m')
  rw [readAs, eval, eval, h]
  split
  · split <;> rfl
  · rfl

theorem eval_readAs_of_eq {k : Bytes} {decode : Bytes → Except Malformed α} {m m' : ByteMap Bytes}
    {r : Except StoreError (Option α)} (h : m'.get? k = m.get? k)
    (hread : (readAs k decode).eval m = (r, m)) : (readAs k decode).eval m' = (r, m') := by
  obtain ⟨r', hr, hr'⟩ := eval_readAs_congr decode h
  have hsame : r' = r := congrArg Prod.fst (hr.symm.trans hread)
  rw [hr', hsame]

theorem eval_readAs_eq_ok {k : Bytes} {decode : Bytes → Except Malformed α} {m m' : ByteMap Bytes}
    {r : Option α} (h : (readAs k decode).eval m = (.ok r, m')) :
    m' = m ∧ ((m.get? k = none ∧ r = none) ∨
      ∃ v a, m.get? k = some v ∧ decode v = .ok a ∧ r = some a) := by
  have hm := eval_readAs_snd k decode m
  rw [h] at hm
  refine ⟨hm, ?_⟩
  rw [readAs, eval] at h
  split at h
  · rename_i v hv
    split at h
    · rename_i a ha
      cases h
      exact .inr ⟨v, a, hv, ha, rfl⟩
    · cases h
  · rename_i hv
    cases h
    exact .inl ⟨hv, rfl⟩

end Tx

namespace MemoryStore

def Allows (store : MemoryStore) (writes : Nat) : Prop := ∀ n ∈ store.writesLeft, writes ≤ n

def after (store : MemoryStore) (writes : Nat) : MemoryStore :=
  { store with writesLeft := store.writesLeft.map (· - writes) }

theorem after_zero (store : MemoryStore) : store.after 0 = store := by
  obtain ⟨entries, left⟩ := store
  cases left <;> rfl

theorem allows_unarmed {store : MemoryStore} (h : store.writesLeft = none) (writes : Nat) :
    store.Allows writes := by
  intro n hn
  rw [h] at hn
  cases hn

theorem after_unarmed {store : MemoryStore} (h : store.writesLeft = none) (writes : Nat) :
    store.after writes = store := by
  obtain ⟨entries, left⟩ := store
  cases h
  rfl

theorem spend_of_allows {store : MemoryStore} {writes : Nat} (h : store.Allows (writes + 1)) :
    store.spend = (.ok (), store.after 1) ∧ (store.after 1).Allows writes := by
  obtain ⟨entries, left⟩ := store
  match left, h with
  | none, _ => exact ⟨rfl, fun n hn => by cases hn⟩
  | some 0, h => exact absurd (h 0 rfl) (Nat.not_succ_le_zero writes)
  | some (n + 1), h =>
    refine ⟨rfl, fun n' hn' => ?_⟩
    cases hn'
    exact Nat.le_of_succ_le_succ (h (n + 1) rfl)

theorem allows_add {store : MemoryStore} {first second : Nat} :
    store.Allows (first + second) ↔ store.Allows first ∧ (store.after first).Allows second := by
  obtain ⟨entries, left⟩ := store
  cases left with
  | none => simp [Allows, after]
  | some n =>
    simp only [Allows, after, Option.map_some, Option.mem_some_iff, forall_eq']
    omega

theorem after_after (store : MemoryStore) (first second : Nat) :
    (store.after first).after second = store.after (second + first) := by
  obtain ⟨entries, left⟩ := store
  cases left with
  | none => rfl
  | some n =>
    simp only [after, Option.map_some, MemoryStore.mk.injEq, Option.some.injEq, true_and]
    omega

end MemoryStore

namespace MemoryTxn

def view (t : MemoryTxn) : ByteMap Bytes := t.store.entries.apply t.staged

theorem get?_view (t : MemoryTxn) (key : Bytes) : t.view.get? key = t.get key := by
  rw [view, ByteMap.get?_apply, get]
  cases t.staged.get? key <;> rfl

theorem view_stage_some (t : MemoryTxn) (store : MemoryStore)
    (hstore : store.entries = t.store.entries) (key value : Bytes) :
    (stage { t with store } key (some value)).view = t.view.insert key value := by
  apply ByteMap.ext_get?
  intro k
  simp only [view, stage, hstore, ByteMap.get?_apply, ByteMap.get?_insert]
  split <;> rfl

theorem view_stage_none (t : MemoryTxn) (store : MemoryStore)
    (hstore : store.entries = t.store.entries) (key : Bytes) :
    (stage { t with store } key none).view = t.view.erase key := by
  apply ByteMap.ext_get?
  intro k
  simp only [view, stage, hstore, ByteMap.get?_apply, ByteMap.get?_insert, ByteMap.get?_erase]
  split <;> rfl

theorem commit_eq (t : MemoryTxn) : t.commit = { t.store with entries := t.view } := rfl

theorem put_of_allows {t : MemoryTxn} {writes : Nat} (h : t.store.Allows (writes + 1))
    (key value : Bytes) :
    t.put key value = (.ok (), stage { t with store := t.store.after 1 } key (some value)) := by
  rw [put, (MemoryStore.spend_of_allows h).1]

theorem delete_of_allows {t : MemoryTxn} {writes : Nat} (h : t.store.Allows (writes + 1))
    (key : Bytes) :
    t.delete key =
      (.ok (t.get key).isSome, stage { t with store := t.store.after 1 } key none) := by
  rw [delete, (MemoryStore.spend_of_allows h).1]

section Run
variable {α : Type}

theorem run_get (key : Bytes) (next : Option Bytes → Tx α) (t : MemoryTxn) :
    (Tx.get key next).run t = (next (t.get key)).run t := rfl

theorem run_put_ok {key value : Bytes} {next : Tx α} {t t' : MemoryTxn}
    (h : t.put key value = (.ok (), t')) : (Tx.put key value next).run t = next.run t' := by
  have hstep : Transaction.put t key value = _ := h
  rw [Tx.run, hstep]

theorem run_put_error {key value : Bytes} {next : Tx α} {t t' : MemoryTxn} {e : StoreError}
    (h : t.put key value = (.error e, t')) : (Tx.put key value next).run t = (.error e, t') := by
  have hstep : Transaction.put t key value = _ := h
  rw [Tx.run, hstep]

theorem run_delete_ok {key : Bytes} {next : Bool → Tx α} {t t' : MemoryTxn} {existed : Bool}
    (h : t.delete key = (.ok existed, t')) :
    (Tx.delete key next).run t = (next existed).run t' := by
  have hstep : Transaction.delete t key = _ := h
  rw [Tx.run, hstep]

theorem run_delete_error {key : Bytes} {next : Bool → Tx α} {t t' : MemoryTxn} {e : StoreError}
    (h : t.delete key = (.error e, t')) : (Tx.delete key next).run t = (.error e, t') := by
  have hstep : Transaction.delete t key = _ := h
  rw [Tx.run, hstep]

theorem run_of_allows (p : Tx α) (t : MemoryTxn) (h : t.store.Allows (p.writes t.view)) :
    (p.run t).1 = (p.eval t.view).1 ∧ (p.run t).2.view = (p.eval t.view).2 ∧
      (p.run t).2.store = t.store.after (p.writes t.view) := by
  induction p generalizing t with
  | done a => exact ⟨rfl, rfl, t.store.after_zero.symm⟩
  | fail e => exact ⟨rfl, rfl, t.store.after_zero.symm⟩
  | get k next ih =>
    simp only [Tx.writes, Tx.eval, get?_view] at h ⊢
    rw [run_get]
    exact ih (t.get k) t h
  | put k v next ih =>
    have hview : (stage { t with store := t.store.after 1 } k (some v)).view = t.view.insert k v :=
      view_stage_some t (t.store.after 1) rfl k v
    have hnext := (MemoryStore.spend_of_allows h).2
    obtain ⟨hanswer, hmap, hstore⟩ :=
      ih (stage { t with store := t.store.after 1 } k (some v)) (hview ▸ hnext)
    rw [run_put_ok (put_of_allows h k v)]
    rw [hview] at hanswer hmap hstore
    exact ⟨hanswer, hmap, hstore.trans (t.store.after_after 1 _)⟩
  | delete k next ih =>
    have hview : (stage { t with store := t.store.after 1 } k none).view = t.view.erase k :=
      view_stage_none t (t.store.after 1) rfl k
    have hnext := (MemoryStore.spend_of_allows h).2
    obtain ⟨hanswer, hmap, hstore⟩ := ih (t.view.get? k).isSome
      (stage { t with store := t.store.after 1 } k none) (hview ▸ hnext)
    rw [run_delete_ok (delete_of_allows h k), ← get?_view]
    rw [hview] at hanswer hmap hstore
    exact ⟨hanswer, hmap, hstore.trans (t.store.after_after 1 _)⟩

theorem run_of_exceeds (p : Tx α) (t : MemoryTxn) {n : Nat} (hleft : t.store.writesLeft = some n)
    (h : n < p.writes t.view) :
    (p.run t).1 = .error (.backend .injected) ∧ (p.run t).2.store = t.store.clearFailure := by
  induction p generalizing t n with
  | done a => exact absurd h n.not_lt_zero
  | fail e => exact absurd h n.not_lt_zero
  | get k next ih =>
    simp only [Tx.writes, get?_view] at h
    rw [run_get]
    exact ih (t.get k) t hleft h
  | put k v next ih =>
    cases n with
    | zero =>
      have hput : t.put k v =
          (.error (.backend .injected), { t with store := t.store.clearFailure }) := by
        rw [put, MemoryStore.spend, hleft]
      rw [run_put_error hput]
      exact ⟨rfl, rfl⟩
    | succ n =>
      have hput :
          t.put k v = (.ok (), stage { t with store := t.store.failAfter n } k (some v)) := by
        rw [put, MemoryStore.spend, hleft]
      rw [run_put_ok hput]
      refine ih _ rfl ?_
      rw [view_stage_some t (t.store.failAfter n) rfl]
      exact Nat.lt_of_succ_lt_succ h
  | delete k next ih =>
    cases n with
    | zero =>
      have hdelete : t.delete k =
          (.error (.backend .injected), { t with store := t.store.clearFailure }) := by
        rw [delete, MemoryStore.spend, hleft]
      rw [run_delete_error hdelete]
      exact ⟨rfl, rfl⟩
    | succ n =>
      have hdelete : t.delete k =
          (.ok (t.get k).isSome, stage { t with store := t.store.failAfter n } k none) := by
        rw [delete, MemoryStore.spend, hleft]
      rw [run_delete_ok hdelete, ← get?_view]
      refine ih _ _ rfl ?_
      rw [view_stage_none t (t.store.failAfter n) rfl]
      exact Nat.lt_of_succ_lt_succ h

end Run
end MemoryTxn

namespace MemoryStore
variable {α : Type}

def publish (commits : α → Bool) (before : ByteMap Bytes) :
    Except StoreError α × ByteMap Bytes → ByteMap Bytes
  | (.ok a, m) => if commits a then m else before
  | (.error _, _) => before

theorem view_start (store : MemoryStore) : (MemoryTxn.mk store .empty).view = store.entries := by
  apply ByteMap.ext_get?
  intro key
  rw [MemoryTxn.view, ByteMap.get?_apply]
  rfl

theorem transact_eq (store : MemoryStore) (p : Tx α) (commits : α → Bool) :
    Engine.transact store p commits = match p.run (MemoryTxn.mk store .empty) with
      | (.ok a, t) => (.ok a, if commits a then t.commit else t.store)
      | (.error e, t) => (.error e, t.store) := by
  have hstart : Engine.start store = MemoryTxn.mk store .empty := rfl
  rw [Engine.transact, hstart]
  cases p.run (MemoryTxn.mk store .empty) with
  | mk answer t => cases answer <;> rfl

/-- Within the count a transaction answers and publishes what its program does to the entries. -/
theorem transact_of_allows (store : MemoryStore) (p : Tx α) (commits : α → Bool)
    (h : store.Allows (p.writes store.entries)) :
    Engine.transact store p commits = ((p.eval store.entries).1,
      { store.after (p.writes store.entries) with
        entries := publish commits store.entries (p.eval store.entries) }) := by
  have hrun := MemoryTxn.run_of_allows p ⟨store, .empty⟩
  rw [view_start] at hrun
  obtain ⟨hanswer, hmap, hstore⟩ := hrun h
  rw [transact_eq]
  generalize p.run (MemoryTxn.mk store .empty) = r at hanswer hmap hstore
  generalize p.eval store.entries = r' at hanswer hmap
  obtain ⟨answer, t⟩ := r
  obtain ⟨answer', m⟩ := r'
  simp only at hanswer hmap hstore
  subst hanswer hmap
  cases answer with
  | error e => simp only [hstore, publish, after]
  | ok a =>
    simp only [MemoryTxn.commit_eq, hstore, publish]
    split <;> rfl

/-- A transaction that runs out of writes leaves the entries and loses the failure. -/
theorem transact_of_exceeds (store : MemoryStore) (p : Tx α) (commits : α → Bool) {n : Nat}
    (hleft : store.writesLeft = some n) (h : n < p.writes store.entries) :
    Engine.transact store p commits = (.error (.backend .injected), store.clearFailure) := by
  have hrun := MemoryTxn.run_of_exceeds p ⟨store, .empty⟩ hleft
  rw [view_start] at hrun
  obtain ⟨hanswer, hstore⟩ := hrun h
  rw [transact_eq]
  generalize p.run (MemoryTxn.mk store .empty) = r at hanswer hstore
  obtain ⟨answer, t⟩ := r
  simp only at hanswer hstore
  rw [hanswer, ← hstore]

theorem allows_or_exceeds (store : MemoryStore) (writes : Nat) :
    store.Allows writes ∨ ∃ n, store.writesLeft = some n ∧ n < writes := by
  cases hleft : store.writesLeft with
  | none => exact .inl (allows_unarmed hleft writes)
  | some n =>
    by_cases h : writes ≤ n
    · exact .inl fun k hk => (Option.some.inj (hleft.symm.trans hk)) ▸ h
    · exact .inr ⟨n, rfl, Nat.lt_of_not_le h⟩

theorem transact_eq_ok {store : MemoryStore} {p : Tx α} {commits : α → Bool} {a : α}
    (h : (Engine.transact store p commits).1 = .ok a) :
    ∃ m, p.eval store.entries = (.ok a, m) ∧
      (Engine.transact store p commits).2.entries = if commits a then m else store.entries := by
  rcases store.allows_or_exceeds (p.writes store.entries) with hw | ⟨n, hleft, hw⟩
  · rw [transact_of_allows store p commits hw] at h ⊢
    refine ⟨(p.eval store.entries).2, Prod.ext h rfl, ?_⟩
    generalize p.eval store.entries = r at h
    obtain ⟨answer, m⟩ := r
    cases h
    rfl
  · rw [transact_of_exceeds store p commits hleft hw] at h
    cases h

theorem transact_eq_error {store : MemoryStore} {p : Tx α} {commits : α → Bool} {e : StoreError}
    (h : (Engine.transact store p commits).1 = .error e) :
    (Engine.transact store p commits).2.entries = store.entries := by
  rcases store.allows_or_exceeds (p.writes store.entries) with hw | ⟨n, hleft, hw⟩
  · rw [transact_of_allows store p commits hw] at h ⊢
    generalize p.eval store.entries = r at h
    obtain ⟨answer, m⟩ := r
    cases h
    rfl
  · rw [transact_of_exceeds store p commits hleft hw]
    rfl

end MemoryStore
end ReferralForest
