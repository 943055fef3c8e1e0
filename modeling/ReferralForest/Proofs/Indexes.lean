import ReferralForest.Proofs.WellFormed

/-!
# What the indexes hold

The entries of a map under the keys of referrals, parents and children, decoded. In a
well-formed map the programs read the same, and nothing is kept from them.
-/

namespace ReferralForest

section Decoded
variable {α : Type} (decode : Bytes → Except Malformed α) (m : ByteMap Bytes)

/-- The decoded value of a key; one that does not decode counts as absent. -/
def decodedAt (key : Bytes) : Option α := (m.get? key).bind fun value => (decode value).toOption

theorem decodedAt_insert (k v key : Bytes) :
    decodedAt decode (m.insert k v) key =
      if k = key then (decode v).toOption else decodedAt decode m key := by
  rw [decodedAt, ByteMap.get?_insert]
  split <;> rfl

theorem decodedAt_erase (k key : Bytes) :
    decodedAt decode (m.erase k) key = if k = key then none else decodedAt decode m key := by
  rw [decodedAt, ByteMap.get?_erase]
  split <;> rfl

variable {decode m}

theorem decodedAt_congr {m' : ByteMap Bytes} {key : Bytes} (h : m'.get? key = m.get? key) :
    decodedAt decode m' key = decodedAt decode m key := by
  rw [decodedAt, h, decodedAt]

theorem decodedAt_eq_some {key : Bytes} {a : α} :
    decodedAt decode m key = some a ↔ ∃ value, m.get? key = some value ∧ decode value = .ok a := by
  rw [decodedAt, Option.bind_eq_some_iff]
  constructor <;> rintro ⟨value, hget, hvalue⟩ <;> refine ⟨value, hget, ?_⟩
  · cases hdecode : decode value with
    | ok a' =>
      rw [hdecode] at hvalue
      exact congrArg _ (Option.some.inj hvalue)
    | error cause =>
      rw [hdecode] at hvalue
      cases hvalue
  · rw [hvalue]
    rfl

theorem decodedAt_of_eval {key : Bytes} {a? : Option α}
    (h : (Tx.readAs key decode).eval m = (.ok a?, m)) : decodedAt decode m key = a? := by
  obtain ⟨-, ⟨hnone, rfl⟩ | ⟨value, a, hsome, hdecode, rfl⟩⟩ := Tx.eval_readAs_eq_ok h
  · rw [decodedAt, hnone]
    rfl
  · exact decodedAt_eq_some.mpr ⟨value, hsome, hdecode⟩

end Decoded

def referralAt (m : ByteMap Bytes) (code : CodeHash) : Option Referral :=
  decodedAt Referral.ofBytes m (Key.referral code)

def parentAt (m : ByteMap Bytes) (a : Address) : Option Address :=
  decodedAt ParentEntry.ofBytes m (Key.parent a)

def childrenAt (m : ByteMap Bytes) (p : Address) : List Address :=
  (decodedAt Children.ofBytes m (Key.children p)).getD []

def namedAt (m : ByteMap Bytes) (code : CodeHash) : Address :=
  ((referralAt m code).map Referral.address).getD .root

/-- The same referrals, parents and children under the same keys. -/
def SameTree (m m' : ByteMap Bytes) : Prop :=
  ∀ key, key.head? = some Key.referralTag ∨ key.head? = some Key.parentTag ∨
    key.head? = some Key.childrenTag → m'.get? key = m.get? key

namespace SameTree
variable {m m' m'' : ByteMap Bytes}

theorem refl (m : ByteMap Bytes) : SameTree m m := fun _ _ => rfl

theorem trans (h : SameTree m m') (h' : SameTree m' m'') : SameTree m m'' := fun key hkey =>
  (h' key hkey).trans (h key hkey)

theorem referralAt_eq (h : SameTree m m') (code : CodeHash) :
    referralAt m' code = referralAt m code := decodedAt_congr (h _ (.inl rfl))

theorem parentAt_eq (h : SameTree m m') (a : Address) : parentAt m' a = parentAt m a :=
  decodedAt_congr (h _ (.inr (.inl rfl)))

theorem childrenAt_eq (h : SameTree m m') (p : Address) : childrenAt m' p = childrenAt m p :=
  congrArg (Option.getD · []) (decodedAt_congr (h _ (.inr (.inr rfl))))

theorem namedAt_eq (h : SameTree m m') (code : CodeHash) : namedAt m' code = namedAt m code := by
  rw [namedAt, namedAt, h.referralAt_eq]

theorem of_confined {α : Type} {W : Bytes → Option Bytes → Prop} {p : Tx α} (hp : p.Confined W)
    (hW : ∀ k v, W k v → k.head? ≠ some Key.referralTag ∧ k.head? ≠ some Key.parentTag ∧
      k.head? ≠ some Key.childrenTag) (m : ByteMap Bytes) : SameTree m (p.eval m).2 := by
  intro key hkey
  apply Tx.get?_eval_of_not hp
  intro v hwrite
  obtain ⟨hreferral, hparent, hchildren⟩ := hW key v hwrite
  rcases hkey with hkey | hkey | hkey
  · exact hreferral hkey
  · exact hparent hkey
  · exact hchildren hkey

end SameTree

def Command.isTree : Command → Bool
  | insert _ | remove _ => true
  | credit .. | offer .. | push .. | pop => false

theorem Command.sameTree_eval (f : Forest MemoryStore) {c : Command} (hc : c.isTree = false) :
    SameTree f.store.entries (c.eval f).2 := by
  have hconfined := c.confined_program f.maxLevels f.capacity
  have hnet : ∀ k v, NetValueWrite k v → k.head? ≠ some Key.referralTag ∧
      k.head? ≠ some Key.parentTag ∧ k.head? ≠ some Key.childrenTag := by
    intro k v h
    rw [h.tag]
    decide
  have hlottery : ∀ k v, LotteryWrite k v → k.head? ≠ some Key.referralTag ∧
      k.head? ≠ some Key.parentTag ∧ k.head? ≠ some Key.childrenTag := by
    intro k v h
    rcases h.tag with htag | htag <;> rw [htag] <;> decide
  cases c with
  | insert r => cases hc
  | remove r => cases hc
  | credit kind start change => exact .of_confined hconfined hnet _
  | offer seed address => exact .of_confined hconfined hlottery _
  | push key address => exact .of_confined hconfined hlottery _
  | pop => exact .of_confined hconfined hlottery _

theorem Step.sameTree_run (f : Forest MemoryStore) {s : Step}
    (hs : ∀ c, s = .call c → c.isTree = false) :
    SameTree f.store.entries (s.run f).2.store.entries :=
  entries_run_of_eval (SameTree.refl _) fun c hc => c.sameTree_eval f (hs c hc)

theorem Forest.sameTree_after (f : Forest MemoryStore) {steps : List Step}
    (hsteps : ∀ c, .call c ∈ steps → c.isTree = false) :
    SameTree f.store.entries (f.after steps).store.entries := by
  induction steps generalizing f with
  | nil => exact .refl _
  | cons s rest ih =>
    have hs := s.sameTree_run f fun c hc => hsteps c (hc ▸ List.mem_cons_self)
    exact hs.trans (ih (s.run f).2 fun c hc => hsteps c (List.mem_cons_of_mem s hc))

namespace WellFormed
variable {m : ByteMap Bytes}

theorem eval_referralAt (h : WellFormed m) (code : CodeHash) :
    (Tx.readReferral code).eval m = (.ok (referralAt m code), m) := by
  obtain ⟨r?, hread⟩ := h.eval_readReferral code
  rw [hread, referralAt, decodedAt_of_eval hread]

theorem eval_parentAt (h : WellFormed m) (a : Address) :
    (Tx.readParent a).eval m = (.ok (parentAt m a), m) := by
  obtain ⟨p?, hread⟩ := h.eval_readParent a
  rw [hread, parentAt, decodedAt_of_eval hread]

theorem eval_childrenAt (h : WellFormed m) (p : Address) :
    (Tx.readChildren p).eval m = (.ok (childrenAt m p), m) := by
  obtain ⟨list, hread⟩ := h.eval_readChildren p
  obtain ⟨list?, hentry, rfl⟩ := Tx.eval_bind_pure_eq_ok hread
  rw [hread, childrenAt, decodedAt_of_eval hentry]

theorem eval_inviterOf (h : WellFormed m) (r : Referral) :
    (Tx.inviterOf r).eval m = (.ok (namedAt m r.previous), m) := by
  rw [Tx.inviterOf, Tx.eval_bind_ok (h.eval_referralAt r.previous), namedAt]
  cases referralAt m r.previous <;> rfl

theorem isSome_parent (h : WellFormed m) (a : Address) :
    (m.get? (Key.parent a)).isSome = (parentAt m a).isSome := by
  rcases h.get?_parent a with hnone | ⟨p, hsome⟩
  · rw [hnone, parentAt, decodedAt, hnone]
    rfl
  · rw [hsome, parentAt, decodedAt_eq_some.mpr ⟨_, hsome, ParentEntry.ofBytes_toBytes p⟩]
    rfl

theorem isSome_referral (h : WellFormed m) (code : CodeHash) :
    (m.get? (Key.referral code)).isSome = (referralAt m code).isSome := by
  rcases h.get?_referral code with hnone | ⟨r, -, hsome⟩
  · rw [hnone, referralAt, decodedAt, hnone]
    rfl
  · rw [hsome, referralAt, decodedAt_eq_some.mpr ⟨_, hsome, Referral.ofBytes_toBytes r⟩]
    rfl

end WellFormed

namespace Forest
variable {f : Forest MemoryStore}

theorem referral?_eq (h : WellFormed f.store.entries) (code : CodeHash) :
    f.referral? code = .ok (referralAt f.store.entries code) := by
  have hconfined : (Tx.readReferral code).ReadOnly := Tx.confined_readAs _ _
  rw [referral?, view, Engine.view_readOnly hconfined, h.eval_referralAt]

theorem parentEntry?_eq (h : WellFormed f.store.entries) (a : Address) :
    f.parentEntry? a = .ok (parentAt f.store.entries a) := by
  have hconfined : (Tx.readParent a).ReadOnly := Tx.confined_readAs _ _
  unfold parentEntry?
  rw [view, Engine.view_readOnly hconfined, h.eval_parentAt]

theorem children_eq (h : WellFormed f.store.entries) (p : Address) :
    f.children p = .ok (childrenAt f.store.entries p) := by
  rw [children, view, Engine.view_readOnly (Tx.uses_readChildren p).confined, h.eval_childrenAt]

theorem isReferred_eq (h : WellFormed f.store.entries) (a : Address) :
    f.isReferred a = .ok (parentAt f.store.entries a).isSome := by
  have hconfined : (Tx.read (Key.parent a) >>= fun v => pure v.isSome).ReadOnly := fun _ => trivial
  rw [← h.isSome_parent a, isReferred, view, Engine.view_readOnly hconfined]
  rfl

theorem hasCode_eq (h : WellFormed f.store.entries) (code : CodeHash) :
    f.hasCode code = .ok (referralAt f.store.entries code).isSome := by
  have hconfined : (Tx.read (Key.referral code) >>= fun v => pure v.isSome).ReadOnly :=
    fun _ => trivial
  rw [← h.isSome_referral code, hasCode, view, Engine.view_readOnly hconfined]
  rfl

end Forest
end ReferralForest
