import ReferralForest.Proofs.AuditReport
import ReferralForest.Proofs.HeapInvariant
import ReferralForest.Proofs.Withdrawals

/-!
# Runs that stay healthy

Parents and lists of children agree when each parent lists its child and each listed
child has that parent. An invitation keeps this up unless its address has another parent
already, which goes on listing it. A withdrawal keeps it up unless the parent that it
finds is not the one that lists the address, or another referral is left without a parent.
The heap needs no such care, so a run of calls that fit passes the audit.
-/

namespace ReferralForest

/-- Parents and lists of children that agree, in lists of a bounded length. -/
structure Agrees (m : ByteMap Bytes) (count : Nat) : Prop where
  wellFormed : WellFormed m
  listed : ∀ a p, parentAt m a = some p → a ∈ childrenAt m p
  matched : ∀ a p, a ∈ childrenAt m p → parentAt m a = some p
  housed : ∀ code r, referralAt m code = some r → (parentAt m r.address).isSome
  short : ∀ p, (childrenAt m p).length ≤ count

namespace Agrees
variable {m m' : ByteMap Bytes} {count : Nat} {r : Referral}

theorem empty : Agrees .empty 0 := by
  refine ⟨wellFormed_empty, fun _ _ h => ?_, fun _ _ h => ?_, fun _ _ h => ?_,
    fun _ => Nat.le_refl 0⟩ <;> cases h

theorem congr (h : Agrees m count) (hm' : WellFormed m') (hsame : SameTree m m') :
    Agrees m' count := by
  refine ⟨hm', fun a p => ?_, fun a p => ?_, fun code r => ?_, fun p => ?_⟩
  · rw [hsame.parentAt_eq, hsame.childrenAt_eq]
    exact h.listed a p
  · rw [hsame.parentAt_eq, hsame.childrenAt_eq]
    exact h.matched a p
  · rw [hsame.referralAt_eq, hsame.parentAt_eq]
    exact h.housed code r
  · rw [hsame.childrenAt_eq]
    exact h.short p

theorem mono {count' : Nat} (h : Agrees m count) (hle : count ≤ count') : Agrees m count' :=
  { h with short := fun p => Nat.le_trans (h.short p) hle }

theorem invite (h : Agrees m count) (hcount : count + 1 < UInt64.size)
    (hfits : ∀ p, parentAt m r.address = some p → p = joinedUnder m r) :
    ∃ m', (Tx.invite r).eval m = (.ok (), m') ∧ Agrees m' (count + 1) := by
  have heval := eval_invite_eq h.wellFormed r
  refine ⟨_, heval, ?_⟩
  generalize joinedUnder m r = parent at hfits ⊢
  have hlen : (childrenAt m parent ++ [r.address]).length ≤ count + 1 := by
    simpa using h.short parent
  have hchildren : ∀ p, childrenAt (invited m r parent (childrenAt m parent ++ [r.address])) p =
      if parent = p then childrenAt m parent ++ [r.address] else childrenAt m p :=
    childrenAt_invited m (Nat.lt_of_le_of_lt hlen hcount)
  refine ⟨h.wellFormed.invited, fun a p hp => ?_, fun a p ha => ?_,
    fun code s hs => ?_, fun p => ?_⟩
  · rw [parentAt_invited] at hp
    rw [hchildren]
    by_cases hself : r.address = a
    · rw [if_pos hself] at hp
      cases hp
      rw [if_pos rfl, hself]
      simp
    · rw [if_neg hself] at hp
      have hold := h.listed a p hp
      split
      · rename_i heq
        exact List.mem_append_left _ (heq ▸ hold)
      · exact hold
  · rw [hchildren] at ha
    rw [parentAt_invited]
    by_cases hself : r.address = a
    · rw [if_pos hself]
      split at ha
      · rename_i heq
        rw [heq]
      · -- a list that had the address before is that of the parent found now
        rw [hfits p (hself ▸ h.matched a p ha)]
    · rw [if_neg hself]
      split at ha
      · rename_i heq
        rw [heq] at ha
        refine h.matched a p ((List.mem_append.mp ha).resolve_right fun hlast => ?_)
        exact hself (List.mem_singleton.mp hlast).symm
      · exact h.matched a p ha
  · rw [referralAt_invited] at hs
    rw [parentAt_invited]
    split at hs
    · cases hs
      rw [if_pos rfl]
      rfl
    · split
      · rfl
      · exact h.housed code s hs
  · rw [hchildren]
    split
    · exact hlen
    · exact Nat.le_succ_of_le (h.short p)

theorem withdraw (h : Agrees m count) (hcount : count < UInt64.size)
    (hfits : ∀ p, parentAt m r.address = some p → p = leftUnder m r ∧
      ∀ code s, referralAt m code = some s → s.address = r.address → code = r.code) :
    ∃ m', (Tx.withdraw r).eval m = (.ok (), m') ∧ Agrees m' count := by
  have heval := eval_withdraw h.wellFormed r
  refine ⟨_, heval, ?_⟩
  generalize leftUnder m r = parent at hfits ⊢
  have hlen : ((childrenAt m parent).filter (· ≠ r.address)).length ≤ count :=
    Nat.le_trans (List.length_filter_le _ _) (h.short parent)
  have hchildren : ∀ p, childrenAt (withdrawn m r parent
      ((childrenAt m parent).filter (· ≠ r.address))) p =
      if parent = p then (childrenAt m parent).filter (· ≠ r.address) else childrenAt m p :=
    childrenAt_withdrawn m (Nat.lt_of_le_of_lt hlen hcount)
  refine ⟨h.wellFormed.withdrawn, fun a p hp => ?_, fun a p ha => ?_,
    fun code s hs => ?_, fun p => ?_⟩
  · rw [parentAt_withdrawn] at hp
    rw [hchildren]
    split at hp
    · cases hp
    · rename_i hother
      have hold := h.listed a p hp
      split
      · rename_i heq
        rw [heq]
        exact List.mem_filter.mpr ⟨hold, by simpa using Ne.symm hother⟩
      · exact hold
  · rw [hchildren] at ha
    rw [parentAt_withdrawn]
    split at ha
    · rename_i heq
      obtain ⟨hold, hother⟩ := List.mem_filter.mp ha
      rw [if_neg (Ne.symm (of_decide_eq_true hother)), ← heq]
      exact h.matched a parent hold
    · rename_i hne
      have hp := h.matched a p ha
      rw [if_neg]
      · exact hp
      · -- the address is in the list of the parent found and in no other
        rintro rfl
        exact hne (hfits p hp).1.symm
  · rw [referralAt_withdrawn] at hs
    rw [parentAt_withdrawn]
    split at hs
    · cases hs
    · rename_i hcode
      obtain ⟨p, hp⟩ := Option.isSome_iff_exists.mp (h.housed code s hs)
      rw [if_neg, hp]
      · rfl
      · intro haddress
        rw [← haddress] at hp
        exact hcode ((hfits p hp).2 code s hs haddress.symm).symm
  · rw [hchildren]
    split
    · exact hlen
    · exact h.short p

theorem treeFits (h : Agrees m count) : TreeFits m := by
  refine ⟨fun key value hkey hget => ?_, fun key value hkey hget => ?_, h.listed, h.matched,
    fun key value hkey hget => ?_⟩
  all_goals
    have hwrite := (h.wellFormed.tree key (by simp [hkey])).resolve_left (by simp [hget])
    rw [hget] at hwrite
  · cases hwrite with
    | parent a p => exact ⟨a, p, rfl, ParentEntry.ofBytes_toBytes p⟩
    | referral | children => cases hkey
  · cases hwrite with
    | children p list =>
      obtain ⟨shown, hread, -⟩ := Children.ofBytes_append list []
      rw [List.append_nil] at hread
      exact ⟨p, shown, rfl, hread⟩
    | referral | parent => cases hkey
  · cases hwrite with
    | referral r =>
      have hread := Referral.ofBytes_toBytes r
      exact ⟨r, hread, h.housed r.code r (decodedAt_eq_some.mpr ⟨_, hget, hread⟩)⟩
    | parent | children => cases hkey

end Agrees

theorem Heap.Stored.heapFits {m : ByteMap Bytes} {l : List Ticket} (h : Heap.Stored m l)
    {capacity : Nat} (hle : l.length ≤ capacity) : HeapFits m l.length capacity := by
  have hticket : ∀ i (hi : i < l.length), ticketAt m i = some l[i] := fun i hi =>
    decodedAt_eq_some.mpr (h.holds i l[i] (List.getElem?_eq_getElem hi))
  refine ⟨hle, fun key value hkey hget => ?_, fun i hi => ?_,
    fun i parent child hpos hi hp hc => ?_⟩
  · obtain ⟨i, hi, rfl⟩ := h.slots key hkey (by simp [hget])
    obtain ⟨value', hget', hread⟩ := h.holds i l[i] (List.getElem?_eq_getElem hi)
    cases hget'.symm.trans hget
    exact ⟨i, hi, rfl, l[i], hread⟩
  · rw [hticket i hi]
    rfl
  · rw [hticket _ (by omega)] at hp
    rw [hticket i hi] at hc
    refine h.ordered i parent child hpos ?_ ?_
    · rw [List.getElem?_eq_getElem (by omega), hp]
    · rw [List.getElem?_eq_getElem hi, hc]

theorem WellFormed.reserved {m : ByteMap Bytes} (h : WellFormed m) (key : Bytes)
    (hkey : key.head? = some Key.reservedTag) : m.get? key = none := by
  refine (h key).resolve_right fun hwritten => ?_
  rcases hwritten with htree | hnet | hlottery
  · rcases htree.tag with htag | htag | htag <;> rw [hkey] at htag <;> exact absurd htag (by decide)
  · have htag := hnet.tag
    rw [hkey] at htag
    exact absurd htag (by decide)
  · rcases hlottery.tag with htag | htag <;> rw [hkey] at htag <;> exact absurd htag (by decide)

/-- What a call must find for parents and lists of children to agree afterwards: for an
invitation no parent of the address or the one that it gives again, for a withdrawal no
parent or the one that it takes away, and nobody else's. -/
def Command.Fits (f : Forest MemoryStore) : Command → Prop
  | insert r => ∀ p ∈ parentAt f.store.entries r.address, p = joinedUnder f.store.entries r
  | remove r => ∀ p ∈ parentAt f.store.entries r.address, p = leftUnder f.store.entries r ∧
      ∀ code, ∀ s ∈ referralAt f.store.entries code, s.address = r.address → code = r.code
  | credit .. | offer .. | push .. | pop => True

def Step.Fits (f : Forest MemoryStore) : Step → Prop
  | call c => c.Fits f
  | failAfter _ | clearFailure | limit .. => True

section Decidable

theorem forall_referralAt {m : ByteMap Bytes} {P : Bytes → Referral → Prop} :
    (∀ code, ∀ s ∈ referralAt m code, P (Key.referral code) s) ↔
      ∀ e ∈ m.toList, e.1.head? = some Key.referralTag → e.1.length = 33 →
        ∀ s ∈ (Referral.ofBytes e.2).toOption, P e.1 s := by
  constructor
  · rintro h ⟨key, value⟩ he hkey hlen s hs
    obtain ⟨suffix, rfl⟩ : ∃ suffix, key = Key.referralTag :: suffix := by
      cases key with
      | nil => cases hkey
      | cons tag suffix => exact ⟨suffix, by cases hkey; rfl⟩
    refine h ⟨suffix, by simpa using hlen⟩ s ?_
    rw [Option.mem_def, referralAt, decodedAt, Option.bind_eq_some_iff]
    exact ⟨value, ByteMap.mem_toList.mp he, hs⟩
  · intro h code s hs
    rw [Option.mem_def, referralAt, decodedAt, Option.bind_eq_some_iff] at hs
    obtain ⟨value, hget, hvalue⟩ := hs
    exact h (Key.referral code, value) (ByteMap.mem_toList.mpr hget) rfl
      (congrArg Nat.succ code.length_eq) s hvalue

instance (f : Forest MemoryStore) : (c : Command) → Decidable (c.Fits f)
  | .insert r => inferInstanceAs (Decidable (∀ p ∈ parentAt f.store.entries r.address, _ = _))
  | .remove r =>
    have : Decidable (∀ code, ∀ s ∈ referralAt f.store.entries code,
        s.address = r.address → code = r.code) :=
      decidable_of_iff _ ((forall_referralAt (m := f.store.entries) (P := fun key s =>
        s.address = r.address → key = Key.referral r.code)).symm.trans
          (by simp only [Key.Subject.key_inj, Key.Subject.referral.injEq]))
    inferInstanceAs (Decidable (∀ p ∈ parentAt f.store.entries r.address, _ = _ ∧ _))
  | .credit .. | .offer .. | .push .. | .pop => .isTrue trivial

instance (f : Forest MemoryStore) : (s : Step) → Decidable (s.Fits f)
  | .call c => inferInstanceAs (Decidable (c.Fits f))
  | .failAfter _ | .clearFailure | .limit .. => .isTrue trivial

end Decidable

namespace Agrees
variable {f : Forest MemoryStore} {count : Nat}

theorem eval (h : Agrees f.store.entries count) {c : Command}
    (hcount : count + (Step.call c).isInsert.toNat < UInt64.size) (hfits : c.Fits f) {a : Outcome}
    {m : ByteMap Bytes} (heval : c.eval f = (.ok a, m)) :
    Agrees m (count + (Step.call c).isInsert.toNat) := by
  have happart : c.isTree = false → Agrees m count := by
    intro hc
    have hsame := c.sameTree_eval f hc
    have hm := c.wellFormed_eval h.wellFormed
    rw [heval] at hsame hm
    exact h.congr hm hsame
  cases c with
  | insert r =>
    obtain ⟨m', hinvite, hagrees⟩ := h.invite hcount hfits
    obtain ⟨u, hprogram, -⟩ := Tx.eval_bind_pure_eq_ok heval
    cases hinvite.symm.trans hprogram
    exact hagrees
  | remove r =>
    obtain ⟨m', hwithdraw, hagrees⟩ := h.withdraw hcount hfits
    obtain ⟨u, hprogram, -⟩ := Tx.eval_bind_pure_eq_ok heval
    cases hwithdraw.symm.trans hprogram
    exact hagrees
  | credit kind start change => exact happart rfl
  | offer seed address => exact happart rfl
  | push key address => exact happart rfl
  | pop => exact happart rfl

theorem run (h : Agrees f.store.entries count) {s : Step}
    (hcount : count + s.isInsert.toNat < UInt64.size) (hfits : s.Fits f) :
    Agrees (s.run f).2.store.entries (count + s.isInsert.toNat) := by
  rcases s.entries_run f with hsame | ⟨c, a, rfl, heval, -⟩
  · rw [hsame]
    exact h.mono (Nat.le_add_right _ _)
  · exact h.eval hcount hfits heval

theorem after (h : Agrees f.store.entries count) {steps : List Step}
    (hcount : count + Step.inserts steps < UInt64.size)
    (hfits : ∀ e ∈ f.history steps, e.step.Fits e.before) :
    Agrees (f.after steps).store.entries (count + Step.inserts steps) := by
  induction steps generalizing f count with
  | nil => exact h
  | cons s rest ih =>
    rw [Step.inserts_cons, ← Nat.add_assoc] at hcount ⊢
    obtain ⟨hs, hrest⟩ := List.forall_mem_cons.mp hfits
    exact ih (h.run (Nat.lt_of_add_right_lt hcount) hs) hcount hrest

end Agrees

namespace Forest

/-- Under one capacity every run of calls that fit passes the audit, for as many invitations
as the count of a stored list can tell apart. -/
theorem isHealthy_after (capacity : UInt64) (steps : List Step)
    (hcount : Step.inserts steps < UInt64.size)
    (hfixed : ∀ levels capacity', .limit levels capacity' ∈ steps → capacity' = capacity) :
    let start : Forest MemoryStore := { initial with capacity := capacity.toNat }
    (∀ e ∈ start.history steps, e.step.Fits e.before) →
      ∃ report, (start.after steps).audit = .ok report ∧ report.isHealthy = true := by
  intro start hfits
  have hstart : Agrees start.store.entries 0 := Agrees.empty
  have hagrees := hstart.after (by simpa using hcount) hfits
  have hword : start.capacity < UInt64.size := capacity.toNat_lt
  have hsame : ∀ levels capacity', Step.limit levels capacity' ∈ steps →
      capacity'.toNat = start.capacity := fun levels capacity' hmem =>
    congrArg UInt64.toNat (hfixed levels capacity' hmem)
  have hempty : Heap.Stored start.store.entries [] := Heap.stored_empty
  obtain ⟨l, hstored, -⟩ := stored_after hempty hword steps
  obtain ⟨size, hsize, hle⟩ := heapSize_after_of_fixed hempty hword (Nat.zero_le _) steps hsame
  rw [heapSize_of_stored hstored] at hsize
  cases hsize
  obtain ⟨report, haudit, hhealthy⟩ := audit_of_heapSize (heapSize_of_stored hstored)
  rw [capacity_after_of_fixed hsame] at hhealthy
  exact ⟨report, haudit,
    hhealthy.mpr ⟨hagrees.treeFits, hstored.heapFits hle, hagrees.wellFormed.reserved⟩⟩

def joinedTwice : List Step :=
  let second : Referral := ⟨.filled 2, .filled 2, .filled 1, .wallet⟩
  [.call (.insert ⟨.filled 1, .filled 1, FixedBytes.zero 32, .wallet⟩), .call (.insert second),
    .call (.insert second), .call (.credit .wallet second.address 5),
    .call (.offer (.filled 7) second.address), .call (.remove second)]

theorem isHealthy_after_joinedTwice :
    let start : Forest MemoryStore := { initial with capacity := (1 : UInt64).toNat }
    Step.inserts joinedTwice < UInt64.size ∧
      (∀ levels capacity', .limit levels capacity' ∈ joinedTwice → capacity' = 1) ∧
      (∀ e ∈ start.history joinedTwice, e.step.Fits e.before) ∧
      ∃ report, (start.after joinedTwice).audit = .ok report ∧ report.isHealthy = true := by
  intro start
  have hcount : Step.inserts joinedTwice < UInt64.size := by decide
  have hfixed : ∀ levels capacity', .limit levels capacity' ∈ joinedTwice → capacity' = 1 := by
    simp [joinedTwice]
  have hfits : ∀ e ∈ start.history joinedTwice, e.step.Fits e.before := by decide +kernel
  exact ⟨hcount, hfixed, hfits, isHealthy_after 1 joinedTwice hcount hfixed hfits⟩

def sharedAddress : List Step :=
  let third : Referral := ⟨.filled 3, .filled 3, .filled 1, .wallet⟩
  [.call (.insert ⟨.filled 1, .filled 1, FixedBytes.zero 32, .wallet⟩), .call (.insert third),
    .call (.insert { third with code := .filled 4 }), .call (.remove third)]

theorem audit_after_sharedAddress :
    ∃ report, (initial.after sharedAddress).audit = .ok report ∧ report.isHealthy = false ∧
      report.findings = [.missingParent (.filled 4) (.filled 3)] :=
  ⟨_, rfl, rfl, rfl⟩

end Forest
end ReferralForest
