import ReferralForest.Proofs.Databases
import ReferralForest.Store.Script

/-!
# Sessions on disk

A session opens stores under one data directory, one after the other, and runs write
transactions on the one that is open. What an open shows is what was committed last
under its name. Scratch stores, dropped transactions and other names have no part in it.
-/

namespace ReferralForest
open Disk PersistentStore

section Transactions
variable (s : PersistentStore)

def PersistentStore.copyAfter (ops : List Operation) : ByteMap Bytes :=
  (Operation.runAll PersistentStore ops (Engine.start s)).2.copy

theorem PersistentTxn.store_runAll (ops : List Operation) (t : PersistentTxn) :
    (Operation.runAll PersistentStore ops t).2.store = t.store := by
  induction ops generalizing t with
  | nil => rfl
  | cons op ops ih =>
    have hstep : (op.run PersistentStore t).2.store = t.store := by
      cases op with
      | put key value =>
        show (PersistentTxn.put t key value).2.store = t.store
        rw [PersistentTxn.put]
        split <;> rfl
      | delete key =>
        show (PersistentTxn.delete t key).2.store = t.store
        rw [PersistentTxn.delete]
        split <;> rfl
      | get key => rfl
      | holds key => rfl
      | outside key => rfl
    exact (ih (op.run PersistentStore t).2).trans hstep

theorem PersistentStore.script_true (ops : List Operation) :
    (Engine.script s ops true).2 = s.setEntries (s.copyAfter ops) := by
  have hstore := PersistentTxn.store_runAll ops (Engine.start s)
  show (Operation.runAll PersistentStore ops (Engine.start s)).2.store.setEntries _ = _
  rw [hstore]
  rfl

theorem PersistentStore.script_false (ops : List Operation) :
    (Engine.script s ops false).2 = s :=
  PersistentTxn.store_runAll ops (Engine.start s)

end Transactions

structure Session where
  disk : Disk
  /-- The store that is open, and how it was opened. -/
  current : Option (StoreConfig × Location) := none

namespace Session

inductive Action
  | reopen (c : StoreConfig)
  | write (ops : List Operation) (commits : Bool)

/-- A store that cannot be opened leaves none open. -/
def step (directory : String) (room : Nat) (s : Session) : Action → Session
  | .reopen c =>
    match openAt s.disk directory c room with
    | (.ok store, _) => ⟨store.disk, some (c, store.location)⟩
    | (.error _, d) => ⟨d, none⟩
  | .write ops commits =>
    match s.current with
    | some (c, location) =>
      let store := (Engine.script (PersistentStore.mk s.disk location) ops commits).2
      ⟨store.disk, some (c, store.location)⟩
    | none => s

def after (directory : String) (room : Nat) (s : Session) (actions : List Action) : Session :=
  actions.foldl (step directory room) s

def entries? (s : Session) : Option (ByteMap Bytes) :=
  s.current.map fun (_, location) => PersistentStore.entries ⟨s.disk, location⟩

def committed? (directory : String) (room : Nat) (name : String) (s : Session) :
    Action → Option (ByteMap Bytes)
  | .reopen c =>
    match (openAt s.disk directory c room).1 with
    | .ok _ => if c.name = name ∧ !c.memoryOnly ∧ c.wipe then some .empty else none
    | .error _ => none
  | .write ops commits =>
    match s.current with
    | some (c, location) =>
      if c.name = name ∧ !c.memoryOnly ∧ commits then
        some (copyAfter ⟨s.disk, location⟩ ops)
      else none
    | none => none

def committed (directory : String) (room : Nat) (name : String) (s : Session) :
    List Action → List (ByteMap Bytes)
  | [] => []
  | a :: rest =>
    (s.committed? directory room name a).toList ++
      (s.step directory room a).committed directory room name rest

/-- A store that is open is scratch, or the database of its name under the data directory. -/
inductive Current (root : Path) (d : Disk) : Option (StoreConfig × Location) → Prop
  | closed : Current root d none
  | scratch (c : StoreConfig) (entries : ByteMap Bytes) (h : c.memoryOnly = true) :
      Current root d (some (c, .scratch entries))
  | named (c : StoreConfig) (size : Nat) (h : c.memoryOnly = false)
      (hserved : Served d (root ++ [c.name]) size) :
      Current root d (some (c, .directory (root ++ [c.name]) c.name size))

structure Sound (root : Path) (s : Session) (last : String → ByteMap Bytes) : Prop where
  rooted : s.disk.isDirectory [] = true
  stored : ∀ name, s.disk.stored (root ++ [name]) = last name
  current : Current root s.disk s.current

section Reopen
variable {directory : String} {room : Nat} {s : Session} {c : StoreConfig} {d : Disk}

theorem step_reopen_ok {store : PersistentStore}
    (h : openAt s.disk directory c room = (.ok store, d)) :
    s.step directory room (.reopen c) = ⟨store.disk, some (c, store.location)⟩ := by
  rw [step, h]

theorem step_reopen_error {e : EnvironmentError}
    (h : openAt s.disk directory c room = (.error e, d)) :
    s.step directory room (.reopen c) = ⟨d, none⟩ := by
  rw [step, h]

theorem committed?_reopen_ok {store : PersistentStore}
    (h : openAt s.disk directory c room = (.ok store, d)) (name : String) :
    s.committed? directory room name (.reopen c) =
      if c.name = name ∧ !c.memoryOnly ∧ c.wipe then some .empty else none := by
  rw [committed?, h]

theorem committed?_reopen_error {e : EnvironmentError}
    (h : openAt s.disk directory c room = (.error e, d)) (name : String) :
    s.committed? directory room name (.reopen c) = none := by
  rw [committed?, h]

end Reopen

namespace Sound
variable {directory : String} (room : Nat) {s : Session} {last : String → ByteMap Bytes}
  {c : StoreConfig}

theorem keep {root : Path} (h : Sound root s last) {current : Option (StoreConfig × Location)}
    (hcurrent : Current root s.disk current) : Sound root ⟨s.disk, current⟩ last :=
  ⟨h.rooted, h.stored, hcurrent⟩

theorem create {root : Path} {P : Path → Prop} {d : Disk} (h : Sound root s last)
    (hcreates : Creates P s.disk d) {current : Option (StoreConfig × Location)}
    (hcurrent : Current root d current) : Sound root ⟨d, current⟩ last :=
  ⟨hcreates.isDirectory h.rooted, fun name => (hcreates.stored_eq _).trans (h.stored name),
    hcurrent⟩

theorem setData {root : Path} {name : String} {size : Nat}
    (h : Sound root s last) (hserved : Served s.disk (root ++ [name]) size) (m : ByteMap Bytes)
    {current : Option (StoreConfig × Location)}
    (hcurrent :
      Current root (s.disk.set (root ++ [name] ++ [dataFile]) (.database size m)) current) :
    Sound root ⟨s.disk.set (root ++ [name] ++ [dataFile]) (.database size m), current⟩
      fun name' => if name = name' then m else last name' := by
  refine ⟨hserved.isDirectory_set m h.rooted, fun name' => ?_, hcurrent⟩
  rw [hserved.stored_set, h.stored]
  simp [eq_comm]

theorem reopen_scratch (h : Sound (destination directory) s last) (hmemory : c.memoryOnly = true) :
    Sound (destination directory) (s.step directory room (.reopen c))
      fun name => (s.committed? directory room name (.reopen c)).getD (last name) := by
  rcases openAt_scratch s.disk directory room hmemory with hopen | ⟨e, hopen⟩
  · simp only [step_reopen_ok hopen, committed?_reopen_ok hopen, hmemory]
    simpa using h.keep (.scratch c .empty hmemory)
  · simp only [step_reopen_error hopen, committed?_reopen_error hopen]
    exact h.keep .closed

theorem reopen_named (h : Sound (destination directory) s last) (hmemory : c.memoryOnly = false)
    (hname : SingleName c.name) :
    Sound (destination directory) (s.step directory room (.reopen c))
      fun name => (s.committed? directory room name (.reopen c)).getD (last name) := by
  obtain ⟨hmake, -⟩ := makeDirectories_spec (join directory c.name) h.rooted
  have hopens := opens_openAt room h.rooted hname hmemory hmake fun _ => trivial
  generalize hopen : openAt s.disk directory c room = opened at hopens
  cases hopens with
  | fails e hcreates =>
    simp only [step_reopen_error hopen, committed?_reopen_error hopen]
    exact h.create hcreates .closed
  | keeps size hcreates hserved hsize hwipe =>
    simp only [step_reopen_ok hopen, committed?_reopen_ok hopen, hwipe]
    simpa using h.create hcreates (.named c size hmemory hserved)
  | wipes size hcreates hserved hsize hwipe =>
    have hlast : (fun name => (s.committed? directory room name (.reopen c)).getD (last name)) =
        fun name => if c.name = name then .empty else last name := by
      funext name
      rw [committed?_reopen_ok hopen]
      by_cases heq : c.name = name <;> simp [heq, hmemory, hwipe]
    rw [step_reopen_ok hopen, hlast]
    exact (h.create hcreates .closed).setData hserved .empty
      (.named c size hmemory (hserved.set _ hserved))

theorem write (h : Sound (destination directory) s last) (ops : List Operation) (commits : Bool) :
    Sound (destination directory) (s.step directory room (.write ops commits))
      fun name => (s.committed? directory room name (.write ops commits)).getD (last name) := by
  obtain ⟨d, current⟩ := s
  cases commits with
  | false =>
    cases current with
    | none => exact h
    | some opened =>
      simp only [step, committed?, script_false]
      simpa using h
  | true =>
    cases h.current with
    | closed => exact h
    | scratch c entries hmemory =>
      simp only [step, committed?, script_true, setEntries, hmemory]
      simpa using h.keep (.scratch c _ hmemory)
    | named c size hmemory hserved =>
      have hlast : (fun name => ((Session.mk d (some (c, .directory
            (destination directory ++ [c.name]) c.name size))).committed? directory room name
              (.write ops true)).getD (last name)) =
          fun name => if c.name = name then copyAfter ⟨d, .directory (destination directory ++
            [c.name]) c.name size⟩ ops else last name := by
        funext name
        by_cases heq : c.name = name <;> simp [committed?, heq, hmemory]
      rw [hlast]
      simp only [step, script_true, setEntries]
      exact h.setData hserved _ (.named c size hmemory (hserved.set _ hserved))

theorem step (h : Sound (destination directory) s last) {a : Action}
    (ha : ∀ c, a = .reopen c → SingleName c.name) :
    Sound (destination directory) (s.step directory room a)
      fun name => (s.committed? directory room name a).getD (last name) := by
  cases a with
  | reopen c =>
    cases hmemory : c.memoryOnly with
    | true => exact h.reopen_scratch room hmemory
    | false => exact h.reopen_named room hmemory (ha c rfl)
  | write ops commits => exact h.write room ops commits

theorem after (h : Sound (destination directory) s last) {actions : List Action}
    (hnames : ∀ c, .reopen c ∈ actions → SingleName c.name) :
    Sound (destination directory) (s.after directory room actions)
      fun name => (s.committed directory room name actions).getLast?.getD (last name) := by
  induction actions generalizing s last with
  | nil => exact h
  | cons a rest ih =>
    have hstep := h.step room fun c ha => hnames c (ha ▸ List.mem_cons_self)
    have hrest := ih hstep fun c hc => hnames c (List.mem_cons_of_mem a hc)
    have hlast : ∀ name, (s.committed directory room name (a :: rest)).getLast?.getD (last name) =
        ((s.step directory room a).committed directory room name rest).getLast?.getD
          ((s.committed? directory room name a).getD (last name)) := by
      intro name
      rw [committed, List.getLast?_append]
      cases ((s.step directory room a).committed directory room name rest).getLast? with
      | some entries => rfl
      | none => cases s.committed? directory room name a <;> rfl
    simp only [hlast]
    exact hrest

end Sound
end Session
end ReferralForest
