import ReferralForest.Proofs.Sessions

/-!
# What opening a store again shows

Whatever a session did before under an empty data directory, a store that is opened shows
what was committed last under its name. Where the way to the data directory is there and
the texts are short enough, it can be opened at any time with the size that it had.
-/

namespace ReferralForest
open Disk PersistentStore

variable {d d' : Disk} {directory name : String} {room : Nat}

structure Fits (directory : String) (c : StoreConfig) (size : Nat) : Prop where
  mapSize : c.mapSize? = some size
  noNul : hasNul (join directory c.name) = false
  shortNames : ∀ part ∈ moves directory ++ [c.name], part.utf8ByteSize ≤ 255
  shortScratch : c.memoryOnly = true → c.name.utf8ByteSize ≤ 248
  shortData : isTooLong (join (join directory c.name) dataFile) = false
  shortLock : isTooLong (textOf (destination directory ++ [c.name] ++ [lockFile])) = false

def Slot (d : Disk) (path : Path) (size : Nat) : Prop := d.node? path = none ∨ Served d path size

namespace Fits
variable {c : StoreConfig} {size : Nat}

theorem shortText (h : Fits directory c size) : isTooLong (join directory c.name) = false := by
  have hle := utf8ByteSize_le_join (join directory c.name) singleName_dataFile
  have hdata := h.shortData
  simp only [isTooLong, decide_eq_false_iff_not] at hdata ⊢
  omega

theorem noNulData (h : Fits directory c size) :
    hasNul (join (join directory c.name) dataFile) = false := by
  rw [hasNul_join _ singleName_dataFile, h.noNul]
  decide

theorem checkDirectory (h : Fits directory c size) (hname : SingleName c.name)
    (hwalk : Walks d [] (moves directory))
    (hslot : Slot d (destination directory ++ [c.name]) size) :
    d.checkDirectory (join directory c.name) = .ok () := by
  rw [Disk.checkDirectory, hwalk.find?_join hname h.noNul h.shortText]
  rcases hslot with hnone | hserved
  · rw [hnone]
    rfl
  · have hdir := hserved.isDirectory
    have hwalk' : Walks d [] (moves (join directory c.name)) := by
      rw [moves_join directory hname]
      apply hwalk.concat
      rw [through, if_neg hname.not_up]
      exact hdir
    have hfind : (d.find? (join (join directory c.name) dataFile)).isSome = true := by
      rw [hwalk'.find?_join singleName_dataFile h.noNulData h.shortData,
        destination_join directory hname, Option.isSome_map]
      exact hserved.isSome_data
    obtain ⟨node, hnode, hnodeDir⟩ := exists_of_isDirectory hdir
    simp [hnode, hnodeDir, hfind]

theorem openAt_eq_scratch (h : Fits directory c size) (hroom : size ≤ room)
    (hname : SingleName c.name) (hmemory : c.memoryOnly = true) :
    (openAt d directory c room).1 = .ok ⟨d, .scratch .empty⟩ := by
  have hnul := h.noNul
  rw [hasNul_join _ hname, Bool.or_eq_false_iff] at hnul
  have hlength : ¬255 < c.name.utf8ByteSize + 7 := by
    have := h.shortScratch hmemory
    omega
  have hfault : scratchFault? c.name = none := by
    rw [scratchFault?, hnul.2, parts_of_no_slash hname.no_slash]
    exact if_neg hlength
  simp only [openAt, hmemory, if_true, hfault, h.mapSize, if_pos hroom]

theorem openAt_eq_ok (h : Fits directory c size) (hroom : size ≤ room) (hname : SingleName c.name)
    (hmemory : c.memoryOnly = false) (hwalk : Walks d [] (moves directory))
    (hslot : Slot d (destination directory ++ [c.name]) size) :
    ∃ store, (openAt d directory c room).1 = .ok store := by
  have hshort : ∀ part ∈ moves directory, part.utf8ByteSize ≤ 255 :=
    fun part hpart => h.shortNames part (List.mem_append_left _ hpart)
  have hsize : ¬255 < c.name.utf8ByteSize := Nat.not_lt.mpr (h.shortNames c.name (by simp))
  have hmake := hwalk.makeDirectories_join hshort hname
  rw [h.noNul, h.shortText, makeAlong_single hname, if_neg hsize] at hmake
  have hcheck := h.checkDirectory hname hwalk hslot
  have hlock := h.shortLock
  have hdestination : d.isDirectory (destination directory) = true := hwalk.target
  simp only [openAt, hmemory, Bool.false_eq_true, if_false, hcheck, hmake, h.mapSize]
  rcases hslot with hnone | hserved
  · have hmade : ∀ rest, (d.set (destination directory ++ [c.name]) (.directory [])).node?
        (destination directory ++ [c.name] ++ rest) = (Node.directory []).get? rest :=
      fun rest => Node.get?_set_append _ _ _ _
    have hdir : (d.set (destination directory ++ [c.name]) (.directory [])).isDirectory
        (destination directory ++ [c.name]) = true := by
      have hself := hmade []
      rw [List.append_nil] at hself
      rw [isDirectory, hself]
      rfl
    have hopen := openFiles_of_vacant hlock hroom hdir (hmade [lockFile]) (hmade [dataFile])
    simp only [hnone]
    generalize openFiles _ _ size room = opened at hopen
    obtain ⟨answer, d'⟩ := opened
    cases hopen
    exact ⟨_, rfl⟩
  · obtain ⟨node, hnode, hdir⟩ := exists_of_isDirectory hserved.isDirectory
    simp only [hnode, hdir, if_true, openFiles_of_served hlock hserved]
    exact ⟨_, rfl⟩

end Fits

/-- The way to the data directory is there, and a name under it is free or served. -/
structure Ready (directory name : String) (size : Nat) (d : Disk) : Prop where
  walk : Walks d [] (moves directory)
  slot : Slot d (destination directory ++ [name]) size

namespace Ready
variable {size : Nat}

theorem created {P : Path → Prop} (h : Ready directory name size d) (hcreates : Creates P d d')
    (hP : ¬P (destination directory ++ [name])) : Ready directory name size d' := by
  refine ⟨h.walk.mono fun _ => hcreates.isDirectory, ?_⟩
  rcases h.slot with hnone | hserved
  · left
    rw [← shape_eq_none, hcreates.shape_of_not hP, shape_eq_none, hnone]
  · exact .inr (hserved.created hcreates)

theorem set {name' : String} {size' : Nat} (h : Ready directory name size d)
    (hserved : Served d (destination directory ++ [name']) size') (m : ByteMap Bytes) :
    Ready directory name size
      (d.set (destination directory ++ [name'] ++ [dataFile]) (.database size' m)) := by
  refine ⟨h.walk.mono fun _ => hserved.isDirectory_set m, ?_⟩
  rcases h.slot with hnone | hserved'
  · left
    rw [← shape_eq_none, hserved.shape_set, if_neg (by simp), shape_eq_none, hnone]
  · exact .inr (hserved.set m hserved')

end Ready

namespace Session
variable {s : Session} {last : String → ByteMap Bytes} {c : StoreConfig} {size : Nat}

theorem ready_reopen (h : Ready directory c.name size s.disk) (hfits : Fits directory c size)
    (hroom : size ≤ room) {c' : StoreConfig} (hname : SingleName c'.name)
    (hmemory : c'.memoryOnly = false)
    (hsame : c'.name = c.name → c'.mapSize? = some size) :
    Ready directory c.name size (s.step directory room (.reopen c')).disk := by
  have hshort : ∀ part ∈ moves directory, part.utf8ByteSize ≤ 255 :=
    fun part hpart => hfits.shortNames part (List.mem_append_left _ hpart)
  have hopens := opens_openAt room h.walk.isDirectory hname hmemory
    (makeDirectories_within h.walk hshort hname) fun _ => List.prefix_append _ _
  by_cases heq : c'.name = c.name
  · have hfits' : Fits directory c' size :=
      ⟨hsame heq, heq ▸ hfits.noNul, heq ▸ hfits.shortNames, by simp [hmemory],
        heq ▸ hfits.shortData, heq ▸ hfits.shortLock⟩
    obtain ⟨store, hok⟩ := hfits'.openAt_eq_ok hroom hname hmemory h.walk (heq ▸ h.slot)
    generalize hopen : openAt s.disk directory c' room = opened at hopens hok
    cases hopens with
    | fails e hcreates => cases hok
    | keeps size' hcreates hserved hsize hwipe =>
      rw [hsame heq] at hsize
      cases hsize
      rw [step_reopen_ok hopen, ← heq]
      exact ⟨h.walk.mono fun _ => hcreates.isDirectory, .inr hserved⟩
    | wipes size' hcreates hserved hsize hwipe =>
      rw [hsame heq] at hsize
      cases hsize
      rw [step_reopen_ok hopen, ← heq]
      have hwalk := h.walk.mono fun _ => hcreates.isDirectory
      exact ⟨hwalk.mono fun _ => hserved.isDirectory_set _, .inr (hserved.set _ hserved)⟩
  · have hapart : ¬destination directory ++ [c'.name] <+: destination directory ++ [c.name] := by
      simpa using heq
    generalize hopen : openAt s.disk directory c' room = opened at hopens
    cases hopens with
    | fails e hcreates =>
      rw [step_reopen_error hopen]
      exact h.created hcreates hapart
    | keeps size' hcreates hserved hsize hwipe =>
      rw [step_reopen_ok hopen]
      exact h.created hcreates hapart
    | wipes size' hcreates hserved hsize hwipe =>
      rw [step_reopen_ok hopen]
      exact (h.created hcreates hapart).set hserved .empty

theorem ready_step (h : Ready directory c.name size s.disk) (hfits : Fits directory c size)
    (hroom : size ≤ room) (hsound : Sound (destination directory) s last) {a : Action}
    (ha : ∀ c', a = .reopen c' → SingleName c'.name ∧
      (c'.name = c.name → c'.memoryOnly = false → c'.mapSize? = some size)) :
    Ready directory c.name size (s.step directory room a).disk := by
  cases a with
  | reopen c' =>
    obtain ⟨hname, hsame⟩ := ha c' rfl
    cases hmemory : c'.memoryOnly with
    | true =>
      rcases openAt_scratch s.disk directory room hmemory with hopen | ⟨e, hopen⟩
      · rw [step_reopen_ok hopen]
        exact h
      · rw [step_reopen_error hopen]
        exact h
    | false => exact ready_reopen h hfits hroom hname hmemory fun heq => hsame heq hmemory
  | write ops commits =>
    obtain ⟨d, current⟩ := s
    cases hsound.current with
    | closed => exact h
    | scratch c' entries hmemory =>
      cases commits with
      | false => simpa only [step, script_false] using h
      | true => simpa only [step, script_true, setEntries] using h
    | named c' size' hmemory hserved =>
      cases commits with
      | false => simpa only [step, script_false] using h
      | true =>
        simp only [step, script_true, setEntries]
        exact h.set hserved _

theorem ready_after (h : Ready directory c.name size s.disk) (hfits : Fits directory c size)
    (hroom : size ≤ room) (hsound : Sound (destination directory) s last) {actions : List Action}
    (hactions : ∀ c', .reopen c' ∈ actions → SingleName c'.name ∧
      (c'.name = c.name → c'.memoryOnly = false → c'.mapSize? = some size)) :
    Ready directory c.name size (s.after directory room actions).disk := by
  induction actions generalizing s last with
  | nil => exact h
  | cons a rest ih =>
    have ha : ∀ c', a = .reopen c' → SingleName c'.name ∧
        (c'.name = c.name → c'.memoryOnly = false → c'.mapSize? = some size) :=
      fun c' hc' => hactions c' (hc' ▸ List.mem_cons_self)
    have hstep := hsound.step room fun c' hc' => (ha c' hc').1
    exact ih (ready_step h hfits hroom hsound ha) hstep
      fun c' hc' => hactions c' (List.mem_cons_of_mem a hc')

theorem entries?_directory (d : Disk) (c : StoreConfig) (path : Path) (name : String) (size : Nat) :
    entries? ⟨d, some (c, .directory path name size)⟩ = some (d.stored path) :=
  congrArg some (entries_directory d path name size)

theorem entries?_reopen (hsound : Sound (destination directory) s last) (hname : SingleName c.name)
    {store : PersistentStore} (hok : (openAt s.disk directory c room).1 = .ok store) :
    (s.step directory room (.reopen c)).entries? =
      some (if c.memoryOnly || c.wipe then .empty else last c.name) := by
  cases hmemory : c.memoryOnly with
  | true =>
    rcases openAt_scratch s.disk directory room hmemory with hopen | ⟨e, hopen⟩
    · rw [step_reopen_ok hopen]
      rfl
    · rw [hopen] at hok
      cases hok
  | false =>
    have hstored := (hsound.reopen_named room hmemory hname).stored c.name
    obtain ⟨hmake, -⟩ := makeDirectories_spec (join directory c.name) hsound.rooted
    have hopens := opens_openAt room hsound.rooted hname hmemory hmake fun _ => trivial
    generalize hopen : openAt s.disk directory c room = opened at hopens hok
    cases hopens with
    | fails e hcreates => cases hok
    | keeps size hcreates hserved hsize hwipe =>
      rw [step_reopen_ok hopen, committed?_reopen_ok hopen] at hstored
      rw [step_reopen_ok hopen, entries?_directory, hstored]
      simp [hwipe]
    | wipes size hcreates hserved hsize hwipe =>
      rw [step_reopen_ok hopen, committed?_reopen_ok hopen] at hstored
      rw [step_reopen_ok hopen, entries?_directory, hstored]
      simp [hwipe, hmemory]

theorem step_write_false (s : Session) (ops : List Operation) :
    s.step directory room (.write ops false) = s := by
  obtain ⟨d, current⟩ := s
  cases current with
  | none => rfl
  | some opened => simp only [step, script_false]

theorem after_writes_false (s : Session) (drops : List (List Operation)) :
    s.after directory room (drops.map (.write · false)) = s := by
  induction drops with
  | nil => rfl
  | cons ops drops ih =>
    rw [List.map_cons, after, List.foldl_cons, step_write_false]
    exact ih

theorem sound_fresh (hroot : d.isDirectory [] = true)
    (hfresh : ∀ name, d.node? (destination directory ++ [name]) = none) :
    Sound (destination directory) ⟨d, none⟩ fun _ => .empty := by
  refine ⟨hroot, fun name => ?_, .closed⟩
  rw [stored, node?, Node.get?_append, ← node?, hfresh]
  rfl

theorem node?_of_names (h : d.names path = []) (name : String) :
    d.node? (path ++ [name]) = none := by
  rw [names] at h
  rw [node?, Node.get?_append, ← node?]
  cases hnode : d.node? path with
  | none => rfl
  | some node =>
    rw [hnode] at h
    have hlength := congrArg List.length h
    rw [List.length_mergeSort, List.length_map] at hlength
    exact Node.get?_of_no_children (List.length_eq_zero_iff.mp hlength) (List.cons_ne_nil _ _)

def Action.mapped : Action → Nat
  | .reopen c => c.mapSize?.getD 0
  | .write .. => 0

/-- The addresses that all stores of a session take, if none of them is given back. -/
def mapped (actions : List Action) : Nat :=
  actions.foldl (fun total action => total + action.mapped) 0

/-- Under a data directory without names, an open shows what was committed last under its
name, or nothing if it is wiped or scratch, and goes on to show it while transactions are
dropped. If the directory is there, every store that fits can be opened, as long as it is
opened with the same size as before and there is room for it beside all others. -/
theorem entries?_after_reopen {disk : Disk} (hroot : disk.isDirectory [] = true)
    (hfresh : disk.names (destination directory) = []) {actions : List Action}
    (hnames : ∀ c, .reopen c ∈ actions → SingleName c.name) (hname : SingleName c.name) :
    let start : Session := ⟨disk, none⟩
    let s := start.after directory room actions
    let last := (start.committed directory room c.name actions).getLast?.getD .empty
    (∀ store, (openAt s.disk directory c room).1 = .ok store → ∀ drops : List (List Operation),
      (s.after directory room (.reopen c :: drops.map (.write · false))).entries? =
        some (if c.memoryOnly || c.wipe then .empty else last)) ∧
    ∀ size, (∃ path, disk.find? directory = some (path, .directory [])) → Fits directory c size →
      size + mapped actions ≤ room →
      (∀ c', .reopen c' ∈ actions → c'.name = c.name → c'.memoryOnly = false →
        c'.mapSize? = some size) →
      ∃ store, (openAt s.disk directory c room).1 = .ok store := by
  intro start s last
  have hfree := node?_of_names hfresh
  have hstart := sound_fresh hroot hfree
  have hsound := hstart.after room hnames
  constructor
  · intro store hok drops
    rw [after, List.foldl_cons]
    show (Session.after directory room _ _).entries? = _
    rw [after_writes_false]
    exact entries?_reopen hsound hname hok
  · rintro size ⟨path, hfind⟩ hfits htotal hsizes
    have hroom : size ≤ room := Nat.le_of_add_right_le htotal
    cases hmemory : c.memoryOnly with
    | true => exact ⟨_, hfits.openAt_eq_scratch hroom hname hmemory⟩
    | false =>
      have hready : Ready directory c.name size start.disk :=
        ⟨.of_find? hfind rfl, .inl (hfree c.name)⟩
      have hlater := ready_after hready hfits hroom hstart
        fun c' hc' => ⟨hnames c' hc', hsizes c' hc'⟩
      exact hfits.openAt_eq_ok hroom hname hmemory hlater.walk hlater.slot

def emptyData : Disk := ⟨.directory [("data", .directory [])]⟩

def twoNames : List Action :=
  [.reopen { name := "a" }, .write [.put [1] [2], .put [3] [4]] true, .write [.delete [1]] false,
    .reopen { name := "b" }, .write [.put [5] [6]] true,
    .reopen (.inMemory "a"), .write [.put [7] [8]] true,
    .reopen { name := "a" }, .write [.delete [3]] true, .reopen { name := "b", wipe := true }]

theorem reopen_mem_twoNames {c : StoreConfig} (h : .reopen c ∈ twoNames) :
    SingleName c.name ∧ c.mapSize? = some 67108864 := by
  simp [twoNames] at h
  rcases h with rfl | rfl | rfl | rfl | rfl <;> exact ⟨by constructor <;> decide, by decide +kernel⟩

theorem entries?_after_reopen_twoNames :
    let s := (Session.mk emptyData none).after "/data" usualRoom twoNames
    emptyData.isDirectory [] = true ∧ emptyData.names (destination "/data") = [] ∧
      (∃ store, (openAt s.disk "/data" { name := "a" }).1 = .ok store) ∧
      (s.after "/data" usualRoom [.reopen { name := "a" }]).entries? =
        some (.ofList [([1], [2])]) := by
  intro s
  have hroot : emptyData.isDirectory [] = true := rfl
  have hfresh : emptyData.names (destination "/data") = [] := by decide +kernel
  have hname : SingleName "a" := by constructor <;> decide
  have hfits : Fits "/data" { name := "a" } 67108864 := by constructor <;> decide +kernel
  have hfind : emptyData.find? "/data" = some (["data"], .directory []) := rfl
  have htotal : 67108864 + mapped twoNames ≤ usualRoom := by decide +kernel
  obtain ⟨hshown, hopens⟩ := entries?_after_reopen (c := { name := "a" }) hroot hfresh
    (fun _ h => (reopen_mem_twoNames h).1) hname
  obtain ⟨store, hok⟩ := hopens 67108864 ⟨["data"], hfind⟩ hfits htotal
    fun _ h _ _ => (reopen_mem_twoNames h).2
  have hlast : ((Session.mk emptyData none).committed "/data" usualRoom "a" twoNames).getLast? =
      some (.ofList [([1], [2])]) := by
    decide +kernel
  have hentries := hshown store hok []
  rw [hlast] at hentries
  exact ⟨hroot, hfresh, ⟨store, hok⟩, hentries⟩

end Session
end ReferralForest
