import ReferralForest.Proofs.Paths
import ReferralForest.Store.Persistent

/-!
# Databases in directories

A database is served from a directory by two files. Opening a store makes the directories
and files that are missing and leaves all others as they are, so every directory keeps its
entries, except the one that is wiped.
-/

namespace ReferralForest
open Disk PersistentStore

variable {d d' : Disk} {path other : Path} {size room : Nat}

theorem PersistentStore.entries_directory (d : Disk) (path : Path) (name : String) (size : Nat) :
    PersistentStore.entries ⟨d, .directory path name size⟩ = d.stored path := by
  simp only [entries, stored]
  rcases d.node? (path ++ [dataFile]) with _ | ⟨_ | _ | _⟩ <;> rfl

structure Served (d : Disk) (path : Path) (size : Nat) : Prop where
  lock : ∃ file, d.shape (path ++ [lockFile]) = some file ∧ file.isDirectory = false
  data : ∃ entries, d.shape (path ++ [dataFile]) = some (.database size entries)

theorem lockFile_ne_dataFile : path ++ [lockFile] ≠ other ++ [dataFile] := by
  simp [lockFile, dataFile]

namespace Served

theorem isSome_data (h : Served d path size) : (d.node? (path ++ [dataFile])).isSome = true := by
  obtain ⟨entries, hdata⟩ := h.data
  obtain ⟨node, hnode, -⟩ := Option.map_eq_some_iff.mp hdata
  rw [hnode]
  rfl

theorem isDirectory (h : Served d path size) : d.isDirectory path = true :=
  isDirectory_of_below h.isSome_data

theorem created {P : Path → Prop} (h : Served d path size) (hcreates : Creates P d d') :
    Served d' path size := by
  obtain ⟨file, hlock, hfile⟩ := h.lock
  obtain ⟨entries, hdata⟩ := h.data
  exact ⟨⟨file, hcreates.shape_of_some hlock, hfile⟩, ⟨entries, hcreates.shape_of_some hdata⟩⟩

section SetData
variable (m : ByteMap Bytes)

theorem shape_set (h : Served d path size) (other : Path) :
    (d.set (path ++ [dataFile]) (.database size m)).shape other =
      if other = path ++ [dataFile] then some (.database size m) else d.shape other := by
  refine Disk.shape_set h.isDirectory ?_ rfl other
  obtain ⟨entries, hdata⟩ := h.data
  rw [← Bool.not_eq_true, isDirectory_eq_true, hdata]
  nofun

theorem stored_set (h : Served d path size) (other : Path) :
    (d.set (path ++ [dataFile]) (.database size m)).stored other =
      if other = path then m else d.stored other := by
  rw [stored_eq, h.shape_set, stored_eq]
  by_cases heq : other = path <;> simp [heq, Node.entries]

theorem isDirectory_set (h : Served d path size) (hother : d.isDirectory other = true) :
    (d.set (path ++ [dataFile]) (.database size m)).isDirectory other = true := by
  obtain ⟨entries, hdata⟩ := h.data
  rw [isDirectory_eq_true] at hother ⊢
  rw [h.shape_set, if_neg, hother]
  rintro rfl
  rw [hdata] at hother
  cases hother

theorem set (h : Served d path size) {size' : Nat} (h' : Served d other size') :
    Served (d.set (path ++ [dataFile]) (.database size m)) other size' := by
  obtain ⟨entries, hdata⟩ := h.data
  obtain ⟨entries', hdata'⟩ := h'.data
  constructor
  · rw [h.shape_set, if_neg lockFile_ne_dataFile]
    exact h'.lock
  · rw [h.shape_set]
    by_cases heq : other ++ [dataFile] = path ++ [dataFile]
    · rw [heq, hdata] at hdata'
      cases hdata'
      exact ⟨m, if_pos heq⟩
    · exact ⟨entries', (if_neg heq).trans hdata'⟩

end SetData
end Served

section Files
variable {P : Path → Prop}

theorem openData_spec (hP : ∀ name, P (path ++ [name])) (hdir : d.isDirectory path = true)
    (hlock : ∃ file, d.shape (path ++ [lockFile]) = some file ∧ file.isDirectory = false) :
    Creates P d (openData d path size room).2 ∧
      ((openData d path size room).1 = .ok () →
        Served (openData d path size room).2 path size) := by
  rw [openData]
  rcases hdata : d.node? (path ++ [dataFile]) with _ | ⟨_ | ⟨opened, entries⟩ | _⟩
  · have hfile := isDirectory_of_none hdata
    by_cases hsize : size ≤ room
    · simp only [if_pos hsize]
      refine ⟨.node .nothing hdir hdata rfl rfl (hP _), fun _ => ⟨?_, ⟨.empty, ?_⟩⟩⟩
      · rw [shape_set hdir hfile rfl, if_neg lockFile_ne_dataFile]
        exact hlock
      · rw [shape_set hdir hfile rfl, if_pos rfl]
    · simp only [if_neg hsize]
      exact ⟨.node .nothing hdir hdata rfl rfl (hP _), fun h => by cases h⟩
  · exact ⟨.nothing, fun h => by cases h⟩
  · refine ⟨.nothing, fun hok => ⟨hlock, ⟨entries, ?_⟩⟩⟩
    have hsize : size = opened := by
      by_contra hne
      simp only [if_neg hne] at hok
      cases hok
    rw [shape, hdata, hsize]
    rfl
  · exact ⟨.nothing, fun h => by cases h⟩

theorem openFiles_eq (hlong : isTooLong (textOf (path ++ [lockFile])) = false)
    (hlock : d.isDirectory (path ++ [lockFile]) = false) :
    openFiles d path size room = openData (if (d.node? (path ++ [lockFile])).isSome then d
      else d.set (path ++ [lockFile]) .other) path size room := by
  rw [openFiles, hlong]
  rcases hnode : d.node? (path ++ [lockFile]) with _ | ⟨_ | _ | _⟩
  · rfl
  · simp [isDirectory, hnode, Node.isDirectory] at hlock
  · rfl
  · rfl

theorem openFiles_of_directory (hlong : isTooLong (textOf (path ++ [lockFile])) = false)
    (hlock : d.isDirectory (path ++ [lockFile]) = true) :
    openFiles d path size room = (.error .isADirectory, d) := by
  rw [openFiles, hlong]
  rcases hnode : d.node? (path ++ [lockFile]) with _ | ⟨_ | _ | _⟩
  · simp [isDirectory, hnode] at hlock
  · rfl
  · simp [isDirectory, hnode, Node.isDirectory] at hlock
  · simp [isDirectory, hnode, Node.isDirectory] at hlock

theorem openFiles_spec (size room : Nat) (hP : ∀ name, P (path ++ [name]))
    (hdir : d.isDirectory path = true) :
    Creates P d (openFiles d path size room).2 ∧
      ((openFiles d path size room).1 = .ok () →
        Served (openFiles d path size room).2 path size) := by
  by_cases hlong : isTooLong (textOf (path ++ [lockFile])) = true
  · rw [openFiles, if_pos hlong]
    exact ⟨.nothing, nofun⟩
  rw [Bool.not_eq_true] at hlong
  by_cases hfile : d.isDirectory (path ++ [lockFile]) = true
  · rw [openFiles_of_directory hlong hfile]
    exact ⟨.nothing, nofun⟩
  rw [Bool.not_eq_true] at hfile
  rw [openFiles_eq hlong hfile]
  cases hnode : d.node? (path ++ [lockFile]) with
  | none =>
    have hcreates : Creates P d (d.set (path ++ [lockFile]) .other) :=
      .node .nothing hdir hnode rfl rfl (hP _)
    have hlock : (d.set (path ++ [lockFile]) .other).shape (path ++ [lockFile]) = some .other := by
      rw [shape_set hdir hfile rfl, if_pos rfl]
    refine (openData_spec hP (hcreates.isDirectory hdir) ⟨.other, hlock, rfl⟩).imp ?_ id
    exact hcreates.trans
  | some node =>
    have hlock : d.shape (path ++ [lockFile]) = some node.bare := by rw [shape, hnode]; rfl
    have hnot : node.isDirectory = false := by simpa [isDirectory, hnode] using hfile
    exact openData_spec hP hdir ⟨node.bare, hlock, by simp [hnot]⟩

theorem openFiles_of_vacant (hlong : isTooLong (textOf (path ++ [lockFile])) = false)
    (hsize : size ≤ room) (hdir : d.isDirectory path = true)
    (hlock : d.node? (path ++ [lockFile]) = none) (hdata : d.node? (path ++ [dataFile]) = none) :
    (openFiles d path size room).1 = .ok () := by
  have hfile := isDirectory_of_none hlock
  have hdata' : (d.set (path ++ [lockFile]) .other).node? (path ++ [dataFile]) = none := by
    rw [← shape_eq_none, shape_set hdir hfile rfl, if_neg lockFile_ne_dataFile.symm,
      shape_eq_none, hdata]
  rw [openFiles_eq hlong hfile, hlock]
  simp [openData, hdata', hsize]

theorem openFiles_of_served (hlong : isTooLong (textOf (path ++ [lockFile])) = false)
    (hserved : Served d path size) : openFiles d path size room = (.ok (), d) := by
  obtain ⟨file, hlock, hfile⟩ := hserved.lock
  obtain ⟨node, hnode, rfl⟩ := Option.map_eq_some_iff.mp hlock
  rw [Node.isDirectory_bare] at hfile
  have hnot : d.isDirectory (path ++ [lockFile]) = false := by simp [isDirectory, hnode, hfile]
  obtain ⟨entries, hdata⟩ := hserved.data
  obtain ⟨database, hdatabase, hbare⟩ := Option.map_eq_some_iff.mp hdata
  have hentries : database = .database size entries := by
    cases database with
    | database opened held => exact hbare
    | directory children => cases hbare
    | other => cases hbare
  rw [openFiles_eq hlong hnot, hnode]
  simp [openData, hdatabase, hentries]

end Files

/-- How opening a store in a directory may end, with new nodes at some of the paths. -/
inductive Opens (P : Path → Prop) (d : Disk) (path : Path) (c : StoreConfig) :
    Except EnvironmentError PersistentStore × Disk → Prop
  | fails {d' : Disk} (e : EnvironmentError) (h : Creates P d d') : Opens P d path c (.error e, d')
  | keeps {d' : Disk} (size : Nat) (h : Creates P d d') (hserved : Served d' path size)
      (hsize : c.mapSize? = some size) (hwipe : c.wipe = false) :
      Opens P d path c (.ok ⟨d', .directory path c.name size⟩, d')
  | wipes {d' : Disk} (size : Nat) (h : Creates P d d') (hserved : Served d' path size)
      (hsize : c.mapSize? = some size) (hwipe : c.wipe = true) :
      Opens P d path c
        (.ok ⟨d'.set (path ++ [dataFile]) (.database size .empty), .directory path c.name size⟩,
          d'.set (path ++ [dataFile]) (.database size .empty))

section Opening
variable {directory : String} {c : StoreConfig}

theorem openAt_scratch (d : Disk) (directory : String) (room : Nat)
    (hmemory : c.memoryOnly = true) :
    openAt d directory c room = (.ok ⟨d, .scratch .empty⟩, d) ∨
      ∃ e, openAt d directory c room = (.error e, d) := by
  rw [openAt, if_pos hmemory]
  cases scratchFault? c.name with
  | some fault => exact .inr ⟨_, rfl⟩
  | none =>
    cases c.mapSize? with
    | none => exact .inr ⟨_, rfl⟩
    | some size =>
      by_cases hsize : size ≤ room
      · exact .inl (if_pos hsize)
      · exact .inr ⟨_, if_neg hsize⟩

theorem opens_openAt {P : Path → Prop} (room : Nat) (hroot : d.isDirectory [] = true)
    (hname : SingleName c.name) (hmemory : c.memoryOnly = false)
    (hmake : Creates P d (d.makeDirectories (join directory c.name)).2)
    (hP : ∀ name, P (destination directory ++ [c.name] ++ [name])) :
    Opens P d (destination directory ++ [c.name]) c (openAt d directory c room) := by
  rw [openAt, hmemory]
  simp only [Bool.false_eq_true, if_false]
  cases d.checkDirectory (join directory c.name) with
  | error fault => exact .fails _ .nothing
  | ok u =>
    obtain ⟨-, htarget⟩ := makeDirectories_spec (join directory c.name) hroot
    generalize d.makeDirectories (join directory c.name) = made at hmake htarget
    rcases made with ⟨fault | target, d₁⟩
    · exact .fails _ hmake
    · obtain ⟨rfl, hdir⟩ := htarget target rfl
      rw [destination_join directory hname] at hdir ⊢
      cases hsize : c.mapSize? with
      | none => exact .fails _ hmake
      | some size =>
        obtain ⟨hcreates, hserved⟩ := openFiles_spec size room hP hdir
        simp only
        generalize openFiles d₁ (destination directory ++ [c.name]) size room = opened
          at hcreates hserved
        rcases opened with ⟨fault | u, d₂⟩
        · exact .fails _ (hmake.trans hcreates)
        · cases hwipe : c.wipe with
          | false => exact .keeps size (hmake.trans hcreates) (hserved rfl) hsize hwipe
          | true => exact .wipes size (hmake.trans hcreates) (hserved rfl) hsize hwipe

end Opening
end ReferralForest
