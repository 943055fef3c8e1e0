import ReferralForest.Disk
import ReferralForest.StoreConfig
import ReferralForest.Store.Engine

/-!
# The store on disk

An open store is a database in a directory under the data directory, chosen by
name, or one of its own that is gone when it is closed. A database in a directory
is opened with one size each time, and another size is an error; a new one needs
room in the addresses of the process. A transaction
works on a private copy of the entries, which replaces them when it commits. Keys
have 1 to 511 bytes: no operation takes an empty key, and none is set under a
longer one.
-/

namespace ReferralForest

inductive Location
  | scratch (entries : ByteMap Bytes)
  | directory (path : Path) (name : String) (size : Nat)
  deriving DecidableEq

structure PersistentStore where
  disk : Disk
  location : Location

structure PersistentTxn where
  store : PersistentStore
  copy : ByteMap Bytes

namespace PersistentStore
open Disk

def entries (s : PersistentStore) : ByteMap Bytes :=
  match s.location with
  | .scratch entries => entries
  | .directory path _ _ =>
    match s.disk.node? (path ++ [dataFile]) with
    | some (.database _ entries) => entries
    | _ => .empty

def setEntries (s : PersistentStore) (entries : ByteMap Bytes) : PersistentStore :=
  match s.location with
  | .scratch _ => { s with location := .scratch entries }
  | .directory path _ size =>
    { s with disk := s.disk.set (path ++ [dataFile]) (.database size entries) }

/-- The longest run of free addresses that a process usually has, where they have 47 bits. -/
def usualRoom : Nat := 93824992231424

/-- Opens the data file of a database, or makes it. A database stays open with the
size it had first, so another size is refused, and one that has no room leaves a file
that holds none. -/
def openData (d : Disk) (path : Path) (size room : Nat) : Except EngineFault Unit × Disk :=
  match d.node? (path ++ [dataFile]) with
  | none =>
    if size ≤ room then (.ok (), d.set (path ++ [dataFile]) (.database size .empty))
    else (.error .noMemory, d.set (path ++ [dataFile]) .other)
  | some (.database opened _) => (if size = opened then .ok () else .error .otherOptions, d)
  | some (.directory _) => (.error .isADirectory, d)
  | some .other => (.error .notADatabase, d)

def openFiles (d : Disk) (path : Path) (size room : Nat) : Except EngineFault Unit × Disk :=
  if isTooLong (textOf (path ++ [lockFile])) then (.error .nameTooLong, d) else
    match d.node? (path ++ [lockFile]) with
    | some (.directory _) => (.error .isADirectory, d)
    | some _ => openData d path size room
    | none => openData (d.set (path ++ [lockFile]) .other) path size room

/-- Why a scratch store gets no directory: it would be named after the store, with a
dash and six characters more. Those are random, so the message does not give its path. -/
def scratchFault? (name : String) : Option FileFault :=
  if hasNul name then some .nulInName
  else if 255 < ((parts name).getLastD "").utf8ByteSize + 7 then some .nameTooLong
  else none

def openAt (d : Disk) (dataDirectory : String) (c : StoreConfig) (room : Nat := usualRoom) :
    Except EnvironmentError PersistentStore × Disk :=
  if c.memoryOnly then
    match scratchFault? c.name, c.mapSize? with
    | some fault, _ => (.error (.io fault), d)
    | none, none => (.error .outOfRange, d)
    | none, some size =>
      if size ≤ room then (.ok ⟨d, .scratch .empty⟩, d)
      else (.error (.engine .noMemory), d)
  else
    let text := join dataDirectory c.name
    match d.checkDirectory text with
    | .error fault => (.error (.unusable fault), d)
    | .ok _ =>
      match d.makeDirectories text with
      | (.error fault, d) => (.error (.io fault), d)
      | (.ok path, d) =>
        match c.mapSize? with
        | none => (.error .outOfRange, d)
        | some size =>
          match openFiles d path size room with
          | (.error fault, d) => (.error (.engine fault), d)
          | (.ok _, d) =>
            let opened : PersistentStore := ⟨d, .directory path c.name size⟩
            let opened := if c.wipe then opened.setEntries .empty else opened
            (.ok opened, opened.disk)

def relativePath? (s : PersistentStore) : Option String :=
  match s.location with
  | .scratch _ => none
  | .directory _ name _ =>
    if name.startsWith "/" then none else
      let trimmed := ((parts name).dropWhile stays).reverse.dropWhile stays
      some ("/".intercalate trimmed.reverse)

def keySizeError : StoreError := .backend (.environment (.engine .keySize))

end PersistentStore

namespace PersistentTxn
open PersistentStore

def get (t : PersistentTxn) (key : Bytes) : Except StoreError (Option Bytes) :=
  if key = [] then .error keySizeError else .ok (t.copy.get? key)

def put (t : PersistentTxn) (key value : Bytes) : Except StoreError Unit × PersistentTxn :=
  if key = [] ∨ 511 < key.length then (.error keySizeError, t)
  else (.ok (), { t with copy := t.copy.insert key value })

def delete (t : PersistentTxn) (key : Bytes) : Except StoreError Bool × PersistentTxn :=
  if key = [] then (.error keySizeError, t)
  else (.ok (t.copy.get? key).isSome, { t with copy := t.copy.erase key })

end PersistentTxn

instance : Transaction PersistentTxn where
  get := PersistentTxn.get
  put := PersistentTxn.put
  delete := PersistentTxn.delete

instance : Engine PersistentStore PersistentTxn where
  entries := PersistentStore.entries
  scan s first :=
    if first = [] then .error PersistentStore.keySizeError else .ok (s.entries.scan first)
  start s := ⟨s, s.entries⟩
  commit t := t.store.setEntries t.copy
  abandon t := t.store

end ReferralForest
