import ReferralForest.Bytes
import ReferralForest.Numeric.Power
import ReferralForest.Toml.Document

/-!
# Configuration of a store

A configuration names a store and says how to open it. It is kept as a TOML
document with four keys; reading gives each absent key its default and passes
over keys it does not know. The size limit is a 64-bit number, but only numbers
below `2^63` can be written, and only names whose runs of quotes are not too long.
-/

namespace ReferralForest

structure StoreConfig where
  cacheSize : Nat := 67108864
  memoryOnly : Bool := false
  wipe : Bool := false
  name : String := "referrals"
  deriving DecidableEq

namespace StoreConfig
open Toml

def inMemory (name : String) : StoreConfig := { memoryOnly := true, name }

def pageSize : Nat := 4096
def leastSize : Nat := 1048576

/-- The size that a database is opened with, which is the limit in whole pages
and at least a megabyte; none if that does not fit in 64 bits. -/
def mapSize? (c : StoreConfig) : Option Nat :=
  let pages := (max c.cacheSize leastSize + (pageSize - 1)) / pageSize
  if pages * pageSize < Numeric.twoPow 64 then some (pages * pageSize) else none

def size? (t : Table) (key : String) (default : Nat) : Option Nat :=
  match t.lookup key with
  | none => some default
  | some (.scalar (.integer n)) => if 0 ≤ n then some n.toNat else none
  | some _ => none

def flag? (t : Table) (key : String) (default : Bool) : Option Bool :=
  match t.lookup key with
  | none => some default
  | some (.scalar (.boolean b)) => some b
  | some _ => none

def text? (t : Table) (key : String) (default : String) : Option String :=
  match t.lookup key with
  | none => some default
  | some (.string text) => some text
  | some _ => none

def ofTable? (t : Table) : Option StoreConfig := do
  let default : StoreConfig := {}
  return {
    cacheSize := ← size? t "cache_size" default.cacheSize
    memoryOnly := ← flag? t "memory_only" default.memoryOnly
    wipe := ← flag? t "wipe" default.wipe
    name := ← text? t "name" default.name }

def ofToml? (text : String) : Option StoreConfig := do
  ofTable? (← Document.read? text)

def ofFile? (content : Option Bytes) : Option StoreConfig := do
  ofToml? (← String.fromUTF8? ⟨(← content).toArray⟩)

def flagText (b : Bool) : String := if b then "true" else "false"

def toToml? (c : StoreConfig) : Option String := do
  let name ← Text.write? c.name.toList
  if c.cacheSize < Numeric.twoPow 63 then
    some ("cache_size = " ++ String.ofList (Nat.toDigits 10 c.cacheSize) ++
      "\nmemory_only = " ++ flagText c.memoryOnly ++
      "\nwipe = " ++ flagText c.wipe ++
      "\nname = " ++ String.ofList name ++ "\n")
  else none

end StoreConfig
end ReferralForest
