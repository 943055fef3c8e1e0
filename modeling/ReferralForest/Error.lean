import ReferralForest.Address

/-!
# Errors of the store

A failed operation says why. Broken invariants are fatal: they mean that stored
state or a caller's promise is wrong, so the operation must not be repeated. All
wording is in the message functions.
-/

namespace ReferralForest

/-- Conditions that never arise while the stored state is sound. -/
inductive Violation
  | negativeNetValue (address : Address) (amount : Int)
  | netValueOverflow (address : Address) (change : Int)
  | cycleDetected (start : Address) (levels : Nat)
  | missingSlot (position size : Nat)
  | heapOverCapacity (size capacity : Nat)
  deriving DecidableEq

namespace Violation

def message : Violation → String
  | negativeNetValue address amount =>
    "ANV of " ++ address.text ++ " would become negative: " ++ toString amount
  | netValueOverflow address change =>
    "ANV of " ++ address.text ++ " overflows when adding " ++ toString change
  | cycleDetected start levels =>
    "referral cycle: ancestor walk from " ++ start.text ++ " still running after " ++
      toString levels ++ " levels"
  | missingSlot position size =>
    "lottery heap slot " ++ toString position ++ " missing (heap size " ++ toString size ++ ")"
  | heapOverCapacity size capacity =>
    "lottery heap size " ++ toString size ++ " exceeds capacity " ++ toString capacity

end Violation

inductive Malformed
  | endOfInput
  | value (error : ValueError)
  | heapSizeLength
  | slotLength (actual : Nat)
  | described (text : String)
  deriving DecidableEq

def Malformed.message : Malformed → String
  | endOfInput => "io error: unexpected end of file"
  | value error => error.message
  | heapSizeLength => "lottery heap size has unexpected length"
  | slotLength actual => "lottery slot has " ++ toString actual ++ " bytes, expected 36"
  | described text => text

inductive EngineFault
  | keySize
  | notADatabase
  | isADirectory
  | nameTooLong
  | otherOptions
  | noMemory
  | described (text : String)
  deriving DecidableEq

def EngineFault.message : EngineFault → String
  | keySize =>
    "MDB_BAD_VALSIZE: Unsupported size of key/DB name/data, or wrong DUPFIXED size"
  | notADatabase => "MDB_INVALID: File is not an LMDB file"
  | isADirectory => "Is a directory (os error 21)"
  | nameTooLong => "File name too long (os error 36)"
  | otherOptions => "an environment is already opened with different options"
  | noMemory => "Cannot allocate memory (os error 12)"
  | described text => text

inductive FileFault
  | nulInName
  | noEntry
  | notADirectory
  | fileExists
  | nameTooLong
  | described (text : String)
  deriving DecidableEq

def FileFault.message : FileFault → String
  | nulInName => "file name contained an unexpected NUL byte"
  | noEntry => "No such file or directory (os error 2)"
  | notADirectory => "Not a directory (os error 20)"
  | fileExists => "File exists (os error 17)"
  | nameTooLong => "File name too long (os error 36)"
  | described text => text

inductive DirectoryFault
  | notADirectory (path : String)
  | dataFileMissing (path : String)
  | described (text : String)
  deriving DecidableEq

def DirectoryFault.message : DirectoryFault → String
  | notADirectory path => path ++ " exists but is not a directory"
  | dataFileMissing path => "LMDB directory is not empty but data.mdb is missing at " ++ path
  | described text => text

inductive EnvironmentError
  | engine (fault : EngineFault)
  | io (fault : FileFault)
  | config (text : String)
  | unusable (fault : DirectoryFault)
  | outOfRange
  deriving DecidableEq

def outOfRangeMessage : String := "a size or position is too large for 64 bits"

def EnvironmentError.message : EnvironmentError → String
  | engine fault => "LMDB error: " ++ fault.message
  | io fault => "I/O error: " ++ fault.message
  | config text => "configuration error: " ++ text
  | unusable fault => "data directory is unusable: " ++ fault.message
  | outOfRange => outOfRangeMessage

inductive BackendFault
  | environment (error : EnvironmentError)
  | injected
  | described (text : String)
  deriving DecidableEq

def BackendFault.message : BackendFault → String
  | environment error => error.message
  | injected => "injected write failure"
  | described text => text

inductive StoreError
  | notFound (text : String)
  | backend (fault : BackendFault)
  | serialization (cause : Malformed)
  | corruption (fault : DirectoryFault)
  | invariant (violation : Violation)
  /-- A number that has to be computed does not fit in 64 bits. -/
  | outOfRange
  deriving DecidableEq

namespace StoreError

def message : StoreError → String
  | notFound text => "key not found: " ++ text
  | backend fault => "storage backend error: " ++ fault.message
  | serialization cause => "serialization error: " ++ cause.message
  | corruption fault => "database is corrupted: " ++ fault.message
  | invariant violation => "invariant violated: " ++ violation.message
  | outOfRange => outOfRangeMessage

def isFatal : StoreError → Bool
  | invariant _ => true
  | _ => false

def ofValueError (error : ValueError) : StoreError := serialization (.value error)

/-- An unusable directory is corruption and a size out of range stays one; all
else is a fault of the backend. -/
def ofEnvironmentError : EnvironmentError → StoreError
  | .unusable fault => corruption fault
  | .outOfRange => outOfRange
  | error => backend (.environment error)

end StoreError
end ReferralForest
