import ReferralForest.Store.Engine

/-!
# The store in memory

A transaction stages its writes over the committed entries, a deletion as a key
without a value, and publishes them when it commits. A write can be made to
fail: with `n` writes left the next `n` succeed and the one after them fails,
once. The count runs on across transactions, committed or not.
-/

namespace ReferralForest

structure MemoryStore where
  entries : ByteMap Bytes := .empty
  writesLeft : Option Nat := none
  deriving DecidableEq

structure MemoryTxn where
  store : MemoryStore
  staged : ByteMap (Option Bytes)

namespace MemoryStore

def failAfter (store : MemoryStore) (writes : Nat) : MemoryStore :=
  { store with writesLeft := some writes }

def clearFailure (store : MemoryStore) : MemoryStore := { store with writesLeft := none }

def spend (store : MemoryStore) : Except StoreError Unit × MemoryStore :=
  match store.writesLeft with
  | none => (.ok (), store)
  | some 0 => (.error (.backend .injected), store.clearFailure)
  | some (n + 1) => (.ok (), store.failAfter n)

end MemoryStore

namespace MemoryTxn

def get (t : MemoryTxn) (key : Bytes) : Option Bytes :=
  match t.staged.get? key with
  | some staged => staged
  | none => t.store.entries.get? key

def stage (t : MemoryTxn) (key : Bytes) (value : Option Bytes) : MemoryTxn :=
  { t with staged := t.staged.insert key value }

def put (t : MemoryTxn) (key value : Bytes) : Except StoreError Unit × MemoryTxn :=
  match t.store.spend with
  | (.ok _, store) => (.ok (), stage { t with store } key (some value))
  | (.error e, store) => (.error e, { t with store })

def delete (t : MemoryTxn) (key : Bytes) : Except StoreError Bool × MemoryTxn :=
  match t.store.spend with
  | (.ok _, store) => (.ok (t.get key).isSome, stage { t with store } key none)
  | (.error e, store) => (.error e, { t with store })

def commit (t : MemoryTxn) : MemoryStore :=
  { t.store with entries := t.store.entries.apply t.staged }

end MemoryTxn

instance : Transaction MemoryTxn where
  get t key := .ok (t.get key)
  put := MemoryTxn.put
  delete := MemoryTxn.delete

instance : Engine MemoryStore MemoryTxn where
  entries := MemoryStore.entries
  scan s first := .ok (s.entries.scan first)
  start s := ⟨s, .empty⟩
  commit := MemoryTxn.commit
  abandon := MemoryTxn.store

end ReferralForest
