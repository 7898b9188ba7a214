import FairCache.Lib.Dict
import FairCache.Lib.Run
import FairCache.MemPool

/-!
# The local backend

`LMCLocalBackend` keeps chunks in local memory and evicts the least recently used ones.

* `updateOnPut` : the LRU evictor's choice of victims, with its ledger `currentCacheSize`;
* `putBlocking`, `putNonblocking`, `get`, `contains` : the operations;
* `step` : one of the caller's in a sequential run; `call` : one of the caller's or the worker's.
-/

namespace FairCache

open Lib

/-- The backend over the pool `md`: the chunks in order of recency, their slots, and the evictor's ledger. -/
structure LMCLocalBackend (md : LMCacheMemPoolMetadata) (K R : Type) [DecidableEq K] where
  dict : Dict K KVObj
  mpool : LocalPool md R
  currentCacheSize : ℤ

namespace LMCLocalBackend

variable {md : LMCacheMemPoolMetadata} {K R : Type} [DecidableEq K]

/-- A freshly constructed backend. -/
def new (md : LMCacheMemPoolMetadata) (K R : Type) [DecidableEq K] : LMCLocalBackend md K R :=
  { dict := ∅, mpool := LocalPool.new md R, currentCacheSize := 0 }

/-! ## The evictor -/

/-- The loop of `update_on_put` over what is left of the dictionary's iterator: the victims and the ledger. -/
def evictLoop (maxCacheSize : ℕ) (cacheSize : ℕ) (currentCacheSize : ℤ) :
    List (Sigma fun _ : K => KVObj) → Except PyError (List K × ℤ)
  | [] => if maxCacheSize < cacheSize + currentCacheSize then .error .stopIteration else .ok ([], currentCacheSize)
  | e :: iter =>
    if maxCacheSize < cacheSize + currentCacheSize then
      (evictLoop maxCacheSize cacheSize (currentCacheSize - e.2.size) iter).map fun r => (e.1 :: r.1, r.2)
    else .ok ([], currentCacheSize)

/-- `update_on_put` : the victims and the new ledger, or `none` for a chunk that exceeds the limit. -/
def updateOnPut (b : LMCLocalBackend md K R) (cacheSize : ℕ) : Except PyError (Option (List K × ℤ)) :=
  if md.maxBytes < cacheSize then .ok none
  else (evictLoop md.maxBytes cacheSize b.currentCacheSize b.dict.entries).map fun r => some (r.1, r.2 + cacheSize)

/-! ## The operations -/

/-- `contains`. -/
def contains (b : LMCLocalBackend md K R) (key : K) : Bool := decide (key ∈ b.dict)

/-- `remove` : the ledger stays as it is. -/
def remove (b : LMCLocalBackend md K R) (key : K) : Except PyError (LMCLocalBackend md K R) :=
  match b.dict.lookup key with
  | none => .error .keyError
  | some kvObj => .ok { b with dict := b.dict.erase key, mpool := b.mpool.free kvObj }

/-- Free the old block under the key, if there is one. -/
def removeOld (b : LMCLocalBackend md K R) (key : K) : Except PyError (LMCLocalBackend md K R) :=
  if b.contains key then b.remove key else .ok b

/-- Take a slot, copy the chunk into it and insert it. The pools raise rather than answer `None`, so the branch on
`kv_obj is None` has no run. -/
def store (b : LMCLocalBackend md K R) (key : K) (kvChunk : List R) : Except PyError (LMCLocalBackend md K R) :=
  match b.mpool.allocate kvChunk with
  | .error e => .error e
  | .ok (kvObj, mpool) => .ok { b with dict := b.dict.set key kvObj, mpool := mpool.copy kvObj kvChunk }

/-- `put_blocking`. -/
def putBlocking (b : LMCLocalBackend md K R) (key : K) (kvChunk : List R) :
    Except PyError (LMCLocalBackend md K R) := do
  match ← b.updateOnPut md.sizePerChunk with
  | none => .ok b
  | some (evictKeys, currentCacheSize) =>
    let b ← removeOld { b with currentCacheSize := currentCacheSize } key
    let b ← evictKeys.foldlM remove b
    b.store key kvChunk

/-- `put_nonblocking`, run to its end: it evicts before it frees the old block. -/
def putNonblocking (b : LMCLocalBackend md K R) (key : K) (kvChunk : List R) :
    Except PyError (LMCLocalBackend md K R) := do
  match ← b.updateOnPut md.sizePerChunk with
  | none => .ok b
  | some (evictKeys, currentCacheSize) =>
    let b ← evictKeys.foldlM remove { b with currentCacheSize := currentCacheSize }
    let b ← b.removeOld key
    b.store key kvChunk

/-- The chunk under a key. -/
def find (b : LMCLocalBackend md K R) (key : K) : Option (List R) := (b.dict.lookup key).map b.mpool.data

/-- `get` : the chunk, which becomes the most recent one. -/
def get (b : LMCLocalBackend md K R) (key : K) : Option (List R) × LMCLocalBackend md K R :=
  match b.dict.lookup key with
  | none => (none, b)
  | some kvObj => (some (b.mpool.data kvObj), { b with dict := b.dict.moveToEnd key })

/-! ## Runs -/

/-- One operation of a sequential run. -/
inductive Op (K R : Type)
  | putBlocking (key : K) (kvChunk : List R)
  | get (key : K)

/-- The state after an operation. -/
def step (b : LMCLocalBackend md K R) : Op K R → Except PyError (LMCLocalBackend md K R)
  | .putBlocking key kvChunk => b.putBlocking key kvChunk
  | .get key => .ok (b.get key).2

/-- A call of a sequential run: an operation of the caller, or a put that the worker executes. -/
inductive Call (K R : Type)
  | op (o : Op K R)
  | putNonblocking (key : K) (kvChunk : List R)

/-- The state after a call. -/
def call (b : LMCLocalBackend md K R) : Call K R → Except PyError (LMCLocalBackend md K R)
  | .op o => b.step o
  | .putNonblocking key kvChunk => b.putNonblocking key kvChunk

end LMCLocalBackend

end FairCache
