import FairCache.Fair.Evictor
import FairCache.Lib.Run

/-!
# The fair backend

`LMCLocalFairBackend` is the dictionary of resident blocks with its pool and its evictor.

* `putReserve`, `putInsert` : the two sections of a put that hold `update_lock`;
* `putBlocking`, `putNonblocking`, `get`, `getAttributionInfo`, `updateAfterGet` : the operations;
* `step` : one operation of a sequential run.
-/

namespace FairCache

open Lib

/-- The backend over the pool `md`; a block's rows have type `R`. -/
structure LMCLocalFairBackend (md : LMCacheMemPoolMetadata) (K F R : Type) [LinearOrder K] [LinearOrder F] where
  dict : Dict K (CacheEntry F)
  mpool : LocalPool md R
  evictor : FairEvictor md K F

/-- The arguments of `put_blocking` and `put_nonblocking`, with the clock where `update_on_put` and where the new
entry reads it. -/
structure PutArgs (K F R : Type) where
  clientId : ClientId
  key : K
  kvChunk : List R
  retrievedKeys : List K
  lambdaVal : F
  now : F
  storedAt : F

/-- `LAMBDA_HIGH`, the decay rate of an API request. -/
def lambdaHigh {F : Type} [Field F] : F := 1 / 10

/-- `LAMBDA_LOW`, the decay rate of a chat request. -/
def lambdaLow {F : Type} [Field F] : F := 1 / (100 : ℕ)

/-- The client of a call, from the context: `None` and `-1` stand for no client. -/
def activeClient (clientIdCtx : Option ClientId) : Option ClientId := clientIdCtx.filter (· ≠ -1)

namespace LMCLocalFairBackend

variable {md : LMCacheMemPoolMetadata} {K F R : Type} [LinearOrder K] [Field F] [LinearOrder F]

/-- A freshly constructed backend. -/
def new (md : LMCacheMemPoolMetadata) (K F R : Type) [LinearOrder K] [LinearOrder F] :
    LMCLocalFairBackend md K F R :=
  { dict := ∅, mpool := LocalPool.new md R, evictor := FairEvictor.new md K F }

/-! ## Puts -/

/-- `remove` : the block leaves the dictionary and its shares leave the usage table. The ledger
`current_cache_size` is left to the caller. -/
def remove (b : LMCLocalFairBackend md K F R) (key : K) : LMCLocalFairBackend md K F R :=
  match b.dict.lookup key with
  | none => b
  | some entry =>
    { dict := b.dict.erase key
      mpool := b.mpool.free entry.kvObj
      evictor := { b.evictor with
        clientCacheSizes := FairEvictor.dropShares b.evictor.clientCacheSizes entry
        keyToClients := b.evictor.keyToClients.erase key } }

/-- Add to the ledger. -/
def addCacheSize (b : LMCLocalFairBackend md K F R) (size : ℤ) : LMCLocalFairBackend md K F R :=
  { b with evictor := { b.evictor with currentCacheSize := b.evictor.currentCacheSize + size } }

/-- Free the old block under the key, if there is one. It answers the size that left the ledger. -/
def dropOld (b : LMCLocalFairBackend md K F R) (key : K) : ℕ × LMCLocalFairBackend md K F R :=
  match b.dict.lookup key with
  | none => (0, b)
  | some oldEntry => (oldEntry.kvObj.size, (b.remove key).addCacheSize (-oldEntry.kvObj.size))

omit [LinearOrder K] [Field F] [LinearOrder F] in
/-- `get_size(kv_chunk)` : the bytes of the chunk itself, not of a slot. -/
def chunkBytes (md : LMCacheMemPoolMetadata) (a : PutArgs K F R) : ℕ := md.kvBytes a.kvChunk.length

variable [FloatMath F]

/-- The first section of a put under `update_lock`: drop the old block, make room and take a slot. `none` is a
refused put. The pools raise rather than answer `None`, so the branch on `kv_obj is None` has no run. -/
def putReserve (b : LMCLocalFairBackend md K F R) (a : PutArgs K F R) :
    Except PyError (Option KVObj × LMCLocalFairBackend md K F R) :=
  let (oldCacheSize, b) := b.dropOld a.key
  match b.evictor.updateOnPut b.dict (chunkBytes md a) a.retrievedKeys a.now with
  | (ev, _, _, .illegal) =>
    let b := { b with evictor := ev }
    .ok (none, if 0 < oldCacheSize then b.addCacheSize oldCacheSize else b)
  | (ev, _, evictKeys, .legal) =>
    let b := evictKeys.foldl remove { b with evictor := ev }
    match b.mpool.allocate a.kvChunk with
    | .error e => .error e
    | .ok (kvObj, mpool) => .ok (some kvObj, { b with mpool := mpool })

/-- The rest of a put: copy the chunk into its slot and, under `update_lock` again, insert and register the entry. -/
def putInsert (b : LMCLocalFairBackend md K F R) (a : PutArgs K F R) (kvObj : KVObj) :
    LMCLocalFairBackend md K F R :=
  let cacheEntry : CacheEntry F :=
    { kvObj := kvObj, lastAccessTime := a.storedAt, accessMap := ∅, lambdaVal := a.lambdaVal, value := 0 }
  let (ev, cacheEntry) := b.evictor.registerNewCache a.key cacheEntry a.clientId a.storedAt
  { dict := b.dict.set a.key cacheEntry, mpool := b.mpool.copy kvObj a.kvChunk, evictor := ev }

/-- The sections of a put, one after the other. -/
def putSections (b : LMCLocalFairBackend md K F R) (a : PutArgs K F R) :
    Except PyError (LMCLocalFairBackend md K F R) :=
  match b.putReserve a with
  | .error e => .error e
  | .ok (none, b) => .ok b
  | .ok (some kvObj, b) => .ok (b.putInsert a kvObj)

/-- `put_blocking`. -/
def putBlocking (b : LMCLocalFairBackend md K F R) (a : PutArgs K F R) :
    Except PyError (LMCLocalFairBackend md K F R) := b.putSections a

/-- `put_nonblocking` : the same sections; only the copy runs on a stream of its own, which is waited for. -/
def putNonblocking (b : LMCLocalFairBackend md K F R) (a : PutArgs K F R) :
    Except PyError (LMCLocalFairBackend md K F R) := b.putSections a

/-- `put` : without a client nothing is stored, and the decay rate follows the request type. A put that does not
block is queued; in a sequential run the worker has executed it before the next operation. -/
def put (b : LMCLocalFairBackend md K F R) (clientIdCtx : Option ClientId) (requestType : Option String) (key : K)
    (kvChunk : List R) (blocking : Bool) (retrievedKeys : List K) (lambdaVal : Option F) (now storedAt : F) :
    Except PyError (LMCLocalFairBackend md K F R) :=
  match activeClient clientIdCtx with
  | none => .ok b
  | some clientId =>
    let lambdaVal := lambdaVal.getD (if requestType = some "chat" then lambdaLow else lambdaHigh)
    let a : PutArgs K F R := { clientId, key, kvChunk, retrievedKeys, lambdaVal, now, storedAt }
    if blocking then b.putBlocking a else b.putNonblocking a

/-! ## Reads -/

omit [Field F] [FloatMath F] in
/-- `contains`. -/
def contains (b : LMCLocalFairBackend md K F R) (key : K) : Bool := decide (key ∈ b.dict)

omit [Field F] [FloatMath F] in
/-- `get` : it reads the block and records nothing. -/
def get (b : LMCLocalFairBackend md K F R) (clientIdCtx : Option ClientId) (key : K) : Option (List R) :=
  match activeClient clientIdCtx with
  | none => none
  | some _ => (b.dict.lookup key).map fun entry => b.mpool.data entry.kvObj

omit [Field F] [FloatMath F] in
/-- `get_attribution_info` : for each key whether the client is a new sharer and who the sharers are. -/
def getAttributionInfo (b : LMCLocalFairBackend md K F R) (clientIdCtx : Option ClientId) (keys : List K) :
    List (Bool × List ClientId) :=
  match activeClient clientIdCtx with
  | none => keys.map fun _ => (false, [])
  | some clientId => keys.map fun key =>
    match b.dict.lookup key with
    | none => (false, [])
    | some entry => (decide (clientId ∉ entry.accessMap), entry.clients)

/-- `evictor.update_on_get` on the backend's dictionary. -/
def updateOnGet (b : LMCLocalFairBackend md K F R) (key : K) (clientId : ClientId) (now : F) :
    LMCLocalFairBackend md K F R :=
  let (ev, dict) := b.evictor.updateOnGet key clientId b.dict now
  { b with dict := dict, evictor := ev }

/-- `update_after_get` : record the access of each key, the last one first; `clock i` is the time of the `i`-th
update. -/
def updateAfterGet (b : LMCLocalFairBackend md K F R) (clientIdCtx : Option ClientId) (retrievedKeys : List K)
    (clock : ℕ → F) : LMCLocalFairBackend md K F R :=
  match activeClient clientIdCtx with
  | none => b
  | some clientId =>
    retrievedKeys.reverse.zipIdx.foldl (fun b (key, i) => b.updateOnGet key clientId (clock i)) b

/-! ## Runs -/

/-- One operation of a sequential run. -/
inductive Op (K F R : Type)
  | putBlocking (a : PutArgs K F R)
  | putNonblocking (a : PutArgs K F R)
  | get (clientIdCtx : Option ClientId) (key : K)
  | updateAfterGet (clientIdCtx : Option ClientId) (retrievedKeys : List K) (clock : ℕ → F)

/-- The state after an operation. -/
def step (b : LMCLocalFairBackend md K F R) : Op K F R → Except PyError (LMCLocalFairBackend md K F R)
  | .putBlocking a => b.putBlocking a
  | .putNonblocking a => b.putNonblocking a
  | .get _ _ => .ok b
  | .updateAfterGet clientIdCtx retrievedKeys clock => .ok (b.updateAfterGet clientIdCtx retrievedKeys clock)

/-- The put an operation executes, if it is one. -/
def Op.put? : Op K F R → Option (PutArgs K F R)
  | .putBlocking a => some a
  | .putNonblocking a => some a
  | .get _ _ => none
  | .updateAfterGet _ _ _ => none

end LMCLocalFairBackend

end FairCache
