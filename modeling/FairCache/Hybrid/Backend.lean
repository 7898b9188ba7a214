import FairCache.Local.Backend
import FairCache.Remote.Backend

/-!
# The hybrid backend

`LMCHybridBackend` reads through: chunks the local store lacks are read from the remote store and put into the local
one.

* `get` : one key;
* `readLocal`, `fill` : the two loops of `batched_get`, `batchedGet` : both, with the answer of the remote store between
  them;
* `RemoteAnswers`, `RemoteFinishes` : the answers of the remote store, of either class.
-/

namespace FairCache

open Lib

/-- The two stores; `pipelined` tells the class of the remote one. -/
structure LMCHybridBackend (md : LMCacheMemPoolMetadata) (R : Type) where
  localStore : LMCLocalBackend md CacheEngineKey R
  remoteStore : LMCRemoteBackend (List R)
  pipelined : Bool

namespace LMCHybridBackend

variable {md : LMCacheMemPoolMetadata} {R : Type}

/-- `get`. -/
def get (b : LMCHybridBackend md R) (key : CacheEngineKey) :
    Except PyError (Option (List R) × LMCHybridBackend md R) :=
  let (value, localStore) := b.localStore.get key
  let b := { b with localStore := localStore }
  match value with
  | some value => .ok (some value, b)
  | none =>
    match b.remoteStore.get key with
    | .error e => .error e
    | .ok none => .ok (none, b)
    | .ok (some value) => (b.localStore.putBlocking key value).map fun l => (some value, { b with localStore := l })

/-- What the first loop of `batched_get` collects: the local values and the keys to ask the remote store for, with
their indices. -/
structure LocalReads (md : LMCacheMemPoolMetadata) (R : Type) where
  ret : List (Option (List R))
  remoteQueries : List (ℕ × CacheEngineKey)
  localStore : LMCLocalBackend md CacheEngineKey R

/-- The first loop, for one key. -/
def readLocal (r : LocalReads md R) (item : ℕ × CacheEngineKey) : LocalReads md R :=
  let (value, localStore) := r.localStore.get item.2
  { ret := r.ret ++ [value]
    remoteQueries := if value.isNone then r.remoteQueries ++ [item] else r.remoteQueries
    localStore := localStore }

/-- The first loop. -/
def localReads (b : LMCHybridBackend md R) (keys : List CacheEngineKey) : LocalReads md R :=
  (LMCRemoteBackend.enumerate keys).foldl readLocal ⟨[], [], b.localStore⟩

/-- The second loop, for one answer of the remote store. -/
def fill (s : List (Option (List R)) × LMCLocalBackend md CacheEngineKey R)
    (item : (ℕ × CacheEngineKey) × Option (List R)) :
    Except PyError (List (Option (List R)) × LMCLocalBackend md CacheEngineKey R) :=
  match item.2 with
  | none => .ok s
  | some result => (s.2.putBlocking item.1.2 result).map fun l => (s.1.set item.1.1 (some result), l)

/-- `batched_get` when the remote store answers `remoteResults`. -/
def batchedGet (b : LMCHybridBackend md R) (keys : List CacheEngineKey) (remoteResults : List (Option (List R))) :
    Except PyError (List (Option (List R)) × LMCHybridBackend md R) :=
  let r := b.localReads keys
  ((r.remoteQueries.zip remoteResults).foldlM fill (r.ret, r.localStore)).map fun s =>
    (s.1, { b with localStore := s.2 })

/-- The pairs the second loop puts into the local store. -/
def inserted (b : LMCHybridBackend md R) (keys : List CacheEngineKey) (remoteResults : List (Option (List R))) :
    List (CacheEngineKey × List R) :=
  ((b.localReads keys).remoteQueries.zip remoteResults).filterMap fun item => item.2.map fun v => (item.1.2, v)

/-- The remote store can answer `results`. -/
def RemoteAnswers (b : LMCHybridBackend md R) (queries : List CacheEngineKey) (results : List (Option (List R))) :
    Prop :=
  if b.pipelined then b.remoteStore.PipelinedReturns queries results
  else b.remoteStore.batchedGet queries = .ok results

/-- The remote store answers, however its threads are scheduled. -/
def RemoteFinishes (b : LMCHybridBackend md R) (queries : List CacheEngineKey) : Prop :=
  if b.pipelined then b.remoteStore.PipelinedFinishes queries
  else ∃ results, b.remoteStore.batchedGet queries = .ok results

end LMCHybridBackend

end FairCache
