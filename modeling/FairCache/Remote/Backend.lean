import FairCache.Basic
import FairCache.Key
import FairCache.Lib.Pipeline

/-!
# The remote backends

`LMCRemoteBackend` reads chunks from a remote store one key at a time. `LMCPipelinedRemoteBackend` reads a batch with
two worker threads, one for the network and one that deserializes.

* `RemoteConnector` : what the remote store holds while it is read;
* `get`, `batchedGet` : the plain backend;
* `networkWorker`, `deserializeWorker` : the loop bodies of the pipelined one, `pipelinedStep` : a step of its threads;
* `PipelinedReturns` : the results a schedule of the pipelined `batched_get` returns.
-/

namespace FairCache

open Lib

/-- The remote store during a call: the bytes under each combined key, seen directly or through the debug wrapper. -/
structure RemoteConnector where
  content : String → Option (List UInt8)
  debugWrapper : Bool

namespace RemoteConnector

/-- `exists`. -/
def holds (c : RemoteConnector) (key : String) : Bool := (c.content key).isSome

/-- `get` : the debug wrapper answers `None` for no bytes. -/
def get (c : RemoteConnector) (key : String) : Option (List UInt8) :=
  match c.content key with
  | none => none
  | some obj => if c.debugWrapper && obj.isEmpty then none else some obj

end RemoteConnector

/-- The backend: its connection and `deserializer.from_bytes`, which gives the KV tensor `V` of a chunk. -/
structure LMCRemoteBackend (V : Type) where
  connection : RemoteConnector
  fromBytes : List UInt8 → Except PyError V

namespace LMCRemoteBackend

variable {V : Type} (b : LMCRemoteBackend V)

/-- `contains`. -/
def contains (key : CacheEngineKey) : Bool := b.connection.holds key.toString

/-- `get`. -/
def get (key : CacheEngineKey) : Except PyError (Option V) :=
  if b.contains key then
    match b.connection.get key.toString with
    | none => .ok none
    | some obj => if obj.isEmpty then .ok none else (b.fromBytes obj).map some
  else .ok none

/-- `batched_get`, inherited from the backend interface. -/
def batchedGet (keys : List CacheEngineKey) : Except PyError (List (Option V)) :=
  keys.mapM fun key => if b.contains key then b.get key else .ok none

/-! ## The pipelined backend -/

/-- The body of `network_worker` for one item: a key the store does not hold is dropped. -/
def networkWorker (item : ℕ × CacheEngineKey) : Except PyError (Option (ℕ × Option (List UInt8))) :=
  if b.contains item.2 then
    match b.connection.get item.2.toString with
    | none => .error (.assertionError "isinstance(data, bytes)")
    | some data => .ok (some (item.1, some data))
  else .ok none

/-- The body of `deserialize_worker` for one item: the result is appended without its index. -/
def deserializeWorker (item : ℕ × Option (List UInt8)) : Except PyError (Option V) :=
  match item.2 with
  | some data => (b.fromBytes data).map some
  | none => .ok none

/-- `enumerate(keys)`. -/
def enumerate (keys : List CacheEngineKey) : List (ℕ × CacheEngineKey) := keys.zipIdx.map fun (key, idx) => (idx, key)

/-- The caller of `batched_get` and the two workers. -/
abbrev PipelinedState (V : Type) :=
  Pipeline.State (ℕ × CacheEngineKey) (ℕ × Option (List UInt8)) (Option V)

/-- The start of `batched_get(keys)`. -/
def pipelinedInit (V : Type) (keys : List CacheEngineKey) : PipelinedState V := Pipeline.init _ _ (enumerate keys)

/-- A step of one of the threads. -/
def pipelinedStep : PipelinedState V → Pipeline.Thread → Except Unit (PipelinedState V) :=
  Pipeline.step b.networkWorker b.deserializeWorker

/-- Some schedule of `batched_get(keys)` returns `results`. -/
def PipelinedReturns (keys : List CacheEngineKey) (results : List (Option V)) : Prop :=
  ∃ schedule s, Reaches b.pipelinedStep (pipelinedInit V keys) schedule s ∧ s.caller = .returned results

/-- Every schedule of `batched_get(keys)` returns: where no thread can move, the caller did. -/
def PipelinedFinishes (keys : List CacheEngineKey) : Prop :=
  ∀ schedule s, Reaches b.pipelinedStep (pipelinedInit V keys) schedule s →
    Pipeline.Stuck b.networkWorker b.deserializeWorker s → ∃ results, s.caller = .returned results

end LMCRemoteBackend

end FairCache
