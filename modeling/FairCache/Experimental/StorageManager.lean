import FairCache.Basic
import FairCache.Experimental.Allocator
import FairCache.Lib.Dict

/-!
# The storage manager

`StorageManager` keeps memory objects in a hot cache over a disk and a remote backend. Whoever uses an object holds a
reference to it.

* `Heap.allocateObj`, `Heap.up`, `Heap.down` : the allocator; an object is named by the number of its allocation;
* `LocalDiskBackend`, `RemoteBackend` : the backends, and `StorageManager` with the tasks they have in the background;
* `allocate`, `put`, `get`, `prefetch` : the calls; `finishDiskPut`, `finishRemotePut`, `finishPrefetch` : a task ends;
* `step` : one of these, or a caller drops a reference.

Calls and tasks run one after the other, in any order. Every object of the allocator is a `KV_BLOB`, and a server holds
what the serializer of this configuration wrote.
-/

namespace FairCache

open Lib

/-! ## The allocator -/

namespace Heap

/-- `allocate` of a `KV_BLOB`. -/
def allocateObj (h : Heap) (shape : List ℕ) (dtype : Dtype) : Option ℕ × Heap :=
  match h.allocator.allocate shape dtype .kvBlob with
  | (none, a) => (none, { h with allocator := a })
  | (some o, a) => (some h.objs.length, { allocator := a, objs := h.objs ++ [o] })

/-- `get_ref_count`. -/
def refCount (h : Heap) (i : ℕ) : ℤ := h.objs[i]?.elim 0 fun o => o.metadata.refCount

/-- `ref_count_up`. -/
def up (h : Heap) (i : ℕ) : Heap :=
  match h.objs[i]? with
  | none => h
  | some o => { h with objs := h.objs.set i (TensorMemoryAllocator.refCountUp o) }

/-- `ref_count_down`. -/
def down (h : Heap) (i : ℕ) : Heap :=
  match h.objs[i]? with
  | none => h
  | some o =>
    let (a, o) := h.allocator.refCountDown o
    { allocator := a, objs := h.objs.set i o }

end Heap

/-! ## The disk -/

/-- `DiskCacheMetadata`; the path is that of the key. -/
structure DiskEntry where
  size : ℕ
  shape : List ℕ
  dtype : Dtype

/-- `LocalDiskBackend` with its `LRUEvictor`. -/
structure LocalDiskBackend (K : Type) where
  dict : Dict K DiskEntry
  maxCacheSize : ℕ
  currentCacheSize : ℤ
  putTasks : List K

namespace LocalDiskBackend

variable {K : Type}

/-- The loop of `update_on_put` over what is left of the dictionary's iterator: the victims and the ledger. -/
def evictLoop (maxCacheSize cacheSize : ℕ) (currentCacheSize : ℤ) :
    List (Sigma fun _ : K => DiskEntry) → Except PyError (List K × ℤ)
  | [] => if maxCacheSize < cacheSize + currentCacheSize then .error .stopIteration else .ok ([], currentCacheSize)
  | e :: iter =>
    if maxCacheSize < cacheSize + currentCacheSize then
      (evictLoop maxCacheSize cacheSize (currentCacheSize - e.2.size) iter).map fun r => (e.1 :: r.1, r.2)
    else .ok ([], currentCacheSize)

variable [DecidableEq K]

/-- The part of `submit_put_task` that makes room and enters the task, or `none` for a chunk that exceeds the limit. -/
def enter (d : LocalDiskBackend K) (key : K) (physicalSize : ℕ) : Except PyError (Option (LocalDiskBackend K)) :=
  if d.maxCacheSize < physicalSize then .ok none
  else
    (evictLoop d.maxCacheSize physicalSize d.currentCacheSize d.dict.entries).map fun r =>
      some { d with
        dict := r.1.foldl Dict.erase d.dict
        currentCacheSize := r.2 + physicalSize
        putTasks := d.putTasks ++ [key] }

/-- `insert_key`, and the task is done. -/
def insertKey (d : LocalDiskBackend K) (key : K) (entry : DiskEntry) : LocalDiskBackend K :=
  { d with dict := (d.dict.erase key).set key entry, putTasks := d.putTasks.erase key }

end LocalDiskBackend

/-! ## The server -/

/-- The serializer and the deserializer. -/
inductive Serde
  /-- The object itself is sent. -/
  | naive
  /-- A compressed copy is sent, which no allocator counts. -/
  | cachegen
  deriving DecidableEq

/-- `RemoteBackend`. -/
structure RemoteBackend (K : Type) where
  serde : Serde
  putTasks : List K

/-- What the server answers to a `get` of a key that it has, and whether all of it is received. -/
structure RemoteAnswer where
  shape : List ℕ
  dtype : Dtype
  received : Bool

/-! ## The manager -/

/-- `StorageManager` with the references that its tasks and its callers hold. -/
structure StorageManager (K : Type) where
  heap : Heap
  useHot : Bool
  hotCache : Dict K ℕ
  disk : Option (LocalDiskBackend K)
  remote : Option (RemoteBackend K)
  /-- The prefetches that are not finished, with the shape and the type they load. -/
  prefetchTasks : Dict K (List ℕ × Dtype)
  /-- The saves to the disk that are not finished. -/
  diskPuts : List (K × ℕ)
  /-- The puts to the server that are not finished, with the object that each of them releases. -/
  remotePuts : List (K × Option ℕ)
  managerLock : Bool
  /-- The references that callers hold. -/
  callers : List ℕ
  /-- The counts of the decompressed objects that callers hold. They are on the GPU, outside the allocator. -/
  decoded : List ℤ

namespace StorageManager

variable {K : Type}

/-- A manager with an empty cache and no tasks. -/
def new (K : Type) (bufferSize : ℕ) (useHot : Bool) (maxDiskSize : Option ℕ) (serde : Option Serde) :
    StorageManager K :=
  { heap := .new bufferSize, useHot := useHot, hotCache := ∅
    disk := maxDiskSize.map fun n => { dict := ∅, maxCacheSize := n, currentCacheSize := 0, putTasks := [] }
    remote := serde.map fun serde => { serde := serde, putTasks := [] }
    prefetchTasks := ∅, diskPuts := [], remotePuts := [], managerLock := false, callers := [], decoded := [] }

/-! ### Allocation -/

/-- The loop of `allocate` over what is left of the iterator of the hot cache: how it ends, and the keys it evicts. -/
def evictLoop (shape : List ℕ) (dtype : Dtype) :
    Heap → List (Sigma fun _ : K => ℕ) → Except PyError (Option ℕ) × Heap × List K
  | heap, [] => (.error .stopIteration, heap, [])
  | heap, e :: iter =>
    if 1 < heap.refCount e.2 then evictLoop shape dtype heap iter
    else
      let (obj, heap) := (heap.down e.2).allocateObj shape dtype
      if obj.isSome ∨ heap.allocator.numActiveAllocations = 0 then (.ok obj, heap, [e.1])
      else
        let (r, heap, evictKeys) := evictLoop shape dtype heap iter
        (r, heap, e.1 :: evictKeys)

variable [DecidableEq K]

/-- `allocate` with eviction: what it returns or raises, and the manager after that. What the loop raises it raises with
the lock held and before the keys leave the hot cache. -/
def allocate (s : StorageManager K) (shape : List ℕ) (dtype : Dtype) :
    Except PyError (Option ℕ) × StorageManager K :=
  let s := { s with managerLock := true }
  match s.heap.allocateObj shape dtype with
  | (some obj, heap) =>
    (.ok (some obj), { s with heap := heap, managerLock := false, callers := obj :: s.callers })
  | (none, heap) =>
    match evictLoop shape dtype heap s.hotCache.entries with
    | (.error e, heap, _) => (.error e, { s with heap := heap })
    | (.ok obj, heap, evictKeys) =>
      (.ok obj, { s with
        heap := heap
        hotCache := evictKeys.foldl Dict.erase s.hotCache
        managerLock := false
        callers := obj.toList ++ s.callers })

/-! ### Puts -/

/-- The object enters the hot cache, and what was there under the key is released. -/
def putHot (s : StorageManager K) (key : K) (obj : ℕ) : StorageManager K :=
  if s.useHot then
    let s := match s.hotCache.lookup key with
      | none => s
      | some old => { s with hotCache := s.hotCache.erase key, heap := s.heap.down old }
    { s with hotCache := s.hotCache.set key obj, heap := s.heap.up obj }
  else s

/-- `exists_in_put_tasks` of some backend. -/
def existsInPutTasks (s : StorageManager K) (key : K) : Bool :=
  s.disk.any (fun d => key ∈ d.putTasks) || s.remote.any (fun r => key ∈ r.putTasks)

/-- `LocalDiskBackend.submit_put_task`. -/
def submitDisk (s : StorageManager K) (key : K) (obj : ℕ) : Except PyError (StorageManager K) :=
  match s.disk with
  | none => .ok s
  | some d =>
    match s.heap.objs[obj]? with
    | none => .error (.assertionError "")
    | some o =>
      if o.valid = false then .error (.assertionError "")
      else
        match d.enter key o.metadata.phySize with
        | .error e => .error e
        | .ok none => .ok s
        | .ok (some d) =>
          .ok { s with disk := some d, heap := s.heap.up obj, diskPuts := s.diskPuts ++ [(key, obj)] }

/-- `RemoteBackend.submit_put_task`. -/
def submitRemote (s : StorageManager K) (key : K) (obj : ℕ) : StorageManager K :=
  match s.remote with
  | none => s
  | some r =>
    let sent := match r.serde with
      | .naive => some obj
      | .cachegen => none
    { s with
      remote := some { r with putTasks := r.putTasks ++ [key] }
      heap := s.heap.up obj
      remotePuts := s.remotePuts ++ [(key, sent)] }

/-- `put` of an object to which the caller gives its reference away. -/
def put (s : StorageManager K) (key : K) (obj : ℕ) : Except PyError (StorageManager K) :=
  let s := s.putHot key obj
  if s.existsInPutTasks key then .ok { s with heap := s.heap.down obj, callers := s.callers.erase obj }
  else do
    let s ← s.submitDisk key obj
    let s := s.submitRemote key obj
    .ok { s with heap := s.heap.down obj, callers := s.callers.erase obj }

/-- `async_save_bytes_to_disk` ends. -/
def finishDiskPut (s : StorageManager K) (n : ℕ) : StorageManager K :=
  match s.diskPuts[n]? with
  | none => s
  | some (key, obj) =>
    match s.heap.objs[obj]? with
    | none => s
    | some o =>
      let entry : DiskEntry := ⟨o.rawData.size, o.metadata.shape, o.metadata.dtype⟩
      { s with
        disk := s.disk.map fun d => d.insertKey key entry
        heap := s.heap.down obj
        diskPuts := s.diskPuts.eraseIdx n }

/-- `connection.put` and `put_callback` end. -/
def finishRemotePut (s : StorageManager K) (n : ℕ) : StorageManager K :=
  match s.remotePuts[n]? with
  | none => s
  | some (key, sent) =>
    { s with
      remote := s.remote.map fun r => { r with putTasks := r.putTasks.erase key }
      heap := sent.elim s.heap s.heap.down
      remotePuts := s.remotePuts.eraseIdx n }

/-! ### Gets -/

/-- `_update_hot_cache` with an object in host memory. -/
def updateHotCache (s : StorageManager K) (key : K) (obj : ℕ) : StorageManager K :=
  if s.useHot ∧ key ∉ s.hotCache then { s with hotCache := s.hotCache.set key obj, heap := s.heap.up obj } else s

/-- `_update_hot_cache` with a decompressed object on the GPU, of which a copy enters. -/
def copyToHotCache (s : StorageManager K) (key : K) (shape : List ℕ) (dtype : Dtype) : StorageManager K :=
  if s.useHot ∧ key ∉ s.hotCache then
    match s.heap.allocateObj shape dtype with
    | (none, heap) => { s with heap := heap }
    | (some obj, heap) => { s with hotCache := s.hotCache.set key obj, heap := heap.up obj }
  else s

/-- `LocalDiskBackend.get_blocking`. -/
def getDisk (s : StorageManager K) (key : K) : Option ℕ × StorageManager K :=
  match s.disk with
  | none => (none, s)
  | some d =>
    match d.dict.lookup key with
    | none => (none, s)
    | some entry =>
      let (obj, heap) := s.heap.allocateObj entry.shape entry.dtype
      (obj, { s with disk := some { d with dict := d.dict.moveToEnd key }, heap := heap })

/-- `RemoteBackend.get_blocking` and the update of the hot cache. An object that is not received entirely stays
allocated. -/
def getRemote (s : StorageManager K) (key : K) (answer : Option RemoteAnswer) : StorageManager K :=
  match s.remote, answer with
  | some r, some a =>
    match r.serde with
    | .naive =>
      match s.heap.allocateObj a.shape a.dtype with
      | (none, heap) => { s with heap := heap }
      | (some obj, heap) =>
        let s := { s with heap := heap }
        if a.received then
          let s := s.updateHotCache key obj
          { s with callers := obj :: s.callers }
        else s
    | .cachegen =>
      if a.received then
        let s := s.copyToHotCache key a.shape a.dtype
        { s with decoded := -1 :: s.decoded }
      else s
  | _, _ => s

/-- `get` : the caller holds a reference to the object it returns, if it returns one. To wait for a prefetch of the key
changes nothing. -/
def get (s : StorageManager K) (key : K) (answer : Option RemoteAnswer) : Except PyError (StorageManager K) :=
  if key ∈ s.prefetchTasks ∧ s.useHot = false then
    .error (.assertionError "CPU cache must be enabled for prefetching")
  else
    match s.hotCache.lookup key with
    | some obj =>
      .ok { s with heap := s.heap.up obj, hotCache := s.hotCache.moveToEnd key, callers := obj :: s.callers }
    | none =>
      match s.getDisk key with
      | (some obj, s) =>
        let s := s.updateHotCache key obj
        .ok { s with callers := obj :: s.callers }
      | (none, s) => .ok (s.getRemote key answer)

/-! ### Prefetches -/

/-- `prefetch` : only the disk has prefetch tasks. -/
def prefetch (s : StorageManager K) (key : K) : StorageManager K :=
  if key ∈ s.hotCache ∨ key ∈ s.prefetchTasks then s
  else
    match s.disk with
    | none => s
    | some d =>
      match d.dict.lookup key with
      | none => s
      | some entry =>
        { s with
          disk := some { d with dict := d.dict.moveToEnd key }
          prefetchTasks := s.prefetchTasks.set key (entry.shape, entry.dtype) }

/-- `async_load_bytes_from_disk` and `prefetch_callback` end; `loaded` : the file was still there. The buffer that was
loaded stays allocated, and what the callback raises is only logged. -/
def finishPrefetch (s : StorageManager K) (key : K) (loaded : Bool) : StorageManager K :=
  match s.prefetchTasks.lookup key with
  | none => s
  | some (shape, dtype) =>
    let s := { s with prefetchTasks := s.prefetchTasks.erase key }
    match s.heap.allocateObj shape dtype with
    | (none, heap) => { s with heap := heap }
    | (some _, heap) =>
      if loaded then
        match heap.allocateObj shape dtype with
        | (none, heap) => { s with heap := heap }
        | (some obj, heap) => { s with heap := heap, hotCache := s.hotCache.set key obj }
      else { s with heap := heap }

/-! ### Runs -/

/-- A call, the end of a task, or a caller's `ref_count_down`. -/
inductive Op (K : Type)
  | allocate (shape : List ℕ) (dtype : Dtype)
  | put (key : K) (obj : ℕ)
  | get (key : K) (answer : Option RemoteAnswer)
  | prefetch (key : K)
  | finishDiskPut (n : ℕ)
  | finishRemotePut (n : ℕ)
  | finishPrefetch (key : K) (loaded : Bool)
  | release (obj : ℕ)
  | releaseDecoded (n : ℕ)

/-- One of these, if it does not raise. -/
def step (s : StorageManager K) : Op K → Except PyError (StorageManager K)
  | .allocate shape dtype =>
    match s.allocate shape dtype with
    | (.error e, _) => .error e
    | (.ok _, s) => .ok s
  | .put key obj => s.put key obj
  | .get key answer => s.get key answer
  | .prefetch key => .ok (s.prefetch key)
  | .finishDiskPut n => .ok (s.finishDiskPut n)
  | .finishRemotePut n => .ok (s.finishRemotePut n)
  | .finishPrefetch key loaded => .ok (s.finishPrefetch key loaded)
  | .release obj => .ok { s with heap := s.heap.down obj, callers := s.callers.erase obj }
  | .releaseDecoded n => .ok { s with decoded := s.decoded.eraseIdx n }

/-- A caller only gives away what it holds. -/
def Held (s : StorageManager K) : Op K → Prop
  | .put _ obj | .release obj => obj ∈ s.callers
  | _ => True

instance (s : StorageManager K) : ∀ op, Decidable (s.Held op)
  | .put _ obj | .release obj => inferInstanceAs (Decidable (obj ∈ s.callers))
  | .allocate _ _ | .get _ _ | .prefetch _ | .finishDiskPut _ | .finishRemotePut _ | .finishPrefetch _ _
  | .releaseDecoded _ => .isTrue trivial

end StorageManager

end FairCache
