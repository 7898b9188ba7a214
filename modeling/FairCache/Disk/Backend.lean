import FairCache.Key
import FairCache.Lib.Dict
import FairCache.Lib.Run
import FairCache.MemPool

/-!
# The local disk backend

`LMCLocalDiskBackend` saves chunks to files in the background. A chunk waits for its save in a buffer slot, which a
later `get` gives back.

* `updateOnPut`, `remove` : the victims of a put, whose files are removed with them;
* `enter`, `allocate`, `submit`, `insert` : the sections of `put_nonblocking`; `finish` : a save ends; `get`;
* `step` : one of them, or an eviction. What it raises it raises while `update_lock` is held.

`buffer_sweeper` never runs its loop, since an `Event` is true even if it is not set.
-/

namespace FairCache

open Lib

/-- `DiskCacheMetadata`; its other fields are not set here. -/
structure DiskCacheMetadata where
  path : String
  size : ℕ
  deriving DecidableEq

/-- A save that the pool of processes executes: the file, the rows that it was given and whether it is done. -/
structure Save (R : Type) where
  path : String
  rows : List R
  done : Bool

/-- How far a call of `put_nonblocking` got. -/
inductive PutPhase
  /-- It made room and waits for a buffer. -/
  | waiting
  | allocated (kvObj : KVObj)
  | submitted (kvObj : KVObj) (future : ℕ)

/-- A call of `put_nonblocking` in progress. -/
structure PutCall (R : Type) where
  key : CacheEngineKey
  kvChunk : List R
  phase : PutPhase

/-- The buffer slot that the call holds. -/
def PutCall.slot? {R : Type} (p : PutCall R) : Option ℕ :=
  match p.phase with
  | .waiting => none
  | .allocated kvObj => some kvObj.chunkIdx
  | .submitted kvObj _ => some kvObj.chunkIdx

/-- The backend with the files under its path, the saves that it submitted and the calls in progress. -/
structure LMCLocalDiskBackend (md : LMCacheMemPoolMetadata) (R : Type) where
  path : String
  dict : Dict CacheEngineKey DiskCacheMetadata
  currentCacheSize : ℤ
  futurePool : Dict CacheEngineKey (ℕ × KVObj)
  cpuMbufferpool : LocalPool md R
  files : Dict String (List R)
  saves : List (Save R)
  puts : Dict ℕ (PutCall R)

/-- `LocalCPUBufferPool.allocate` : without a free slot it answers `None`. -/
def LocalPool.allocateBuffer {md : LMCacheMemPoolMetadata} {R : Type} (p : LocalPool md R) (kvChunk : List R) :
    Except PyError (Option (KVObj × LocalPool md R)) :=
  if md.chunkSize < kvChunk.length then .error (.assertionError "num_tok <= self.chunk_size")
  else
    match p.freePool.getLast? with
    | none => .ok none
    | some idx =>
      .ok (some ({ chunkIdx := idx, size := md.sizePerChunk, numTok := kvChunk.length },
        { p with freePool := p.freePool.dropLast }))

namespace LMCLocalDiskBackend

variable {md : LMCacheMemPoolMetadata} {R : Type}

/-- A backend over an empty directory. -/
def new (md : LMCacheMemPoolMetadata) (R : Type) (path : String) : LMCLocalDiskBackend md R :=
  { path := path, dict := ∅, currentCacheSize := 0, futurePool := ∅, cpuMbufferpool := .new md R, files := ∅
    saves := [], puts := ∅ }

/-- `key.to_string().replace("/", "-") + ".pt"`. -/
def fileName (key : CacheEngineKey) : String :=
  String.ofList (key.toString.toList.map fun c => if c = '/' then '-' else c) ++ ".pt"

/-- `_key_to_path`. -/
def keyToPath (b : LMCLocalDiskBackend md R) (key : CacheEngineKey) : String := b.path ++ fileName key

/-! ## Evictions -/

/-- The loop of `update_on_put` over what is left of the dictionary's iterator: the victims and the ledger. -/
def evictLoop (maxCacheSize cacheSize : ℕ) (currentCacheSize : ℤ) :
    List (Sigma fun _ : CacheEngineKey => DiskCacheMetadata) → Except PyError (List CacheEngineKey × ℤ)
  | [] => if maxCacheSize < cacheSize + currentCacheSize then .error .stopIteration else .ok ([], currentCacheSize)
  | e :: iter =>
    if maxCacheSize < cacheSize + currentCacheSize then
      (evictLoop maxCacheSize cacheSize (currentCacheSize - e.2.size) iter).map fun r => (e.1 :: r.1, r.2)
    else .ok ([], currentCacheSize)

/-- `update_on_put` : the victims and the new ledger, or `none` for a chunk that exceeds the limit. -/
def updateOnPut (b : LMCLocalDiskBackend md R) (cacheSize : ℕ) : Except PyError (Option (List CacheEngineKey × ℤ)) :=
  if md.maxBytes < cacheSize then .ok none
  else (evictLoop md.maxBytes cacheSize b.currentCacheSize b.dict.entries).map fun r => some (r.1, r.2 + cacheSize)

/-- `remove` : the entry goes first, then the file, which has to be there. -/
def remove (b : LMCLocalDiskBackend md R) (key : CacheEngineKey) : Except PyError (LMCLocalDiskBackend md R) :=
  match b.dict.lookup key with
  | none => .error .keyError
  | some metadata =>
    if metadata.path ∈ b.files then
      .ok { b with dict := b.dict.erase key, files := b.files.erase metadata.path }
    else .error (.exception "FileNotFoundError")

/-! ## The sections of a put -/

/-- The first section: it ends the call if the key is being saved or the chunk is too big, else it makes room. -/
def enter (b : LMCLocalDiskBackend md R) (id : ℕ) (key : CacheEngineKey) (kvChunk : List R) :
    Except PyError (LMCLocalDiskBackend md R) :=
  if key ∈ b.futurePool then .ok b
  else
    match b.updateOnPut (md.kvBytes kvChunk.length) with
    | .error e => .error e
    | .ok none => .ok b
    | .ok (some (evictKeys, currentCacheSize)) => do
      let b ← evictKeys.foldlM remove { b with currentCacheSize := currentCacheSize }
      return { b with puts := b.puts.set id { key := key, kvChunk := kvChunk, phase := .waiting } }

/-- One round of the loop that waits for a buffer. -/
def allocate (b : LMCLocalDiskBackend md R) (id : ℕ) (p : PutCall R) : Except PyError (LMCLocalDiskBackend md R) :=
  match b.cpuMbufferpool.allocateBuffer p.kvChunk with
  | .error e => .error e
  | .ok none => .ok b
  | .ok (some (kvObj, pool)) =>
    .ok { b with cpuMbufferpool := pool, puts := b.puts.set id { p with phase := .allocated kvObj } }

/-- Copy the chunk into the buffer and submit the save. -/
def submit (b : LMCLocalDiskBackend md R) (id : ℕ) (p : PutCall R) (kvObj : KVObj) : LMCLocalDiskBackend md R :=
  let pool := b.cpuMbufferpool.copy kvObj p.kvChunk
  { b with
    cpuMbufferpool := pool
    saves := b.saves ++ [{ path := b.keyToPath p.key, rows := pool.data kvObj, done := false }]
    puts := b.puts.set id { p with phase := .submitted kvObj b.saves.length } }

/-- The last section. -/
def insert (b : LMCLocalDiskBackend md R) (id : ℕ) (p : PutCall R) (kvObj : KVObj) (future : ℕ) :
    LMCLocalDiskBackend md R :=
  { b with
    futurePool := b.futurePool.set p.key (future, kvObj)
    dict := b.dict.set p.key { path := b.keyToPath p.key, size := kvObj.size }
    puts := b.puts.erase id }

/-- The next section of a call. -/
def resume (b : LMCLocalDiskBackend md R) (id : ℕ) : Except PyError (LMCLocalDiskBackend md R) :=
  match b.puts.lookup id with
  | none => .ok b
  | some p =>
    match p.phase with
    | .waiting => b.allocate id p
    | .allocated kvObj => .ok (b.submit id p kvObj)
    | .submitted kvObj future => .ok (b.insert id p kvObj future)

/-! ## Saves and reads -/

/-- `future.done()`. -/
def isDone (b : LMCLocalDiskBackend md R) (future : ℕ) : Bool := (b.saves[future]?.map (·.done)).getD false

/-- A save ends: its file is there. -/
def finish (b : LMCLocalDiskBackend md R) (future : ℕ) : LMCLocalDiskBackend md R :=
  match b.saves[future]? with
  | none => b
  | some save =>
    if save.done then b
    else { b with saves := b.saves.set future { save with done := true }, files := b.files.set save.path save.rows }

/-- Give the buffer of a saved chunk back; `none` if the save is not done. -/
def reclaim (b : LMCLocalDiskBackend md R) (key : CacheEngineKey) : Option (LMCLocalDiskBackend md R) :=
  match b.futurePool.lookup key with
  | none => some b
  | some (future, kvObj) =>
    if b.isDone future then
      some { b with cpuMbufferpool := b.cpuMbufferpool.free kvObj, futurePool := b.futurePool.erase key }
    else none

/-- `get`. -/
def get (b : LMCLocalDiskBackend md R) (key : CacheEngineKey) :
    Except PyError (Option (List R) × LMCLocalDiskBackend md R) :=
  match b.dict.lookup key with
  | none => .ok (none, b)
  | some metadata =>
    match b.reclaim key with
    | none => .ok (none, b)
    | some b =>
      match b.files.lookup metadata.path with
      | none => .error (.exception "FileNotFoundError")
      | some kvChunk => .ok (some kvChunk, { b with dict := b.dict.moveToEnd key })

/-! ## Runs -/

/-- A call of `put_nonblocking` starts or goes on, a save ends, a chunk is read or evicted. -/
inductive Op (R : Type)
  | enter (id : ℕ) (key : CacheEngineKey) (kvChunk : List R)
  | resume (id : ℕ)
  | finish (future : ℕ)
  | get (key : CacheEngineKey)
  | evict (key : CacheEngineKey)

/-- The state after an operation. A call that is in progress is not started again, and what is not resident is not
evicted. -/
def step (b : LMCLocalDiskBackend md R) : Op R → Except PyError (LMCLocalDiskBackend md R)
  | .enter id key kvChunk => if id ∈ b.puts then .ok b else b.enter id key kvChunk
  | .resume id => b.resume id
  | .finish future => .ok (b.finish future)
  | .get key => (b.get key).map Prod.snd
  | .evict key => if key ∈ b.dict then b.remove key else .ok b

end LMCLocalDiskBackend

end FairCache
