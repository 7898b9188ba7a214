import FairCache.Fair.Backend
import FairCache.Key
import FairCache.Lib.Chunks

/-!
# The cache engine

`LMCacheEngine` over the fair backend, in the vllm format. Tokens have type `T`; a KV tensor is the list of its token
rows, so the change between the nested tuple and the blob, which only regroups the layers, is not visible.

* `CacheConfig` : the chunk size, the fields of the keys and `_hash`;
* `prefixHash`, `sliceKvAt`, `makeChunksSkipExisting`, `makeChunks` : the chunks of a store and their keys; `lookup` : how
  many tokens are cached;
* `store`, `retrieve` : the operations; `step` : one of them, or an eviction, in a sequential run.
-/

namespace FairCache

open Lib

/-- The configuration of an engine. `hash tokens prefix_hash` stands for `_hash`, the digest of the prefix hash and
the tokens. -/
structure CacheConfig (T : Type) where
  chunkSize : ℕ
  chunkSize_pos : 0 < chunkSize
  modelName : String
  worldSize : ℤ
  workerId : ℤ
  hash : List T → String → String

namespace CacheConfig

variable {T R : Type} (cfg : CacheConfig T)

/-- `_make_key`. -/
def makeKey (chunkHash : String) : CacheEngineKey := ⟨"vllm", cfg.modelName, cfg.worldSize, cfg.workerId, chunkHash⟩

/-- `_get_init_hash`. -/
def getInitHash : String := ""

/-- `_chunk_tokens`. -/
def chunkTokens (tokens : List T) : List (List T) := chunks cfg.chunkSize tokens

/-- `_prefix_hash`. -/
def prefixHash (tokenChunks : List (List T)) (numSkipChunk : ℕ) : List String :=
  (prefixHashes cfg.hash getInitHash tokenChunks).drop numSkipChunk

/-- `torch.split` along the tokens: an empty tensor splits into one empty piece. -/
def split (kvTensors : List R) : List (List R) :=
  if kvTensors.isEmpty then [[]] else chunks cfg.chunkSize kvTensors

/-- `_slice_kv_at`. -/
def sliceKvAt (startIdx : ℕ) (kvTensors : List R) : List (List R) := cfg.split (kvTensors.drop startIdx)

/-- The keys of a list of tokens from a chunk on. -/
def keysFrom (tokens : List T) (numSkipChunk : ℕ) : List CacheEngineKey :=
  (cfg.prefixHash (cfg.chunkTokens tokens) numSkipChunk).map cfg.makeKey

end CacheConfig

/-- `len(mask) - torch.sum(mask)`. -/
def numSkipTok (mask : List Bool) : ℕ := mask.length - mask.count true

/-- The arguments of `store`, with the context it is called in and the times that its `i`-th put reads. -/
structure StoreArgs (T F R : Type) where
  tokens : List T
  kvTensors : List R
  kvTensorsMask : Option (List Bool)
  skipExisting : Bool
  blocking : Bool
  retrievedKeys : List CacheEngineKey
  clientIdCtx : Option ClientId
  requestType : Option String
  clock : ℕ → F × F

/-- The mask; without one every token is stored. -/
def StoreArgs.mask {T F R : Type} (a : StoreArgs T F R) : List Bool :=
  a.kvTensorsMask.getD (List.replicate a.tokens.length true)

/-- The arguments of `retrieve`, with the context it is called in and the times that it records. -/
structure RetrieveArgs (T F : Type) where
  tokens : List T
  mask : Option (List Bool)
  clientIdCtx : Option ClientId
  clock : ℕ → F

/-- What `retrieve` answers; the attribution of a chunk is whether the client is a new sharer, who the sharers were
and the tokens that count. -/
structure Retrieved (R : Type) where
  kv : List R
  retMask : List Bool
  retrievedKeys : List CacheEngineKey
  retrievalAttribution : List (Bool × List ClientId × ℕ)
  deriving DecidableEq

/-- The engine: its backend and the counters behind the logged hit rate. -/
structure LMCacheEngine (md : LMCacheMemPoolMetadata) (F R : Type) [LinearOrder F] where
  backend : LMCLocalFairBackend md CacheEngineKey F R
  hitTokensCount : ℤ
  missTokensCount : ℤ

namespace LMCacheEngine

variable {md : LMCacheMemPoolMetadata} {T F R : Type} [LinearOrder F]

/-- A freshly built engine. -/
def new (md : LMCacheMemPoolMetadata) (F R : Type) [LinearOrder F] : LMCacheEngine md F R :=
  { backend := .new md CacheEngineKey F R, hitTokensCount := 0, missTokensCount := 0 }

variable (cfg : CacheConfig T) (s : LMCacheEngine md F R)

/-! ## Stores -/

/-- The search for the first chunk that is not cached: its first token and its number. -/
def findMissing : List (String × ℕ) → ℕ → Option ℕ × ℕ
  | [], startChunkIdx => (none, startChunkIdx)
  | (chunkHash, idx) :: rest, startChunkIdx =>
    if s.backend.contains (cfg.makeKey chunkHash) then findMissing rest (startChunkIdx + 1)
    else (some idx, startChunkIdx)

/-- The loop of `lookup` over the hashes of the chunks. -/
def lookupFrom (totalTokenCnt : ℕ) : List String → ℕ → ℕ
  | [], currentTokenIdx => currentTokenIdx
  | chunkHash :: rest, currentTokenIdx =>
    if s.backend.contains (cfg.makeKey chunkHash) then
      lookupFrom totalTokenCnt rest (min (currentTokenIdx + cfg.chunkSize) totalTokenCnt)
    else currentTokenIdx

/-- `lookup` : how many tokens from the first one on are cached. -/
def lookup (tokens : List T) : ℕ := s.lookupFrom cfg tokens.length (cfg.prefixHash (cfg.chunkTokens tokens) 0) 0

/-- `_make_chunks_skip_existing`. -/
def makeChunksSkipExisting (tokens : List T) (kvTensors : List R) (numSkipPrefixChunk : ℕ) :
    List (String × List R) :=
  let chunkHashes := cfg.prefixHash (cfg.chunkTokens tokens) numSkipPrefixChunk
  match s.findMissing cfg (chunkHashes.zip (rangeStep kvTensors.length cfg.chunkSize)) 0 with
  | (none, _) => []
  | (some startTokenIdx, startChunkIdx) => (chunkHashes.drop startChunkIdx).zip (cfg.sliceKvAt startTokenIdx kvTensors)

/-- `_make_chunks`. -/
def makeChunks (tokens : List T) (kvTensors : List R) (numSkipPrefixChunk : ℕ) (skipExisting : Bool) :
    Except PyError (List (String × List R)) :=
  if skipExisting then .ok (s.makeChunksSkipExisting cfg tokens kvTensors numSkipPrefixChunk)
  else if numSkipPrefixChunk ≠ 0 then .error (.assertionError "num_skip_prefix_chunk == 0")
  else .ok ((cfg.prefixHash (cfg.chunkTokens tokens) 0).zip (cfg.sliceKvAt 0 kvTensors))

/-- The assertions of `store`. -/
def checkStore (a : StoreArgs T F R) : Except PyError Unit :=
  if a.tokens.length ≠ a.mask.length then .error (.assertionError "token length does not match mask length")
  else if numSkipTok a.mask ≠ numSkipTok a.mask / cfg.chunkSize * cfg.chunkSize then
    .error (.assertionError "Store KV mask should align to chunk size")
  else if a.tokens.length ≠ a.kvTensors.length + numSkipTok a.mask then
    .error (.assertionError "Number of tokens in the kv cache does not match the input tokens")
  else .ok ()

/-- The keys and the chunks that `store` hands to `batched_put`. -/
def chunksToPut (a : StoreArgs T F R) : Except PyError (List (CacheEngineKey × List R)) := do
  checkStore cfg a
  let chunkHashesAndKvs ← s.makeChunks cfg a.tokens a.kvTensors (numSkipTok a.mask / cfg.chunkSize) a.skipExisting
  return chunkHashesAndKvs.map fun (chunkHash, kvChunk) => (cfg.makeKey chunkHash, kvChunk)

variable [Field F] [FloatMath F]

/-- `batched_put` : the last chunk first. -/
def batchedPut (a : StoreArgs T F R) (b : LMCLocalFairBackend md CacheEngineKey F R)
    (keysAndChunks : List (CacheEngineKey × List R)) :
    Except PyError (LMCLocalFairBackend md CacheEngineKey F R) :=
  keysAndChunks.reverse.zipIdx.foldlM
    (fun b x => b.put a.clientIdCtx a.requestType x.1.1 x.1.2 a.blocking a.retrievedKeys none (a.clock x.2).1
      (a.clock x.2).2) b

/-- `store`. -/
def store (a : StoreArgs T F R) : Except PyError (LMCacheEngine md F R) := do
  let keysAndChunks ← s.chunksToPut cfg a
  let backend ← batchedPut a s.backend keysAndChunks
  return { s with backend := backend }

/-! ## Retrieval -/

omit [Field F] [FloatMath F] in
/-- `batched_get`. -/
def batchedGet (b : LMCLocalFairBackend md CacheEngineKey F R) (clientIdCtx : Option ClientId)
    (keys : List CacheEngineKey) : List (Option (List R)) :=
  keys.map fun key => if b.contains key then b.get clientIdCtx key else none

/-- The chunks up to the first that is missing, with their keys. -/
def upToMissing : List (CacheEngineKey × Option (List R)) → List (CacheEngineKey × List R)
  | (key, some chunk) :: rest => (key, chunk) :: upToMissing rest
  | _ => []

/-- The tokens that count for each retrieved chunk: the first may be partial. -/
def attributionTokens (attributionInfo : List (Bool × List ClientId)) (extraTokenLen : ℕ) :
    List (Bool × List ClientId × ℕ) :=
  attributionInfo.zipIdx.map fun ((wasNew, oldClients), i) =>
    (wasNew, oldClients, if i = 0 then cfg.chunkSize - extraTokenLen else cfg.chunkSize)

/-- The answer of `retrieve` for the retrieved chunks. -/
def concatenate (numTokens numSkipTok : ℕ) (retrieved : List (CacheEngineKey × List R))
    (attributionInfo : List (Bool × List ClientId)) : Retrieved R :=
  let numSkipChunk := numSkipTok / cfg.chunkSize
  let retMask := (List.replicate numTokens true).mapIdx fun i m => m && decide (numSkipTok ≤ i)
  match retrieved.map (·.2) with
  | [] =>
    { kv := [], retMask := retMask.map fun _ => false, retrievedKeys := retrieved.map (·.1)
      retrievalAttribution := [] }
  | chunk :: rest =>
    -- drop extra tokens in the first chunk
    let extraTokenLen := numSkipTok - numSkipChunk * cfg.chunkSize
    let ret := ((cfg.sliceKvAt extraTokenLen chunk).headD [] :: rest).flatten
    { kv := ret
      retMask := retMask.mapIdx fun i m => m && !decide (numSkipTok + ret.length ≤ i)
      retrievedKeys := retrieved.map (·.1)
      retrievalAttribution := attributionTokens cfg attributionInfo extraTokenLen }

/-- `retrieve`. -/
def retrieve (a : RetrieveArgs T F) : Retrieved R × LMCacheEngine md F R :=
  let numSkipTok := (a.mask.map numSkipTok).getD 0
  let keys := cfg.keysFrom a.tokens (numSkipTok / cfg.chunkSize)
  let retrieved := upToMissing (keys.zip (batchedGet s.backend a.clientIdCtx keys))
  let retrievedKeys := retrieved.map (·.1)
  let attributionInfo :=
    if retrievedKeys.length > 0 then s.backend.getAttributionInfo a.clientIdCtx retrievedKeys else []
  let answer := concatenate cfg a.tokens.length numSkipTok retrieved attributionInfo
  let missTokens : ℤ :=
    if retrieved.length = 0 then a.tokens.length else a.tokens.length - numSkipTok - answer.kv.length
  (answer,
    { backend := s.backend.updateAfterGet a.clientIdCtx retrievedKeys a.clock
      hitTokensCount := s.hitTokensCount + answer.kv.length
      missTokensCount := s.missTokensCount + missTokens })

/-! ## Runs -/

/-- One operation of a sequential run. -/
inductive Op (T F R : Type)
  | store (a : StoreArgs T F R)
  | evict (key : CacheEngineKey)
  | retrieve (a : RetrieveArgs T F)

/-- The state after an operation; an eviction is the backend's `remove`. -/
def step : LMCacheEngine md F R → Op T F R → Except PyError (LMCacheEngine md F R)
  | s, .store a => s.store cfg a
  | s, .evict key => .ok { s with backend := s.backend.remove key }
  | s, .retrieve a => .ok (s.retrieve cfg a).2

end LMCacheEngine

end FairCache
