import FairCache.Cache.Engine
import Mathlib.Algebra.Order.Floor.Defs

/-!
# Retrieval for a batch

`lmcache_retrieve_kv` of the vLLM adapter, with blending off: it retrieves what is cached of every sequence of a batch
and books, for the scheduler, what each client is charged and credited. The KV rows that it injects and the model
input that it rebuilds are read by the model only, so of those the model keeps whether the input is rebuilt.

* `BatchSeq` : a sequence of a batch with its group's client; `RetrieveStatus` : the kind of the batch;
* `retrieveSeq` : the retrieval of one sequence; `SeqResult.charge`, `SeqResult.creditsIssued` : what it books;
* `retrieveLoop`, `lmcacheRetrieveKv` : the whole batch.
-/

namespace FairCache

open Lib

/-- `RetrieveStatus`. -/
inductive RetrieveStatus
  | prefill
  /-- not last chunk -/
  | chunkPrefill
  | chunkPrefillLast
  | none
  deriving DecidableEq

/-- A sequence of a batch: its tokens, its entry in `seq_lens`, the tokens that the model has to compute for it (the
step of `query_start_loc`), its group's client and its group's `preempted` mark. `clock` is what the retrieval records. -/
structure BatchSeq (T F : Type) where
  clientId : ClientId
  preempted : Option Bool
  tokenIds : List T
  seqLen : ℕ
  numRequiredTokens : ℕ
  clock : ℕ → F
  seqLen_le : seqLen ≤ tokenIds.length
  numRequiredTokens_le : numRequiredTokens ≤ seqLen

namespace BatchSeq

variable {T F : Type} (status : RetrieveStatus) (q : BatchSeq T F)

/-- `total_seq_len`. -/
def totalSeqLen : ℕ := if status = .chunkPrefill then q.seqLen else q.tokenIds.length

/-- `vllm_num_computed_tokens`. -/
def vllmNumComputedTokens : ℕ := q.totalSeqLen status - q.numRequiredTokens

/-- `token_mask` : what vLLM has computed is not retrieved. -/
def tokenMask : List Bool :=
  List.replicate (q.vllmNumComputedTokens status) false ++
    List.replicate (q.totalSeqLen status - q.vllmNumComputedTokens status) true

/-- The arguments of `engine.retrieve`. -/
def retrieveArgs : RetrieveArgs T F :=
  { tokens := q.tokenIds.take (q.totalSeqLen status), mask := some (q.tokenMask status)
    clientIdCtx := some q.clientId, clock := q.clock }

end BatchSeq

/-- What the loop knows of a sequence once `engine.retrieve` answered. -/
structure SeqResult (R : Type) where
  clientId : ClientId
  preempted : Option Bool
  totalSeqLen : ℕ
  vllmNumComputedTokens : ℕ
  retrieved : Retrieved R

/-- `int(round(x))` : the nearest integer, the even one of two. -/
def intRound {F : Type} [Field F] [LinearOrder F] [FloorRing F] (x : F) : ℤ :=
  if x - ⌊x⌋ < 1 / 2 then ⌊x⌋ else if 1 / 2 < x - ⌊x⌋ then ⌊x⌋ + 1 else if ⌊x⌋ % 2 = 0 then ⌊x⌋ else ⌊x⌋ + 1

/-- `PREFILL_WEIGHT_COST`. -/
def prefillWeightCost {F : Type} [Field F] : F := 1 / (10 : ℕ)

/-- `ETA_ATTRIBUTION`. -/
def etaAttribution {F : Type} [Field F] : F := 1

/-- `credit_per_old` for a block of which `tok` tokens count and which `k` clients share. -/
def creditPerOld {F : Type} [Field F] (tok k : ℕ) : F :=
  let cost := prefillWeightCost * (tok : F)
  etaAttribution * (cost / k - cost / ((k : F) + 1))

namespace SeqResult

variable {R : Type} (status : RetrieveStatus) (r : SeqResult R)

/-- `torch.sum(ret_token_mask)`. -/
def retrievedTokens : ℕ := r.retrieved.retMask.count true

/-- The call returns at this sequence: a chunk that is not cached as a whole. -/
def ReturnsEarly : Prop := status = .chunkPrefill ∧ r.vllmNumComputedTokens + r.retrievedTokens ≠ r.totalSeqLen

instance : Decidable (r.ReturnsEarly status) := inferInstanceAs (Decidable (_ ∧ _))

/-- The last token is recomputed: the sequence is cached as a whole and the batch needs its logits. -/
def RecomputesLast : Prop := status ≠ .chunkPrefill ∧ r.vllmNumComputedTokens + r.retrievedTokens = r.totalSeqLen

instance : Decidable (r.RecomputesLast status) := inferInstanceAs (Decidable (_ ∧ _))

/-- `lmc_num_computed_tokens`. -/
def lmcNumComputedTokens : ℤ := (r.retrievedTokens : ℤ) - if r.RecomputesLast status then 1 else 0

/-- `num_computed_tokens`. -/
def numComputedTokens : ℤ := (r.vllmNumComputedTokens : ℤ) + r.lmcNumComputedTokens status

/-- The retrieved blocks that the client did not share and others do. -/
def newShared : List (Bool × List ClientId × ℕ) :=
  r.retrieved.retrievalAttribution.filter fun (wasNew, oldClients, _) => wasNew && 0 < oldClients.length

section Booked
variable {F : Type} [Field F]

/-- `delta_hit_reduce`. -/
def deltaHitReduce : F := r.newShared.foldl (fun d (_, oldClients, tok) => d + (tok : F) / (oldClients.length + 1)) 0

/-- The credits that the sequence issues, one after the other. -/
def creditsIssued : List (ClientId × F) :=
  r.newShared.flatMap fun (_, oldClients, tok) => oldClients.map fun oldCid => (oldCid, creditPerOld tok oldClients.length)

/-- What the client is charged, as hit and as miss: nothing for a request that was preempted before. -/
def charge (F : Type) [Field F] [LinearOrder F] [FloorRing F] : Option (ℤ × ℤ) :=
  match r.preempted with
  | some _ => none
  | none =>
    if 0 < (r.deltaHitReduce : F) then
      let adjHit := r.numComputedTokens status - intRound (r.deltaHitReduce : F)
      some (adjHit, r.totalSeqLen - adjHit)
    else some (r.numComputedTokens status, r.totalSeqLen - r.numComputedTokens status)

end Booked

end SeqResult

/-- The variables of the loop. -/
structure Figures (F : Type) where
  /-- `{client_id: (hit_length, not_hit_length)}` -/
  prefillServed : Dict ClientId (ℤ × ℤ)
  credits : Dict ClientId F
  retrievedKeysList : List (List CacheEngineKey)
  numComputedTokensList : List ℤ
  lmcNumComputedTokensList : List ℤ
  numRequestNotFound : ℕ

/-- What the call returns besides the model input. -/
structure RetrieveAnswer (F : Type) where
  rebuilt : Bool
  skipsModel : Bool
  prefillServed : Option (Dict ClientId (ℤ × ℤ))
  retrievedKeysList : Option (List (List CacheEngineKey))
  credits : Option (Dict ClientId F)

namespace LMCacheAdapter

variable {md : LMCacheMemPoolMetadata} {T F R : Type} [LinearOrder F] [Field F]

/-- The start of the loop. -/
def noFigures (F : Type) : Figures F :=
  { prefillServed := ∅, credits := ∅, retrievedKeysList := [], numComputedTokensList := []
    lmcNumComputedTokensList := [], numRequestNotFound := 0 }

/-- `prefill_served[client_id] += [adj_hit, adj_miss]`. -/
def addServed (served : Dict ClientId (ℤ × ℤ)) (clientId : ClientId) (charge : Option (ℤ × ℤ)) :
    Dict ClientId (ℤ × ℤ) :=
  match charge with
  | none => served
  | some (adjHit, adjMiss) => served.upsert clientId fun v => ((v.getD 0).1 + adjHit, (v.getD 0).2 + adjMiss)

/-- `credits[old_cid] = credits.get(old_cid, 0) + credit_per_old`, for every credit. -/
def addCredits (credits : Dict ClientId F) (issued : List (ClientId × F)) : Dict ClientId F :=
  issued.foldl (fun credits (oldCid, credit) => credits.upsert oldCid fun v => v.getD 0 + credit) credits

variable [FloorRing F] (status : RetrieveStatus)

/-- The rest of the loop body, for a sequence at which the call does not return. -/
def book (figures : Figures F) (r : SeqResult R) : Figures F :=
  { prefillServed := addServed figures.prefillServed r.clientId (r.charge status F)
    credits := addCredits figures.credits r.creditsIssued
    retrievedKeysList := figures.retrievedKeysList ++ [r.retrieved.retrievedKeys]
    numComputedTokensList := figures.numComputedTokensList ++ [r.numComputedTokens status]
    lmcNumComputedTokensList := figures.lmcNumComputedTokensList ++ [r.lmcNumComputedTokens status]
    numRequestNotFound := figures.numRequestNotFound + if r.lmcNumComputedTokens status = 0 then 1 else 0 }

variable [FloatMath F] (cfg : CacheConfig T)

omit [FloorRing F] in
/-- `engine.retrieve` for a sequence. -/
def retrieveSeq (s : LMCacheEngine md F R) (q : BatchSeq T F) : SeqResult R × LMCacheEngine md F R :=
  let (retrieved, s') := s.retrieve cfg (q.retrieveArgs status)
  ({ clientId := q.clientId, preempted := q.preempted, totalSeqLen := q.totalSeqLen status
     vllmNumComputedTokens := q.vllmNumComputedTokens status, retrieved := retrieved }, s')

/-- The loop over the sequences of all groups; without figures the call returned early. -/
def retrieveLoop : LMCacheEngine md F R → Figures F → List (BatchSeq T F) →
    Option (Figures F) × LMCacheEngine md F R
  | s, figures, [] => (some figures, s)
  | s, figures, q :: qs =>
    let (r, s') := retrieveSeq status cfg s q
    if r.ReturnsEarly status then (none, s') else retrieveLoop s' (book status figures r) qs

/-- `lmcache_retrieve_kv`. -/
def lmcacheRetrieveKv (s : LMCacheEngine md F R) (batch : List (BatchSeq T F)) :
    RetrieveAnswer F × LMCacheEngine md F R :=
  match retrieveLoop status cfg s (noFigures F) batch with
  | (none, s') =>
    ({ rebuilt := false, skipsModel := false, prefillServed := none, retrievedKeysList := none, credits := none }, s')
  | (some figures, s') =>
    let skipsModel := decide (status = .chunkPrefill ∧ figures.numRequestNotFound = 0)
    ({ rebuilt := !skipsModel && decide (figures.numRequestNotFound < batch.length)
       skipsModel := skipsModel
       prefillServed := some figures.prefillServed
       retrievedKeysList := some figures.retrievedKeysList
       credits := if figures.credits = ∅ then none else some figures.credits }, s')

end LMCacheAdapter

end FairCache
