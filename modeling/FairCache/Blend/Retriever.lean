import FairCache.Cache.Engine
import FairCache.Lib.Segments

/-!
# Retrieval for blending

The KV of a token is one key and one value for each layer, and a KV tensor is the list of its tokens; the two formats,
which differ in the order of the axes, are not told apart.

* `SPTBlendRetrieverTask` : the segments of a request and what the tasks answer; `waitForResult`, `result` : their
  reassembly;
* `newRequest` : the segments of a batch of prompts, each retrieved by the engine;
* `Reassembled` : what a result has to be.
-/

namespace FairCache.Blend

open Lib

/-- What leaves a call. -/
inductive RetrieverError
  | assertionError
  | valueError
  | typeError
  | attributeError
  | runtimeError
  | indexError
  deriving DecidableEq

/-- The KV of one token. -/
structure TokenKv (L : ℕ) (V : Type) where
  key : Vector V L
  value : Vector V L
  deriving DecidableEq

/-- Keys, or values, of consecutive tokens; `torch.empty` leaves those that nothing is written to undefined. -/
abbrev KvTensor (L : ℕ) (V : Type) := List (Option (Vector V L))

/-- The tuple that a task returns: the KV, which may be `()`, the mask, and its other elements. -/
structure TaskResult (L : ℕ) (V : Type) where
  kv : Option (List (TokenKv L V))
  retMask : List Bool
  others : List (List CacheEngineKey ⊕ List (Bool × List ClientId × ℕ))
  deriving DecidableEq

/-- `BlendRetrieverResult`. -/
structure BlendRetrieverResult (V : Type) where
  k : Option (List (Option V))
  v : Option (List (Option V))
  validMask : List ℕ
  originalPositions : List ℕ
  deriving DecidableEq

/-- `t[:n] = xs`, where one element is written to every place. -/
def assignPrefix {β : Type} (t : List β) (n : ℕ) (xs : List β) : Except RetrieverError (List β) :=
  let m := min n t.length
  if xs.length = m then .ok (xs ++ t.drop m)
  else match xs with
    | [x] => .ok (List.replicate m x ++ t.drop m)
    | _ => .error .runtimeError

/-- `torch.cat`. -/
def cat {β : Type} (tensors : List (List β)) : Except RetrieverError (List β) :=
  if tensors = [] then .error .runtimeError else .ok tensors.flatten

/-- `torch.tensor_split` at indices. -/
def tensorSplit {T : Type} (prompt : List T) (indices : List ℤ) : List (List T) :=
  List.zipWith (pySlice prompt) (0 :: indices) (indices ++ [(prompt.length : ℤ)])

variable {L : ℕ} {T V : Type}

/-- `kv, ret_mask = task.result()`. -/
def TaskResult.unpack (t : TaskResult L V) : Except RetrieverError (Option (List (TokenKv L V)) × List Bool) :=
  if t.others = [] then .ok (t.kv, t.retMask) else .error .valueError

/-- `_PrepareOutputTensor`. -/
def prepareOutputTensor (inputTensor : Option (List (TokenKv L V))) (realLength expectedLength : ℕ) :
    Except RetrieverError (Option (KvTensor L V) × Option (KvTensor L V)) :=
  if realLength = expectedLength then
    match inputTensor with
    -- a tuple has no index of several axes
    | none => .error .typeError
    | some rows => .ok (some (rows.map fun row => some row.key), some (rows.map fun row => some row.value))
  else if realLength = 0 then .ok (none, none)
  else match inputTensor with
    | none => .error .attributeError
    | some rows => do
      let retTensor ← assignPrefix (List.replicate expectedLength none) realLength (rows.map some)
      pure (some (retTensor.map (·.map (·.key))), some (retTensor.map (·.map (·.value))))

/-- The lists of `_wait_for_result`, and whether `update_shape` has been called. -/
structure Rebuilding (L : ℕ) (V : Type) where
  keys : List (Option (KvTensor L V))
  values : List (Option (KvTensor L V))
  validMasks : List (List ℕ)
  allPositions : List (List ℕ)
  hasShape : Bool

/-- `update_shape`, if something is retrieved. -/
def updateShape (kv : Option (List (TokenKv L V))) (length : ℕ) (hasShape : Bool) : Except RetrieverError Bool :=
  if 0 < length then
    match kv with
    | none => .error .attributeError
    | some _ => .ok true
  else .ok hasShape

/-- One round of the loop of `_wait_for_result`. -/
def waitSegment (st : Rebuilding L V) (p : List T × TaskResult L V) : Except RetrieverError (Rebuilding L V) := do
  let (kv, retMask) ← p.2.unpack
  let length := retMask.count true
  let hasShape ← updateShape kv length st.hasShape
  let (k, v) ← prepareOutputTensor kv length p.1.length
  let validMask ← assignPrefix (List.replicate p.1.length 0) length [1]
  let positions ← assignPrefix (List.replicate p.1.length 0) length (List.range length)
  pure
    { keys := st.keys ++ [k]
      values := st.values ++ [v]
      validMasks := st.validMasks ++ [validMask]
      allPositions := st.allPositions ++ [positions]
      hasShape := hasShape }

/-- A tensor, or one of undefined content in place of none. -/
def orPlaceholder (t : Option (KvTensor L V)) (length : ℕ) : KvTensor L V := t.getD (List.replicate length none)

/-- `t[layer_id]`, if there is a tensor. -/
def layerOf (t : Option (KvTensor L V)) (layerId : ℕ) : Except RetrieverError (Option (List (Option V))) :=
  match t with
  | none => .ok none
  | some rows => if h : layerId < L then .ok (some (rows.map (·.map (·[layerId])))) else .error .indexError

/-- `SPTBlendRetrieverTask`. -/
structure SPTBlendRetrieverTask (T : Type) (L : ℕ) (V : Type) where
  tokenSegments : List (List T)
  tasks : List (TaskResult L V)
  rebuiltKey : Option (KvTensor L V)
  rebuiltValue : Option (KvTensor L V)
  validMask : Option (List ℕ)
  rebuiltPositions : Option (List ℕ)

namespace SPTBlendRetrieverTask

/-- `__init__`. -/
def new (tokenSegments : List (List T)) (tasks : List (TaskResult L V)) :
    Except RetrieverError (SPTBlendRetrieverTask T L V) :=
  if tokenSegments.length = tasks.length then
    .ok
      { tokenSegments := tokenSegments
        tasks := tasks
        rebuiltKey := none
        rebuiltValue := none
        validMask := none
        rebuiltPositions := none }
  else .error .assertionError

/-- `_wait_for_result`. -/
def waitForResult (t : SPTBlendRetrieverTask T L V) : Except RetrieverError (SPTBlendRetrieverTask T L V) := do
  let st ← (t.tokenSegments.zip t.tasks).foldlM waitSegment ⟨[], [], [], [], false⟩
  let validMask ← cat st.validMasks
  let positions ← cat st.allPositions
  if st.hasShape then
    let lengths := t.tokenSegments.map List.length
    let keys ← cat (List.zipWith orPlaceholder st.keys lengths)
    let values ← cat (List.zipWith orPlaceholder st.values lengths)
    pure
      { t with
        rebuiltKey := some keys
        rebuiltValue := some values
        validMask := some validMask
        rebuiltPositions := some positions }
  else pure { t with validMask := some validMask, rebuiltPositions := some positions }

/-- `result`, with the task after it. -/
def result (t : SPTBlendRetrieverTask T L V) (layerId : ℕ) :
    Except RetrieverError (BlendRetrieverResult V × SPTBlendRetrieverTask T L V) := do
  let t ← if t.validMask = none then t.waitForResult else pure t
  match t.validMask, t.rebuiltPositions with
  | some validMask, some positions =>
    let k ← layerOf t.rebuiltKey layerId
    let v ← layerOf t.rebuiltValue layerId
    pure ({ k := k, v := v, validMask := validMask, originalPositions := positions }, t)
  | _, _ => .error .assertionError

end SPTBlendRetrieverTask

/-! ## Requests -/

section Request
variable {md : LMCacheMemPoolMetadata} {F : Type} [LinearOrder F] [Field F] [FloatMath F] (cfg : CacheConfig T)

/-- `return ret, ret_mask, retrieved_keys, retrieval_attribution`. -/
def TaskResult.ofRetrieved (a : Retrieved (TokenKv L V)) : TaskResult L V :=
  { kv := if a.retrievedKeys = [] then none else some a.kv
    retMask := a.retMask
    others := [.inl a.retrievedKeys, .inr a.retrievalAttribution] }

/-- The arguments of the retrieval of a segment. -/
def segmentArgs (clientIdCtx : Option ClientId) (tokens : List T) (clock : ℕ → F) : RetrieveArgs T F :=
  { tokens := tokens, mask := none, clientIdCtx := clientIdCtx, clock := clock }

/-- The tasks of the one worker: the segments are retrieved in their order. -/
def retrieveSegments (clientIdCtx : Option ClientId) (clock : ℕ → ℕ → F) :
    List (List T) → ℕ → LMCacheEngine md F (TokenKv L V) →
      List (Retrieved (TokenKv L V)) × LMCacheEngine md F (TokenKv L V)
  | [], _, s => ([], s)
  | tokens :: rest, i, s =>
    let (answer, s) := s.retrieve cfg (segmentArgs clientIdCtx tokens (clock i))
    let (answers, s) := retrieveSegments clientIdCtx clock rest (i + 1) s
    (answer :: answers, s)

/-- The arguments of `new_request`, with the context of the worker and the times that its retrievals record. -/
structure RequestArgs (T F : Type) where
  fullPrompts : List (List T)
  indices : List (List ℤ)
  clientIdCtx : Option ClientId
  clock : ℕ → ℕ → F

/-- `splitted_tokens`. -/
def RequestArgs.splittedTokens (a : RequestArgs T F) : List (List T) :=
  (List.zipWith tensorSplit a.fullPrompts a.indices).flatten

/-- `new_request`, with the engine after it. -/
def newRequest (s : LMCacheEngine md F (TokenKv L V)) (a : RequestArgs T F) :
    Except RetrieverError (SPTBlendRetrieverTask T L V × LMCacheEngine md F (TokenKv L V)) :=
  if a.fullPrompts.length = a.indices.length then do
    let (answers, s) := retrieveSegments cfg a.clientIdCtx a.clock a.splittedTokens 0 s
    let task ← SPTBlendRetrieverTask.new a.splittedTokens (answers.map .ofRetrieved)
    pure (task, s)
  else .error .assertionError

/-- `new_request(full_prompts, indices).result(layer_id)`. -/
def requestResult (s : LMCacheEngine md F (TokenKv L V)) (a : RequestArgs T F) (layerId : ℕ) :
    Except RetrieverError (BlendRetrieverResult V) := do
  let (task, _) ← newRequest cfg s a
  let (r, _) ← task.result layerId
  pure r

end Request

/-! ## Segments in place -/

/-- In the result of a layer the segment that starts at token `start` is in place. -/
structure SegmentInPlace (layerId : ℕ) (r : BlendRetrieverResult V) (start : ℕ) (segment : List T)
    (a : Retrieved (TokenKv L V)) : Prop where
  validMask : ∀ i < segment.length, r.validMask[start + i]? = some (if i < a.kv.length then 1 else 0)
  originalPositions : ∀ i < a.kv.length, r.originalPositions[start + i]? = some i
  k : ∀ i row, a.kv[i]? = some row → ∀ k, r.k = some k → k[start + i]? = some row.key[layerId]?
  v : ∀ i row, a.kv[i]? = some row → ∀ v, r.v = some v → v[start + i]? = some row.value[layerId]?

/-- A result reassembles the answers for the segments. -/
structure Reassembled (answers : List (List T × Retrieved (TokenKv L V))) (layerId : ℕ)
    (r : BlendRetrieverResult V) : Prop where
  length_validMask : r.validMask.length = (answers.map (·.1.length)).sum
  length_originalPositions : r.originalPositions.length = (answers.map (·.1.length)).sum
  kv : (∃ p ∈ answers, p.2.kv ≠ []) →
    ∃ k v, r.k = some k ∧ r.v = some v ∧ k.length = r.validMask.length ∧ v.length = r.validMask.length
  segments : ∀ before p after, answers = before ++ p :: after →
    SegmentInPlace layerId r (before.map (·.1.length)).sum p.1 p.2

end FairCache.Blend
