import FairCache.Blend.Selection

/-!
# Blending, layer by layer

Of the tensors the shapes are modelled; the encoders keep them.

* `CacheBlendImpl.blend` : the blend of one layer;
* `doBlend` : the retrieved tensors of a layer, the blend, and the metadata for the layers after it;
* `Forward`, `Forward.layer` : the tokens that go through the layers, and one layer.
-/

namespace FairCache.Blend

open Lib

/-- `shape`. -/
abbrev Shape := List ℕ

/-- `squeeze()`. -/
def Shape.squeeze (s : Shape) : Shape := s.filter (· ≠ 1)

/-- `xs[indexes]` of rows. -/
def gather {β : Type} (xs : List β) (indexes : List ℕ) : Except BlendError (List β) :=
  indexes.mapM fun i => match xs[i]? with
    | some x => .ok x
    | none => .error .indexError

/-- The shape of `t[indexes]`. -/
def Shape.gather (s : Shape) (indexes : List ℕ) : Except BlendError Shape :=
  match s with
  | [] => .error .indexError
  | rows :: dims => if ∀ i ∈ indexes, i < rows then .ok (indexes.length :: dims) else .error .indexError

/-- `convert_retrieved_kv_shape`. -/
def convertRetrievedKvShape (kOrV : Shape) : Except BlendError Shape :=
  match kOrV.squeeze with
  | [nt, nh, hs] => .ok [nt, nh * hs]
  | _ => .error .assertionError

/-- `BlendOutput`. -/
structure BlendOutput where
  q : Shape
  k : Shape
  v : Shape
  positions : List ℕ
  queryStartLoc : Option (List ℕ)

/-- `BlendRetrieverResult`. -/
structure RetrieverResult where
  k : Option Shape
  v : Option Shape
  validMask : List Bool
  isCpu : Bool

variable {α : Type} [LinearOrder α] [Zero α]

/-- `blend` of a layer. -/
def CacheBlendImpl.blend (E : CacheBlendImpl α) (T : TopK α) (layerId : ℕ) (rk rv : Shape) (validMask : List Bool)
    (isCpu : Bool) (fq fk fv : Shape) (diff : List α) (positions : List ℕ) (queryStartLoc : List ℕ) :
    Except BlendError (CacheBlendImpl α × BlendOutput) :=
  if isCpu = false then .error .assertionError
  else
    match layerId with
    | 0 => .ok (E, { q := fq, k := fk, v := fv, positions := positions, queryStartLoc := none })
    | 1 =>
      -- the assertions of `_select_tokens_all_queries`
      if fk ≠ rk ∨ fv ≠ rv then .error .assertionError
      else do
        let (E, locs) ← E.selectTokensAllQueries T validMask diff queryStartLoc
        let q ← fq.gather E.indexesInKv
        let positions ← gather positions E.indexesInKv
        pure (E, { q := q, k := fk, v := fv, positions := positions, queryStartLoc := some locs })
    | _ + 2 =>
      if fk.head? ≠ some E.indexesInKv.length then .error .assertionError
      else do
        -- what the fresh rows are written over has their shape
        let rowsK ← rk.gather E.indexesInKv
        let rowsV ← rv.gather E.indexesInKv
        if rowsK ≠ fk ∨ rowsV ≠ fv then .error .runtimeError
        else pure (E, { q := fq, k := rk, v := rv, positions := positions, queryStartLoc := none })

/-- `BlendMetadata`. -/
structure BlendMetadata (α : Type) where
  processedLayerCount : ℕ
  positions : List ℕ
  blendExecutor : CacheBlendImpl α
  selectedTokenIndices : Option (List ℤ)
  originalQueryStartLoc : Option (List ℕ)

/-- `AttentionMetadata`, of which the rest does not change. -/
structure AttnMetadata (α : Type) where
  queryStartLoc : List ℕ
  numPrefillTokens : ℕ
  blendMetadata : Option (BlendMetadata α)

/-- The end of `do_blend` : the metadata after the blend of a layer. -/
def updateMetadata (attn : AttnMetadata α) (m : BlendMetadata α) (fq : Shape) (E : CacheBlendImpl α) (out : BlendOutput) :
    Except BlendError (Shape × Shape × Shape × AttnMetadata α) :=
  let m := { m with blendExecutor := E, processedLayerCount := m.processedLayerCount + 1, positions := out.positions }
  if fq ≠ out.q then
    match out.queryStartLoc with
    | none => .error .assertionError
    | some locs =>
      let m := { m with selectedTokenIndices := some (selectedTokenIndices locs) }
      .ok (out.q, out.k, out.v,
        { attn with numPrefillTokens := out.positions.length, queryStartLoc := locs, blendMetadata := some m })
  else
    match out.queryStartLoc with
    | none => .ok (out.q, out.k, out.v, { attn with blendMetadata := some m })
    | some _ => .error .assertionError

/-- `do_blend` with the retrieval task of the request; `diff` is what the values of the layer come to. -/
def doBlend (T : TopK α) (result : ℕ → RetrieverResult) (fq fk fv : Shape) (diff : List α) (attn : AttnMetadata α) :
    Except BlendError (Shape × Shape × Shape × AttnMetadata α) :=
  match attn.blendMetadata with
  | none => .ok (fq, fk, fv, attn)
  | some m =>
    let original := m.originalQueryStartLoc.getD attn.queryStartLoc
    let m := { m with originalQueryStartLoc := some original }
    let retrieved := result m.processedLayerCount
    match retrieved.k, retrieved.v with
    | some k, some v => do
      let rk ← convertRetrievedKvShape k
      let rv ← convertRetrievedKvShape v
      let (E, out) ← m.blendExecutor.blend T m.processedLayerCount rk rv retrieved.validMask retrieved.isCpu fq fk fv diff
        m.positions original
      updateMetadata attn m fq E out
    | _, _ => .ok (fq, fk, fv, { attn with blendMetadata := some m })

/-- The tokens that go through the layers. -/
structure Forward (α : Type) where
  /-- The rows of the hidden states. -/
  rows : ℕ
  attn : AttnMetadata α

/-- What the layers are called with. -/
structure Model (α : Type) [LinearOrder α] where
  topK : TopK α
  result : ℕ → RetrieverResult
  qSize : ℕ
  kvSize : ℕ
  diff : List α

/-- One layer: the next one has the rows of the query tensor that comes out. -/
def Forward.layer (M : Model α) (s : Forward α) : Except BlendError (Forward α) := do
  let (q, _, _, attn) ← doBlend M.topK M.result [s.rows, M.qSize] [s.rows, M.kvSize] [s.rows, M.kvSize] M.diff s.attn
  pure { rows := q.headD 0, attn := attn }

end FairCache.Blend
