import FairCache.Blend.Retriever
import FairCache.Cache.Retrieve

/-!
# What a request for blending returns

* `reassembled_of_pairs` : of tasks that return a pair the reassembly makes what it has to be, if no segment is empty;
  `reassembled_of_reaches` : so it would of the answers of an engine;
* `requestResult_eq` : what a request raises; `not_reassembles` : an answer of the engine is not a pair.
-/

namespace FairCache.Blend

open Lib

variable {L : ℕ} {T V : Type}

/-! ## Pairs

The reassembly behind the unpacking, for tasks that return a pair. -/

/-- The pair of an answer. -/
def TaskResult.pairOf (a : Retrieved (TokenKv L V)) : TaskResult L V :=
  { kv := if a.retrievedKeys = [] then none else some a.kv, retMask := a.retMask, others := [] }

/-- An answer for a segment that is not empty: as many tokens as its mask has ones, and at most those of the segment. -/
structure Answers (segment : List T) (a : Retrieved (TokenKv L V)) : Prop where
  ne_nil : segment ≠ []
  count_retMask : a.retMask.count true = a.kv.length
  length_kv_le : a.kv.length ≤ segment.length
  kv_of_no_key : a.retrievedKeys = [] → a.kv = []

theorem assignPrefix_eq {β : Type} (pad : β) {n : ℕ} {xs : List β} (h : xs.length ≤ n) :
    assignPrefix (List.replicate n pad) xs.length xs = .ok (xs.rightpad n pad) := by
  unfold assignPrefix
  rw [List.length_replicate, Nat.min_eq_left h, if_pos rfl, List.drop_replicate, List.rightpad]

/-- One element is written to every place. -/
theorem assignPrefix_singleton {β : Type} (pad x : β) {n m : ℕ} (h : m ≤ n) :
    assignPrefix (List.replicate n pad) m [x] = .ok ((List.replicate m x).rightpad n pad) := by
  unfold assignPrefix
  simp only [List.length_replicate, Nat.min_eq_left h, List.drop_replicate, List.rightpad, List.length_singleton]
  split_ifs with hone
  · rw [← hone, List.replicate_one]
  · rfl

/-- The keys, or the values, of an answer, with undefined ones up to the end of the segment. -/
def padded (part : TokenKv L V → Vector V L) (p : List T × Retrieved (TokenKv L V)) : KvTensor L V :=
  (p.2.kv.map fun row => some (part row)).rightpad p.1.length none

/-- **The output tensors are the answer's, with undefined rows up to the end of the segment.** -/
theorem prepareOutputTensor_eq {segment : List T} {a : Retrieved (TokenKv L V)} (h : Answers segment a) :
    ∃ k v, prepareOutputTensor (TaskResult.pairOf a).kv a.kv.length segment.length = .ok (k, v) ∧
      orPlaceholder k segment.length = padded (·.key) (segment, a) ∧
      orPlaceholder v segment.length = padded (·.value) (segment, a) := by
  have hpos := List.length_pos_iff.mpr h.ne_nil
  have hle := h.length_kv_le
  unfold prepareOutputTensor TaskResult.pairOf
  by_cases hkv : a.kv = []
  · have hne : ¬ a.kv.length = segment.length := by
      rw [hkv, List.length_nil]
      omega
    rw [if_neg hne, if_pos (by rw [hkv, List.length_nil])]
    refine ⟨none, none, rfl, ?_, ?_⟩ <;> simp [orPlaceholder, padded, hkv, List.rightpad]
  · have hkeys : ¬ a.retrievedKeys = [] := fun hk => hkv (h.kv_of_no_key hk)
    have hlen : ¬ a.kv.length = 0 := fun h0 => hkv (List.length_eq_zero_iff.mp h0)
    rw [if_neg hkeys]
    by_cases hfull : a.kv.length = segment.length
    · rw [if_pos hfull]
      refine ⟨_, _, rfl, ?_, ?_⟩ <;> simp [orPlaceholder, padded, List.rightpad, hfull]
    · have hassign := assignPrefix_eq none ((List.length_map some).trans_le hle)
      rw [List.length_map] at hassign
      rw [if_neg hfull, if_neg hlen]
      simp only [hassign]
      refine ⟨_, _, rfl, ?_, ?_⟩ <;> simp [orPlaceholder, padded, List.rightpad, Function.comp_def]

/-- There is a shape as soon as an answer has a token. -/
theorem updateShape_eq {segment : List T} {a : Retrieved (TokenKv L V)} (h : Answers segment a) (hasShape : Bool) :
    updateShape (TaskResult.pairOf a).kv a.kv.length hasShape = .ok (hasShape || decide (0 < a.kv.length)) := by
  unfold updateShape TaskResult.pairOf
  by_cases hpos : 0 < a.kv.length
  · have hkeys : ¬ a.retrievedKeys = [] := fun hk => by simp [h.kv_of_no_key hk] at hpos
    rw [if_pos hpos, if_neg hkeys, decide_eq_true hpos, Bool.or_true]
  · rw [if_neg hpos, decide_eq_false hpos, Bool.or_false]

/-- After a number of segments the lists hold what belongs to each. -/
structure Rebuilt (done : List (List T × Retrieved (TokenKv L V))) (st : Rebuilding L V) : Prop where
  keys : List.zipWith orPlaceholder st.keys (done.map (·.1.length)) = done.map (padded (·.key))
  values : List.zipWith orPlaceholder st.values (done.map (·.1.length)) = done.map (padded (·.value))
  length_keys : st.keys.length = done.length
  length_values : st.values.length = done.length
  validMasks : st.validMasks = done.map fun p => (List.replicate p.2.kv.length 1).rightpad p.1.length 0
  allPositions : st.allPositions = done.map fun p => (List.range p.2.kv.length).rightpad p.1.length 0
  hasShape : st.hasShape = done.any fun p => 0 < p.2.kv.length

/-- **One round of the loop.** -/
theorem waitSegment_rebuilt {done : List (List T × Retrieved (TokenKv L V))} {st : Rebuilding L V}
    (hst : Rebuilt done st) {p : List T × Retrieved (TokenKv L V)} (h : Answers p.1 p.2) :
    ∃ st', waitSegment st (p.1, TaskResult.pairOf p.2) = .ok st' ∧ Rebuilt (done ++ [p]) st' := by
  obtain ⟨k, v, hprepare, hk, hv⟩ := prepareOutputTensor_eq h
  have hmask := assignPrefix_singleton 0 1 h.length_kv_le
  have hpositions := assignPrefix_eq 0 (List.length_range.trans_le h.length_kv_le)
  rw [List.length_range] at hpositions
  have hshape := updateShape_eq h st.hasShape
  have hunpack : (TaskResult.pairOf p.2).unpack = .ok ((TaskResult.pairOf p.2).kv, p.2.retMask) := if_pos rfl
  have hwait : waitSegment st (p.1, TaskResult.pairOf p.2) = .ok
      { keys := st.keys ++ [k]
        values := st.values ++ [v]
        validMasks := st.validMasks ++ [(List.replicate p.2.kv.length 1).rightpad p.1.length 0]
        allPositions := st.allPositions ++ [(List.range p.2.kv.length).rightpad p.1.length 0]
        hasShape := st.hasShape || decide (0 < p.2.kv.length) } := by
    unfold waitSegment
    simp only [hunpack, h.count_retMask, hshape, hprepare, hmask, hpositions, bind, Except.bind]
    rfl
  refine ⟨_, hwait, ?_⟩
  constructor
  · rw [List.map_append, List.map_append, List.zipWith_append (by rw [hst.length_keys, List.length_map]), hst.keys]
    simpa using hk
  · rw [List.map_append, List.map_append, List.zipWith_append (by rw [hst.length_values, List.length_map]),
      hst.values]
    simpa using hv
  · simp [hst.length_keys]
  · simp [hst.length_values]
  · simp [hst.validMasks]
  · simp [hst.allPositions]
  · simp [hst.hasShape]

/-- The loop. -/
theorem foldlM_waitSegment_rebuilt {ps : List (List T × Retrieved (TokenKv L V))} (h : ∀ p ∈ ps, Answers p.1 p.2)
    {done : List (List T × Retrieved (TokenKv L V))} {st : Rebuilding L V} (hst : Rebuilt done st) :
    ∃ st', (ps.map fun p => (p.1, TaskResult.pairOf p.2)).foldlM waitSegment st = .ok st' ∧
      Rebuilt (done ++ ps) st' := by
  induction ps generalizing done st with
  | nil => exact ⟨st, rfl, by rwa [List.append_nil]⟩
  | cons p ps ih =>
    obtain ⟨st₁, hstep, hst₁⟩ := waitSegment_rebuilt hst (h p List.mem_cons_self)
    obtain ⟨st₂, hrest, hst₂⟩ := ih (fun q hq => h q (List.mem_cons_of_mem _ hq)) hst₁
    rw [List.append_assoc] at hst₂
    refine ⟨st₂, ?_, hst₂⟩
    rw [List.map_cons, List.foldlM_cons, hstep]
    exact hrest

section Pairs
variable {ps : List (List T × Retrieved (TokenKv L V))}

/-- The task of pairs. -/
def SPTBlendRetrieverTask.ofPairs (ps : List (List T × Retrieved (TokenKv L V))) : SPTBlendRetrieverTask T L V :=
  { tokenSegments := ps.map (·.1)
    tasks := ps.map fun p => TaskResult.pairOf p.2
    rebuiltKey := none
    rebuiltValue := none
    validMask := none
    rebuiltPositions := none }

theorem cat_map {α β : Type} {l : List α} (h : l ≠ []) (f : α → List β) : cat (l.map f) = .ok (l.map f).flatten :=
  if_neg fun hnil => h (List.map_eq_nil_iff.mp hnil)

/-- **What is rebuilt from pairs.** -/
theorem waitForResult_ofPairs (hne : ps ≠ []) (h : ∀ p ∈ ps, Answers p.1 p.2) :
    ∃ t, (SPTBlendRetrieverTask.ofPairs ps).waitForResult = .ok t ∧
      t.validMask = some (ps.map fun p => (List.replicate p.2.kv.length 1).rightpad p.1.length 0).flatten ∧
      t.rebuiltPositions = some (ps.map fun p => (List.range p.2.kv.length).rightpad p.1.length 0).flatten ∧
      if ps.any fun p => 0 < p.2.kv.length then
        t.rebuiltKey = some (ps.map (padded (·.key))).flatten ∧
          t.rebuiltValue = some (ps.map (padded (·.value))).flatten
      else t.rebuiltKey = none ∧ t.rebuiltValue = none := by
  have hstart : Rebuilt ([] : List (List T × Retrieved (TokenKv L V))) ⟨[], [], [], [], false⟩ :=
    ⟨rfl, rfl, rfl, rfl, rfl, rfl, rfl⟩
  obtain ⟨st, hloop, hst⟩ := foldlM_waitSegment_rebuilt h hstart
  rw [List.nil_append] at hst
  have hzip : (SPTBlendRetrieverTask.ofPairs ps).tokenSegments.zip (SPTBlendRetrieverTask.ofPairs ps).tasks =
      ps.map fun p => (p.1, TaskResult.pairOf p.2) := List.zip_map' ..
  have hlengths : (SPTBlendRetrieverTask.ofPairs ps).tokenSegments.map List.length = ps.map (·.1.length) :=
    List.map_map ..
  unfold SPTBlendRetrieverTask.waitForResult
  simp only [hzip, hloop, hst.validMasks, hst.allPositions, hlengths, hst.keys, hst.values, cat_map hne, bind,
    Except.bind, hst.hasShape]
  by_cases hany : (ps.any fun p => decide (0 < p.2.kv.length)) = true
  · rw [if_pos hany]
    exact ⟨_, rfl, rfl, rfl, by rw [if_pos hany]; exact ⟨rfl, rfl⟩⟩
  · rw [if_neg hany]
    exact ⟨_, rfl, rfl, rfl, by rw [if_neg hany]; exact ⟨rfl, rfl⟩⟩

/-- A layer of the rebuilt keys, or values. -/
theorem layerOf_some {rows : KvTensor L V} {layerId : ℕ} (h : layerId < L) :
    layerOf (some rows) layerId = .ok (some (rows.map (·.map (·[layerId])))) := dif_pos h

/-- The rows of a segment in a layer of what is rebuilt. -/
theorem getElem?_padded {part : TokenKv L V → Vector V L} (h : ∀ p ∈ ps, Answers p.1 p.2) {layerId : ℕ}
    (hlayer : layerId < L) {before after : List (List T × Retrieved (TokenKv L V))}
    {p : List T × Retrieved (TokenKv L V)} (hps : ps = before ++ p :: after) {i : ℕ} {row : TokenKv L V}
    (hrow : p.2.kv[i]? = some row) :
    ((ps.map (padded part)).flatten.map (·.map (·[layerId])))[(before.map (·.1.length)).sum + i]? =
      some (part row)[layerId]? := by
  have hmem : p ∈ ps := by
    rw [hps]
    exact List.mem_append_right _ List.mem_cons_self
  have hi : i < p.1.length := (List.getElem?_eq_some_iff.mp hrow).1.trans_le (h p hmem).length_kv_le
  have hle : ∀ q ∈ ps, (q.2.kv.map fun row => some (part row)).length ≤ q.1.length :=
    fun q hq => (List.length_map _).trans_le (h q hq).length_kv_le
  have hflat := getElem?_flatten_rightpad none hle hps hi
  rw [List.getElem?_map, hrow] at hflat
  rw [List.getElem?_map]
  refine (congrArg (Option.map _) hflat).trans ?_
  simp [hlayer]

theorem length_padded {part : TokenKv L V → Vector V L} (h : ∀ p ∈ ps, Answers p.1 p.2) :
    (ps.map (padded part)).flatten.length = (ps.map (·.1.length)).sum :=
  length_flatten_rightpad none fun q hq => (List.length_map _).trans_le (h q hq).length_kv_le

/-- The index vectors of a result, and its tensors if there are some, are made of the padded answers. -/
structure IsPadded (ps : List (List T × Retrieved (TokenKv L V))) {layerId : ℕ} (hlayer : layerId < L)
    (r : BlendRetrieverResult V) : Prop where
  validMask : r.validMask = (ps.map fun p => (List.replicate p.2.kv.length 1).rightpad p.1.length 0).flatten
  originalPositions :
    r.originalPositions = (ps.map fun p => (List.range p.2.kv.length).rightpad p.1.length 0).flatten
  kv : r.k = some ((ps.map (padded (·.key))).flatten.map (·.map (·[layerId]))) ∧
      r.v = some ((ps.map (padded (·.value))).flatten.map (·.map (·[layerId]))) ∨
    (∀ p ∈ ps, p.2.kv = []) ∧ r.k = none ∧ r.v = none

namespace IsPadded

variable {layerId : ℕ} {hlayer : layerId < L} {r : BlendRetrieverResult V}

/-- Such a result has every segment in place. -/
theorem segmentInPlace (hr : IsPadded ps hlayer r) (h : ∀ p ∈ ps, Answers p.1 p.2)
    {before after : List (List T × Retrieved (TokenKv L V))} {p : List T × Retrieved (TokenKv L V)}
    (hps : ps = before ++ p :: after) : SegmentInPlace layerId r (before.map (·.1.length)).sum p.1 p.2 := by
  have hmem : p ∈ ps := by
    rw [hps]
    exact List.mem_append_right _ List.mem_cons_self
  constructor
  · intro i hi
    have hones : ∀ p ∈ ps, (List.replicate p.2.kv.length 1).length ≤ p.1.length :=
      fun p hp => List.length_replicate.trans_le (h p hp).length_kv_le
    rw [hr.validMask, getElem?_flatten_rightpad 0 hones hps hi, List.getElem?_replicate]
    split_ifs <;> rfl
  · intro i hi
    have hcounts : ∀ p ∈ ps, (List.range p.2.kv.length).length ≤ p.1.length :=
      fun p hp => List.length_range.trans_le (h p hp).length_kv_le
    rw [hr.originalPositions, getElem?_flatten_rightpad 0 hcounts hps (hi.trans_le (h p hmem).length_kv_le),
      List.getElem?_range hi, Option.getD_some]
  · intro i row hrow k hk
    rcases hr.kv with ⟨hk', -⟩ | ⟨-, hk', -⟩
    · cases hk.symm.trans hk'
      exact getElem?_padded h hlayer hps hrow
    · cases hk.symm.trans hk'
  · intro i row hrow v hv
    rcases hr.kv with ⟨-, hv'⟩ | ⟨-, -, hv'⟩
    · cases hv.symm.trans hv'
      exact getElem?_padded h hlayer hps hrow
    · cases hv.symm.trans hv'

/-- And its vectors and tensors are as long as the segments together. -/
theorem reassembled (hr : IsPadded ps hlayer r) (h : ∀ p ∈ ps, Answers p.1 p.2) : Reassembled ps layerId r := by
  have hlen : r.validMask.length = (ps.map (·.1.length)).sum := by
    rw [hr.validMask]
    exact length_flatten_rightpad 0 fun p hp => List.length_replicate.trans_le (h p hp).length_kv_le
  constructor
  · exact hlen
  · rw [hr.originalPositions]
    exact length_flatten_rightpad 0 fun p hp => List.length_range.trans_le (h p hp).length_kv_le
  · rintro ⟨p, hp, hrows⟩
    rcases hr.kv with ⟨hk, hv⟩ | ⟨hnone, -⟩
    · refine ⟨_, _, hk, hv, ?_, ?_⟩
      · rw [List.length_map, length_padded h, hlen]
      · rw [List.length_map, length_padded h, hlen]
    · exact absurd (hnone p hp) hrows
  · intro before p after hps
    exact hr.segmentInPlace h hps

end IsPadded

/-- **Of pairs, and segments that are not empty, the reassembly makes what it has to be.** -/
theorem reassembled_of_pairs (hne : ps ≠ []) (h : ∀ p ∈ ps, Answers p.1 p.2) {layerId : ℕ} (hlayer : layerId < L) :
    ∃ r t, (SPTBlendRetrieverTask.ofPairs ps).result layerId = .ok (r, t) ∧ Reassembled ps layerId r := by
  obtain ⟨t, hwait, hmask, hpositions, hkv⟩ := waitForResult_ofPairs hne h
  have hresult : ∀ k v, layerOf t.rebuiltKey layerId = .ok k → layerOf t.rebuiltValue layerId = .ok v →
      (SPTBlendRetrieverTask.ofPairs ps).result layerId = .ok
        ({ k := k
           v := v
           validMask := (ps.map fun p => (List.replicate p.2.kv.length 1).rightpad p.1.length 0).flatten
           originalPositions := (ps.map fun p => (List.range p.2.kv.length).rightpad p.1.length 0).flatten }, t) := by
    intro k v hk hv
    unfold SPTBlendRetrieverTask.result
    rw [if_pos (show (SPTBlendRetrieverTask.ofPairs ps).validMask = none from rfl)]
    simp only [hwait, hmask, hpositions, hk, hv, bind, Except.bind]
    rfl
  by_cases hany : (ps.any fun p => decide (0 < p.2.kv.length)) = true
  · rw [if_pos hany] at hkv
    have hk := (congrArg (layerOf · layerId) hkv.1).trans (layerOf_some hlayer)
    have hv := (congrArg (layerOf · layerId) hkv.2).trans (layerOf_some hlayer)
    exact ⟨_, t, hresult _ _ hk hv, (⟨rfl, rfl, Or.inl ⟨rfl, rfl⟩⟩ : IsPadded ps hlayer _).reassembled h⟩
  · rw [if_neg hany] at hkv
    have hnone : ∀ p ∈ ps, p.2.kv = [] := by
      intro p hp
      by_contra hrows
      exact hany (List.any_eq_true.mpr ⟨p, hp, decide_eq_true (List.length_pos_iff.mpr hrows)⟩)
    have hk : layerOf t.rebuiltKey layerId = .ok none := by rw [hkv.1]; rfl
    have hv : layerOf t.rebuiltValue layerId = .ok none := by rw [hkv.2]; rfl
    exact ⟨_, t, hresult _ _ hk hv, (⟨rfl, rfl, Or.inr ⟨hnone, rfl, rfl⟩⟩ : IsPadded ps hlayer _).reassembled h⟩

end Pairs

/-! ## The answers of the engine -/

theorem length_tensorSplit (prompt : List T) (indices : List ℤ) :
    (tensorSplit prompt indices).length = indices.length + 1 := by
  unfold tensorSplit
  rw [List.length_zipWith, List.length_cons, List.length_append, List.length_singleton, Nat.min_self]

/-- There is a segment as soon as there is a prompt. -/
theorem splittedTokens_eq_nil_iff {F : Type} {a : RequestArgs T F} (h : a.fullPrompts.length = a.indices.length) :
    a.splittedTokens = [] ↔ a.fullPrompts = [] := by
  unfold RequestArgs.splittedTokens
  constructor
  · intro hnil
    cases hprompts : a.fullPrompts with
    | nil => rfl
    | cons prompt prompts =>
      cases hindices : a.indices with
      | nil => simp [hprompts, hindices] at h
      | cons indices rest =>
        rw [hprompts, hindices, List.zipWith_cons_cons, List.flatten_cons] at hnil
        have hlen := congrArg List.length (List.append_eq_nil_iff.mp hnil).1
        rw [length_tensorSplit, List.length_nil] at hlen
        omega
  · intro hnil
    rw [hnil, List.zipWith_nil_left, List.flatten_nil]

/-- An answer of the engine has four elements. -/
theorem unpack_ofRetrieved (answer : Retrieved (TokenKv L V)) :
    (TaskResult.ofRetrieved answer).unpack = .error .valueError := if_neg (List.cons_ne_nil _ _)

section Answers
variable {md : LMCacheMemPoolMetadata} {F : Type} [LinearOrder F] [Field F] [FloatMath F] (cfg : CacheConfig T)
  (s : LMCacheEngine md F (TokenKv L V)) (a : RequestArgs T F)

theorem length_retrieveSegments (clientIdCtx : Option ClientId) (clock : ℕ → ℕ → F) (segments : List (List T))
    (i : ℕ) (s : LMCacheEngine md F (TokenKv L V)) :
    (retrieveSegments cfg clientIdCtx clock segments i s).1.length = segments.length := by
  induction segments generalizing i s with
  | nil => rfl
  | cons tokens rest ih => exact congrArg (· + 1) (ih (i + 1) _)

theorem count_true_map_range {k n : ℕ} (h : k ≤ n) :
    ((List.range n).map fun i => decide (i < k)).count true = k := by
  obtain ⟨m, rfl⟩ := Nat.exists_eq_add_of_le h
  have hin : (List.range k).map (fun i => decide (i < k)) = List.replicate k true :=
    List.eq_replicate_iff.mpr ⟨by simp, by simp⟩
  have hout : ((List.range m).map (k + ·)).map (fun i => decide (i < k)) = List.replicate m false :=
    List.eq_replicate_iff.mpr ⟨by simp, by simp⟩
  rw [List.range_add, List.map_append, List.count_append, hin, hout, List.count_replicate_self]
  simp [List.count_replicate]

/-- Without a retrieved chunk there are no rows. -/
theorem kv_eq_nil_of_retrievedKeys {args : RetrieveArgs T F} (h : (s.retrieve cfg args).1.retrievedKeys = []) :
    (s.retrieve cfg args).1.kv = [] := by
  unfold LMCacheEngine.retrieve at h ⊢
  simp only [LMCacheEngine.concatenate_retrievedKeys] at h
  simp only [List.map_eq_nil_iff.mp h]
  rfl

/-- Without a mask the mask of the answer is that of a prefix. -/
theorem retrieve_retMask_none (tokens : List T) (clientIdCtx : Option ClientId) (clock : ℕ → F) :
    (s.retrieve cfg (segmentArgs clientIdCtx tokens clock)).1.retMask = (List.range tokens.length).map fun i =>
      decide (i < (s.retrieve cfg (segmentArgs clientIdCtx tokens clock)).1.kv.length) := by
  have hanswer := LMCacheEngine.concatenate_retMask (R := TokenKv L V) cfg tokens.length 0
  unfold LMCacheEngine.retrieve segmentArgs
  simp only [Option.map_none, Option.getD_none, hanswer, Nat.zero_le, true_and, Nat.zero_add]

section Reachable
variable {cfg s} (hinj : Function.Injective2 cfg.hash)
  (hinit : ∀ tokens prefixHash, cfg.hash tokens prefixHash ≠ CacheConfig.getInitHash)
  {ops : List (LMCacheEngine.Op T F (TokenKv L V))}
  (hrun : Reaches (LMCacheEngine.step cfg) (LMCacheEngine.new md F (TokenKv L V)) ops s)
include hinj hinit hrun

/-- **An engine that is reached answers a segment that is not empty with a prefix of it.** -/
theorem answers_retrieve {tokens : List T} (hne : tokens ≠ []) (clientIdCtx : Option ClientId) (clock : ℕ → F) :
    Answers tokens (s.retrieve cfg (segmentArgs clientIdCtx tokens clock)).1 := by
  have hmask : SuffixMask (none : Option (List Bool)) tokens.length 0 := Or.inr ⟨rfl, rfl⟩
  have hle : (s.retrieve cfg (segmentArgs clientIdCtx tokens clock)).1.kv.length ≤ tokens.length := by
    cases hc : activeClient clientIdCtx with
    | none =>
      have hkeys := LMCacheEngine.retrieve_retrievedKeys (s := s) cfg
        (a := segmentArgs clientIdCtx tokens clock) hmask
      rw [kv_eq_nil_of_retrievedKeys cfg s (hkeys.trans (by simp only [segmentArgs, hc]))]
      exact Nat.zero_le _
    | some c =>
      have hlen := LMCacheEngine.length_kv_retrieve cfg hinj hinit hrun
        (a := segmentArgs clientIdCtx tokens clock) hc hmask
        (List.length_pos_iff.mpr hne)
      rw [hlen]
      exact (Nat.sub_le _ _).trans (Nat.min_le_left _ _)
  refine ⟨hne, ?_, hle, kv_eq_nil_of_retrievedKeys cfg s⟩
  rw [retrieve_retMask_none]
  exact count_true_map_range hle

/-- **So it does for every segment of a request.** -/
theorem answers_retrieveSegments {segments : List (List T)} (hne : ∀ segment ∈ segments, segment ≠ [])
    (clientIdCtx : Option ClientId) (clock : ℕ → ℕ → F) (i : ℕ) :
    ∀ p ∈ segments.zip (retrieveSegments cfg clientIdCtx clock segments i s).1, Answers p.1 p.2 := by
  induction segments generalizing i s ops with
  | nil => intro p hp; cases hp
  | cons segment segments ih =>
    intro p hp
    have hanswers := answers_retrieve hinj hinit hrun (hne segment List.mem_cons_self) clientIdCtx (clock i)
    have hnext : Reaches (LMCacheEngine.step cfg) (LMCacheEngine.new md F (TokenKv L V))
        (ops ++ [.retrieve (segmentArgs clientIdCtx segment (clock i))])
        (s.retrieve cfg (segmentArgs clientIdCtx segment (clock i))).2 :=
      reaches_append.mpr ⟨s, hrun, rfl⟩
    rcases List.mem_cons.mp hp with rfl | hp
    · exact hanswers
    · exact ih hnext (fun q hq => hne q (List.mem_cons_of_mem _ hq)) (i + 1) p hp

/-- **If the tasks returned the KV and the mask alone, a request without an empty segment would be reassembled.** -/
theorem reassembled_of_reaches (a : RequestArgs T F) (hsegments : a.splittedTokens ≠ [])
    (hne : ∀ segment ∈ a.splittedTokens, segment ≠ []) {layerId : ℕ} (hlayer : layerId < L) :
    ∃ r t, (SPTBlendRetrieverTask.ofPairs (a.splittedTokens.zip
        (retrieveSegments cfg a.clientIdCtx a.clock a.splittedTokens 0 s).1)).result layerId = .ok (r, t) ∧
      Reassembled (a.splittedTokens.zip (retrieveSegments cfg a.clientIdCtx a.clock a.splittedTokens 0 s).1)
        layerId r := by
  refine reassembled_of_pairs ?_ (answers_retrieveSegments hinj hinit hrun hne _ _ _) hlayer
  intro hnil
  have hlen := congrArg List.length hnil
  rw [List.length_zip, length_retrieveSegments, Nat.min_self, List.length_nil] at hlen
  exact hsegments (List.length_eq_zero_iff.mp hlen)

end Reachable

/-- **The loop ends at the first segment.** -/
theorem foldlM_waitSegment_ofRetrieved {segments : List (List T)} {answers : List (Retrieved (TokenKv L V))}
    (hlen : segments.length = answers.length) (hne : segments ≠ []) (st : Rebuilding L V) :
    (segments.zip (answers.map TaskResult.ofRetrieved)).foldlM waitSegment st = .error .valueError := by
  cases segments with
  | nil => exact absurd rfl hne
  | cons segment segments =>
    cases answers with
    | nil => cases hlen
    | cons answer answers =>
      rw [List.map_cons, List.zip_cons_cons, List.foldlM_cons]
      unfold waitSegment
      simp only [unpack_ofRetrieved, bind, Except.bind]

/-- **What a request raises.** -/
theorem requestResult_eq (layerId : ℕ) :
    requestResult cfg s a layerId = .error
      (if a.fullPrompts.length ≠ a.indices.length then .assertionError
      else if a.fullPrompts = [] then .runtimeError else .valueError) := by
  unfold requestResult newRequest
  by_cases hlen : a.fullPrompts.length = a.indices.length
  · have htasks : a.splittedTokens.length =
        ((retrieveSegments cfg a.clientIdCtx a.clock a.splittedTokens 0 s).1.map TaskResult.ofRetrieved).length := by
      rw [List.length_map, length_retrieveSegments]
    rw [if_pos hlen, if_neg (not_not.mpr hlen)]
    simp only [SPTBlendRetrieverTask.new, if_pos htasks, bind, Except.bind, pure, Except.pure,
      SPTBlendRetrieverTask.result, if_true, SPTBlendRetrieverTask.waitForResult]
    by_cases hprompts : a.fullPrompts = []
    · rw [if_pos hprompts, (splittedTokens_eq_nil_iff hlen).mpr hprompts]
      rfl
    · have hne : a.splittedTokens ≠ [] := fun hnil => hprompts ((splittedTokens_eq_nil_iff hlen).mp hnil)
      rw [if_neg hprompts, foldlM_waitSegment_ofRetrieved (by rw [length_retrieveSegments]) hne]
  · rw [if_neg hlen, if_pos hlen]
    rfl

/-- The request returns, and its result reassembles what the engine answers for the segments. -/
def Reassembles (layerId : ℕ) : Prop :=
  ∃ r, requestResult cfg s a layerId = .ok r ∧
    Reassembled (a.splittedTokens.zip (retrieveSegments cfg a.clientIdCtx a.clock a.splittedTokens 0 s).1) layerId r

/-- **No request returns.** -/
theorem not_reassembles (layerId : ℕ) : ¬ Reassembles cfg s a layerId := by
  rintro ⟨r, hr, -⟩
  rw [requestResult_eq] at hr
  cases hr

end Answers

/-- A store of one chunk. -/
def oneChunkStored : StoreArgs ℕ ℚ (TokenKv 1 ℕ) :=
  { tokens := [1, 2]
    kvTensors := [⟨#v[10], #v[11]⟩, ⟨#v[20], #v[21]⟩]
    kvTensorsMask := none
    skipExisting := true
    blocking := true
    retrievedKeys := []
    clientIdCtx := some 1
    requestType := none
    clock := fun _ => (0, 0) }

/-- A prompt of the stored chunk and one more token. -/
def hitAndMiss : RequestArgs ℕ ℚ :=
  { fullPrompts := [[1, 2, 3]], indices := [[2]], clientIdCtx := some 1, clock := fun _ _ => 0 }

theorem hit_raises :
    ∃ s, Reaches (LMCacheEngine.step LMCacheEngine.twoTokens) (LMCacheEngine.new .threeChunks ℚ (TokenKv 1 ℕ))
        [.store oneChunkStored] s ∧
      (retrieveSegments LMCacheEngine.twoTokens (some 1) hitAndMiss.clock hitAndMiss.splittedTokens 0 s).1.map
        (·.kv.length) = [2, 0] ∧
      requestResult LMCacheEngine.twoTokens s hitAndMiss 0 = .error .valueError ∧
      ¬ Reassembles LMCacheEngine.twoTokens s hitAndMiss 0 := by
  have hrun : ∃ s, Reaches (LMCacheEngine.step LMCacheEngine.twoTokens)
        (LMCacheEngine.new .threeChunks ℚ (TokenKv 1 ℕ)) [.store oneChunkStored] s ∧
      (retrieveSegments LMCacheEngine.twoTokens (some 1) hitAndMiss.clock hitAndMiss.splittedTokens 0 s).1.map
        (·.kv.length) = [2, 0] ∧
      requestResult LMCacheEngine.twoTokens s hitAndMiss 0 = .error .valueError := by decide +kernel
  obtain ⟨s, hs, hkv, hraises⟩ := hrun
  refine ⟨s, hs, hkv, hraises, ?_⟩
  rintro ⟨r, hr, -⟩
  cases hraises.symm.trans hr

end FairCache.Blend
