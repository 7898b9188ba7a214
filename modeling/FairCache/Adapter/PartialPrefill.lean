import FairCache.Adapter.Attribution
import FairCache.Lib.Segments

/-!
# The rebuilt model input

Where `lmcache_retrieve_kv` found something, `build_partial_prefill_input` rebuilds the input of the model, so that only
what is not cached is computed. The tensors of the input are flat: every sequence has a region of them.

* `ModelInput`, `QuerySeq` : the input, and a sequence with its region of it;
* `gather`, `gatherLoop` : the loop of `lmcache_retrieve_kv` with what it gathers for the rebuilt input;
  `gatherLoop_figures` : its figures are those of `retrieveLoop`;
* `rebuildStep`, `buildPartialPrefillInput`, `retrieveInput` : the rebuilt input, and what the call returns as input;
* `PrefillBatch` : a batch of prompts and its input; `Rebuilds` : only what is not cached is left of every region;
  `retrieveInput_rebuilds` : it is.
-/

namespace FairCache

open Lib

/-- What the sampler reads: the query lengths of its groups, and the tokens whose logits are needed. -/
structure SamplingMetadata where
  queryLens : Option (List ℤ)
  selectedTokenIndices : List ℤ

/-- The input of the model. Slots have type `S`. -/
structure ModelInput (T S : Type) where
  inputTokens : List T
  inputPositions : List ℕ
  queryLens : List ℤ
  numPrefills : ℕ
  numPrefillTokens : ℤ
  slotMapping : List S
  maxQueryLen : ℤ
  blockTables : List (List ℕ)
  queryStartLoc : List ℤ
  contextLens : List ℤ
  /-- Only the driver has it. -/
  samplingMetadata : Option SamplingMetadata

/-- A sequence of a batch with its group's `is_prompt`, its block table and the slots of the tokens that the model has
to compute for it. -/
structure QuerySeq (T F S : Type) extends BatchSeq T F where
  isPrompt : Bool
  blockTable : List ℕ
  slots : List S
  numRequiredTokens_pos : 0 < numRequiredTokens
  slots_length : slots.length = numRequiredTokens

namespace QuerySeq

variable {T F S : Type} (q : QuerySeq T F S)

/-- The tokens that the model has to compute. -/
def queryTokens : List T := (q.tokenIds.take q.seqLen).drop (q.seqLen - q.numRequiredTokens)

/-- Their positions. -/
def queryPositions : List ℕ := List.range' (q.seqLen - q.numRequiredTokens) q.numRequiredTokens

end QuerySeq

/-- The tokens that are injected: those that are retrieved, less the last one if it is recomputed. -/
def SeqResult.cachedTokens {R : Type} (status : RetrieveStatus) (r : SeqResult R) : ℕ :=
  r.retrievedTokens - if r.RecomputesLast status then 1 else 0

/-- What the loop of `lmcache_retrieve_kv` gathers for the rebuilt input besides the figures; `injected` are the slots
that it names for the retrieved rows of every sequence. -/
structure Gathered (T S : Type) where
  fullTokensList : List (List T)
  startPosList : List ℕ
  isPrefillList : List Bool
  tempBlockTableList : List (List ℕ)
  nextStartPos : ℕ
  injected : List (List S)

/-- The lists of `build_partial_prefill_input`. -/
structure Rebuilt (T S : Type) where
  inputTokens : List (List T)
  inputPositions : List (List ℕ)
  queryLens : List ℤ
  numPrefills : ℕ
  numPrefillTokens : ℤ
  slotMapping : List (List S)
  maxQueryLen : ℤ
  blockTables : List (List ℕ)
  queryStartLoc : List ℤ
  contextLens : List ℤ
  selectedTokenIndices : List ℤ
  lastQueryStartLoc : ℤ

/-- What the call returns as input: the rebuilt one or, without one, the one it was given; and the injected slots. -/
structure InputAnswer (T S : Type) where
  rebuilt : Option (ModelInput T S)
  injected : List (List S)

/-- `torch.cat`. -/
def torchCat {α : Type} (tensors : List (List α)) : Except PyError (List α) :=
  if tensors = [] then .error (.runtimeError "torch.cat(): expected a non-empty list of Tensors") else .ok tensors.flatten

/-- `pad_sequence`. -/
def padSequence (tables : List (List ℕ)) : List (List ℕ) :=
  let width := (tables.map List.length).foldl max 0
  tables.map fun table => table ++ List.replicate (width - table.length) 0

namespace LMCacheAdapter

variable {md : LMCacheMemPoolMetadata} {T F R S : Type}

/-! ## The loop -/

section Loop
variable [LinearOrder F] [Field F] [FloatMath F] (status : RetrieveStatus) (cfg : CacheConfig T)

/-- The start of the loop. -/
def noneGathered (T S : Type) : Gathered T S :=
  { fullTokensList := [], startPosList := [], isPrefillList := [], tempBlockTableList := [], nextStartPos := 0
    injected := [] }

omit [LinearOrder F] [Field F] [FloatMath F] in
/-- What an iteration gathers. Nothing is injected where no token is left of what was retrieved. -/
def gather (slotMapping : List S) (g : Gathered T S) (q : QuerySeq T F S) (r : SeqResult R) : Gathered T S :=
  { fullTokensList := g.fullTokensList ++ [q.tokenIds.take (q.totalSeqLen status)]
    startPosList := g.startPosList ++ [g.nextStartPos]
    isPrefillList := g.isPrefillList ++ [q.isPrompt]
    tempBlockTableList := g.tempBlockTableList ++ [q.blockTable]
    nextStartPos := g.nextStartPos + q.numRequiredTokens
    injected := g.injected ++ [
      if r.lmcNumComputedTokens status = 0 then []
      else pySlice slotMapping g.nextStartPos (g.nextStartPos + r.lmcNumComputedTokens status)] }

variable [FloorRing F]

/-- The loop over the sequences of all groups, with what it gathers. -/
def gatherLoop (slotMapping : List S) : LMCacheEngine md F R → Figures F → Gathered T S → List (QuerySeq T F S) →
    Option (Figures F × Gathered T S) × LMCacheEngine md F R
  | s, figures, g, [] => (some (figures, g), s)
  | s, figures, g, q :: qs =>
    let (r, s') := retrieveSeq status cfg s q.toBatchSeq
    if r.ReturnsEarly status then (none, s')
    else gatherLoop slotMapping s' (book status figures r) (gather status slotMapping g q r) qs

end Loop

/-! ## The rebuilt input -/

/-- The start of the loop. -/
def nothingRebuilt (T S : Type) : Rebuilt T S :=
  { inputTokens := [], inputPositions := [], queryLens := [], numPrefills := 0, numPrefillTokens := 0, slotMapping := []
    maxQueryLen := 0, blockTables := [], queryStartLoc := [0], contextLens := [], selectedTokenIndices := []
    lastQueryStartLoc := 0 }

/-- The body of the loop over the sequences. -/
def rebuildStep (modelInput : ModelInput T S) (slotMappingFlat : List S) (b : Rebuilt T S) (tokenTensor : List T)
    (numComputedToken : ℤ) (startPos : ℕ) (lmcNumComputedTokens : ℤ) (isPrefill : Bool) (tempBlockTable : List ℕ) :
    Except PyError (Rebuilt T S) :=
  let numToken := tokenTensor.length
  let qLen := numToken - numComputedToken
  let startIdx := startPos + lmcNumComputedTokens
  if ¬ 0 < qLen then .error (.assertionError "q_len > 0")
  else if isPrefill = false ∧ qLen ≠ 1 then .error (.assertionError "q_len == 1")
  else
    .ok {
      inputTokens := b.inputTokens ++ [pySlice tokenTensor numComputedToken numToken]
      inputPositions := b.inputPositions ++ [pySlice modelInput.inputPositions startIdx (startIdx + qLen)]
      queryLens := b.queryLens ++ [qLen]
      numPrefills := b.numPrefills + if isPrefill then 1 else 0
      numPrefillTokens := b.numPrefillTokens + if isPrefill then qLen else 0
      slotMapping := b.slotMapping ++ [pySlice slotMappingFlat startIdx (startIdx + qLen)]
      maxQueryLen := max qLen b.maxQueryLen
      blockTables := b.blockTables ++ [tempBlockTable]
      queryStartLoc := b.queryStartLoc ++ [b.lastQueryStartLoc + qLen]
      contextLens := b.contextLens ++ [numComputedToken]
      selectedTokenIndices := b.selectedTokenIndices ++ [b.lastQueryStartLoc + qLen - 1]
      lastQueryStartLoc := b.lastQueryStartLoc + qLen }

/-- The loop: over `full_tokens_list`, with the entries of the other lists at the same place. -/
def rebuildLoop (modelInput : ModelInput T S) (slotMappingFlat : List S) :
    Rebuilt T S → List (List T) → List ℤ → List ℕ → List ℤ → List Bool → List (List ℕ) → Except PyError (Rebuilt T S)
  | b, [], _, _, _, _, _ => .ok b
  | b, tokens :: fullTokens, num :: nums, startPos :: starts, lmcNum :: lmcNums, isPrefill :: isPrefills, bt :: bts => do
    let b' ← rebuildStep modelInput slotMappingFlat b tokens num startPos lmcNum isPrefill bt
    rebuildLoop modelInput slotMappingFlat b' fullTokens nums starts lmcNums isPrefills bts
  | _, _ :: _, _, _, _, _, _ => .error .indexError

/-- `rebuilt_sampling_metadata` : `query_len` is set for the group of every sequence. -/
def rebuildSampling (b : Rebuilt T S) : Option SamplingMetadata → Except PyError (Option SamplingMetadata)
  | none => .ok none
  | some { queryLens := none, .. } => .ok (some { queryLens := none, selectedTokenIndices := b.selectedTokenIndices })
  | some { queryLens := some lens, .. } =>
    if lens.length < b.queryLens.length then .error .indexError
    else .ok (some { queryLens := some (b.queryLens ++ lens.drop b.queryLens.length)
                     selectedTokenIndices := b.selectedTokenIndices })

/-- `build_partial_prefill_input`. -/
def buildPartialPrefillInput (modelInput : ModelInput T S) (fullTokensList : List (List T))
    (numComputedTokensList : List ℤ) (startPosList : List ℕ) (slotMappingFlat : List S)
    (lmcNumComputedTokensList : List ℤ) (isPrefillList : List Bool) (tempBlockTableList : List (List ℕ)) :
    Except PyError (ModelInput T S) := do
  let b ← rebuildLoop modelInput slotMappingFlat (nothingRebuilt T S) fullTokensList numComputedTokensList startPosList
    lmcNumComputedTokensList isPrefillList tempBlockTableList
  let slotMapping ← torchCat b.slotMapping
  let samplingMetadata ← rebuildSampling b modelInput.samplingMetadata
  let inputTokens ← torchCat b.inputTokens
  let inputPositions ← torchCat b.inputPositions
  return { inputTokens, inputPositions, queryLens := b.queryLens, numPrefills := b.numPrefills
           numPrefillTokens := b.numPrefillTokens, slotMapping, maxQueryLen := b.maxQueryLen
           blockTables := padSequence b.blockTables, queryStartLoc := b.queryStartLoc, contextLens := b.contextLens
           samplingMetadata }

/-- What `lmcache_retrieve_kv` returns as input. -/
def retrieveInput [LinearOrder F] [Field F] [FloatMath F] [FloorRing F] (status : RetrieveStatus) (cfg : CacheConfig T)
    (s : LMCacheEngine md F R) (modelInput : ModelInput T S) (batch : List (QuerySeq T F S)) :
    Except PyError (InputAnswer T S) :=
  match (gatherLoop status cfg modelInput.slotMapping s (noFigures F) (noneGathered T S) batch).1 with
  | none => .ok { rebuilt := none, injected := [] }
  | some (figures, g) =>
    if status = .chunkPrefill ∧ figures.numRequestNotFound = 0 then .ok { rebuilt := none, injected := g.injected }
    else if figures.numRequestNotFound < batch.length then do
      let rebuilt ← buildPartialPrefillInput modelInput g.fullTokensList figures.numComputedTokensList g.startPosList
        modelInput.slotMapping figures.lmcNumComputedTokensList g.isPrefillList g.tempBlockTableList
      return { rebuilt := some rebuilt, injected := g.injected }
    else .ok { rebuilt := none, injected := g.injected }

end LMCacheAdapter

/-! ## One region -/

namespace QuerySeq

variable {T F S : Type} (q : QuerySeq T F S)

@[simp] theorem length_queryTokens : q.queryTokens.length = q.numRequiredTokens := by
  have hseq := q.seqLen_le
  have hrequired := q.numRequiredTokens_le
  unfold queryTokens
  rw [List.length_drop, List.length_take]
  omega

@[simp] theorem length_queryPositions : q.queryPositions.length = q.numRequiredTokens := List.length_range'

/-- The tokens of the region from the `c`-th on, as a slice of the sequence. -/
theorem pySlice_tokenIds (c : ℕ) :
    pySlice (q.tokenIds.take q.seqLen) ((q.seqLen - q.numRequiredTokens + c : ℕ) : ℤ) (q.tokenIds.take q.seqLen).length =
      q.queryTokens.drop c := by
  rw [pySlice_to_end, queryTokens, List.drop_drop]

end QuerySeq

namespace LMCacheAdapter

variable {md : LMCacheMemPoolMetadata} {T F R S : Type}

/-- How much is left of every region: `parts` are the sequences with the tokens of their regions that are cached. -/
def leftLens (parts : List (QuerySeq T F S × ℕ)) : List ℕ := parts.map fun x => x.1.numRequiredTokens - x.2

/-- The lists have grown by what is left of the regions, from the place `n` of the rebuilt region on. -/
structure AppendsRegions (b : Rebuilt T S) (n : ℕ) (parts : List (QuerySeq T F S × ℕ)) (b' : Rebuilt T S) : Prop where
  inputTokens : b'.inputTokens = b.inputTokens ++ parts.map fun x => x.1.queryTokens.drop x.2
  inputPositions : b'.inputPositions = b.inputPositions ++ parts.map fun x => x.1.queryPositions.drop x.2
  slotMapping : b'.slotMapping = b.slotMapping ++ parts.map fun x => x.1.slots.drop x.2
  queryLens : b'.queryLens.length = b.queryLens.length + parts.length
  queryStartLoc : b'.queryStartLoc = b.queryStartLoc ++ ((leftLens parts).scanl (· + ·) n).tail.map Nat.cast
  selectedTokenIndices : b'.selectedTokenIndices =
    b.selectedTokenIndices ++ ((leftLens parts).scanl (· + ·) n).tail.map fun stop : ℕ => (stop : ℤ) - 1

theorem AppendsRegions.nil (b : Rebuilt T S) (n : ℕ) : AppendsRegions (F := F) b n [] b :=
  ⟨by simp, by simp, by simp, rfl, by simp [leftLens], by simp [leftLens]⟩

theorem AppendsRegions.cons {b b₁ b₂ : Rebuilt T S} {n : ℕ} {x : QuerySeq T F S × ℕ} {parts : List (QuerySeq T F S × ℕ)}
    (h : AppendsRegions b n [x] b₁) (hrest : AppendsRegions b₁ (n + (x.1.numRequiredTokens - x.2)) parts b₂) :
    AppendsRegions b n (x :: parts) b₂ := by
  have hscan : ((leftLens (x :: parts)).scanl (· + ·) n).tail =
      ((leftLens [x]).scanl (· + ·) n).tail ++
        ((leftLens parts).scanl (· + ·) (n + (x.1.numRequiredTokens - x.2))).tail := by
    unfold leftLens
    rw [List.map_cons, List.scanl_cons, List.tail_cons, scanl_eq_cons_tail]
    simp
  refine ⟨?_, ?_, ?_, ?_, ?_, ?_⟩
  · rw [hrest.inputTokens, h.inputTokens, List.append_assoc]; rfl
  · rw [hrest.inputPositions, h.inputPositions, List.append_assoc]; rfl
  · rw [hrest.slotMapping, h.slotMapping, List.append_assoc]; rfl
  · rw [hrest.queryLens, h.queryLens, List.length_singleton, List.length_cons]; omega
  · rw [hrest.queryStartLoc, h.queryStartLoc, hscan, List.map_append, List.append_assoc]
  · rw [hrest.selectedTokenIndices, h.selectedTokenIndices, hscan, List.map_append, List.append_assoc]

/-- **The step for a sequence of which `c` tokens of its region are cached.** -/
theorem rebuildStep_ok {modelInput : ModelInput T S} {b : Rebuilt T S} {q : QuerySeq T F S} {c n : ℕ}
    (hc : c < q.numRequiredTokens) (hprompt : q.isPrompt = true) (hlast : b.lastQueryStartLoc = n)
    {prePositions postPositions : List ℕ} {preSlots postSlots : List S}
    (hpositions : modelInput.inputPositions = prePositions ++ q.queryPositions ++ postPositions)
    (hslots : modelInput.slotMapping = preSlots ++ q.slots ++ postSlots) (hlen : prePositions.length = preSlots.length) :
    ∃ b', rebuildStep modelInput modelInput.slotMapping b (q.tokenIds.take q.seqLen)
        ((q.seqLen - q.numRequiredTokens + c : ℕ) : ℤ) preSlots.length c q.isPrompt q.blockTable = .ok b' ∧
      AppendsRegions b n [(q, c)] b' ∧ b'.lastQueryStartLoc = (n + (q.numRequiredTokens - c) : ℕ) := by
  have hseq := q.seqLen_le
  have hrequired := q.numRequiredTokens_le
  have htokens : (q.tokenIds.take q.seqLen).length = q.seqLen := by
    rw [List.length_take]
    omega
  have hq : ((q.tokenIds.take q.seqLen).length : ℤ) - ((q.seqLen - q.numRequiredTokens + c : ℕ) : ℤ) =
      ((q.numRequiredTokens - c : ℕ) : ℤ) := by
    rw [htokens]
    omega
  have hstart : ((preSlots.length : ℤ) + (c : ℤ)) = ((preSlots.length + c : ℕ) : ℤ) := by omega
  have hstop : ((preSlots.length + c : ℕ) : ℤ) + ((q.numRequiredTokens - c : ℕ) : ℤ) =
      ((preSlots.length + q.numRequiredTokens : ℕ) : ℤ) := by omega
  have hpos : (0 : ℤ) < ((q.numRequiredTokens - c : ℕ) : ℤ) := by omega
  unfold rebuildStep
  simp only [hq, hstart, hstop]
  rw [if_neg (not_not.mpr hpos), if_neg (fun h => by rw [hprompt] at h; exact absurd h.1 (by decide))]
  refine ⟨_, rfl, ⟨?_, ?_, ?_, ?_, ?_, ?_⟩, ?_⟩
  · rw [q.pySlice_tokenIds]
    rfl
  · rw [hpositions, ← hlen, pySlice_segment _ _ _ (by rw [q.length_queryPositions])]
    rw [← q.length_queryPositions, List.take_length]
    rfl
  · rw [hslots, pySlice_segment _ _ _ (by rw [q.slots_length])]
    rw [← q.slots_length, List.take_length]
    rfl
  · simp
  · simp [leftLens, hlast]
  · simp [leftLens, hlast]
  · simp [hlast]

/-! ## The loop over the regions -/

/-- Where the regions start, if the first one starts at `n`. -/
def startsFrom (n : ℕ) : List (QuerySeq T F S) → List ℕ
  | [] => []
  | q :: qs => n :: startsFrom (n + q.numRequiredTokens) qs

/-- **The loop leaves of every region what is not cached.** -/
theorem rebuildLoop_ok {modelInput : ModelInput T S} {parts : List (QuerySeq T F S × ℕ)}
    (hparts : ∀ x ∈ parts, x.2 < x.1.numRequiredTokens ∧ x.1.isPrompt = true) :
    ∀ (prePositions : List ℕ) (preSlots : List S) {b : Rebuilt T S} {n : ℕ}, b.lastQueryStartLoc = n →
      prePositions.length = preSlots.length →
      modelInput.inputPositions = prePositions ++ parts.flatMap (·.1.queryPositions) →
      modelInput.slotMapping = preSlots ++ parts.flatMap (·.1.slots) →
      ∃ b', rebuildLoop modelInput modelInput.slotMapping b (parts.map fun x => x.1.tokenIds.take x.1.seqLen)
          (parts.map fun x => ((x.1.seqLen - x.1.numRequiredTokens + x.2 : ℕ) : ℤ))
          (startsFrom preSlots.length (parts.map (·.1))) (parts.map fun x => (x.2 : ℤ)) (parts.map (·.1.isPrompt))
          (parts.map (·.1.blockTable)) = .ok b' ∧
        AppendsRegions b n parts b' := by
  induction parts with
  | nil => intro _ _ b n _ _ _ _; exact ⟨b, rfl, .nil b n⟩
  | cons x parts ih =>
    intro prePositions preSlots b n hlast hlen hpositions hslots
    obtain ⟨hc, hprompt⟩ := hparts x List.mem_cons_self
    rw [List.flatMap_cons, ← List.append_assoc] at hpositions hslots
    obtain ⟨b₁, hstep, happends, hlast₁⟩ := rebuildStep_ok hc hprompt hlast hpositions hslots hlen
    have hlen₁ : (prePositions ++ x.1.queryPositions).length = (preSlots ++ x.1.slots).length := by
      rw [List.length_append, List.length_append, hlen, x.1.length_queryPositions, x.1.slots_length]
    obtain ⟨b₂, hloop, hrest⟩ := ih (fun y hy => hparts y (List.mem_cons_of_mem _ hy)) (prePositions ++ x.1.queryPositions)
      (preSlots ++ x.1.slots) hlast₁ hlen₁ hpositions hslots
    refine ⟨b₂, ?_, happends.cons hrest⟩
    rw [List.length_append, x.1.slots_length] at hloop
    simp only [List.map_cons, startsFrom, rebuildLoop]
    rw [hstep]
    exact hloop

/-! ## What is gathered -/

section Loop
variable [LinearOrder F] [Field F] [FloatMath F] {status : RetrieveStatus} {cfg : CacheConfig T}

/-- What `engine.retrieve` answers for the sequences of a batch, one after the other. -/
def results (status : RetrieveStatus) (cfg : CacheConfig T) (s : LMCacheEngine md F R) (qs : List (QuerySeq T F S)) :
    List (SeqResult R) :=
  (visits status cfg s (qs.map (·.toBatchSeq))).map (·.result status cfg)

omit [LinearOrder F] [Field F] [FloatMath F] in
/-- The slots that are injected into, if the first region starts at `n`. -/
def injectedFrom (status : RetrieveStatus) (slotMapping : List S) (n : ℕ) :
    List (QuerySeq T F S × SeqResult R) → List (List S)
  | [] => []
  | (q, r) :: xs =>
    (if r.lmcNumComputedTokens status = 0 then [] else pySlice slotMapping n (n + r.lmcNumComputedTokens status)) ::
      injectedFrom status slotMapping (n + q.numRequiredTokens) xs

omit [LinearOrder F] [Field F] [FloatMath F] in
theorem foldl_gather (slotMapping : List S) (xs : List (QuerySeq T F S × SeqResult R)) : ∀ g : Gathered T S,
    xs.foldl (fun g x => gather status slotMapping g x.1 x.2) g =
      { fullTokensList := g.fullTokensList ++ xs.map fun x => x.1.tokenIds.take (x.1.totalSeqLen status)
        startPosList := g.startPosList ++ startsFrom g.nextStartPos (xs.map (·.1))
        isPrefillList := g.isPrefillList ++ xs.map (·.1.isPrompt)
        tempBlockTableList := g.tempBlockTableList ++ xs.map (·.1.blockTable)
        nextStartPos := g.nextStartPos + (xs.map (·.1.numRequiredTokens)).sum
        injected := g.injected ++ injectedFrom status slotMapping g.nextStartPos xs } := by
  induction xs with
  | nil => intro g; simp [startsFrom, injectedFrom]
  | cons x xs ih =>
    intro g
    rw [List.foldl_cons, ih]
    simp [gather, startsFrom, injectedFrom, Nat.add_assoc]

variable [FloorRing F]

/-- The figures of the loop are those of `retrieveLoop`. -/
theorem gatherLoop_figures (slotMapping : List S) (qs : List (QuerySeq T F S)) :
    ∀ (s : LMCacheEngine md F R) (figures : Figures F) (g : Gathered T S),
      ((gatherLoop status cfg slotMapping s figures g qs).1.map (·.1), (gatherLoop status cfg slotMapping s figures g qs).2) =
        retrieveLoop status cfg s figures (qs.map (·.toBatchSeq)) := by
  induction qs with
  | nil => intro s figures g; rfl
  | cons q qs ih =>
    intro s figures g
    rw [List.map_cons, gatherLoop, retrieveLoop]
    dsimp only
    split
    · rfl
    · exact ih _ _ _

/-- What the loop gathers is gathered sequence by sequence, and it returns at none. -/
theorem gatherLoop_eq_some {slotMapping : List S} (qs : List (QuerySeq T F S)) :
    ∀ (s : LMCacheEngine md F R) (figures : Figures F) (g : Gathered T S) {figures' : Figures F} {g' : Gathered T S},
      (gatherLoop status cfg slotMapping s figures g qs).1 = some (figures', g') →
      g' = (qs.zip (results status cfg s qs)).foldl (fun g x => gather status slotMapping g x.1 x.2) g ∧
        (results status cfg s qs).length = qs.length ∧ ∀ r ∈ results status cfg s qs, ¬ r.ReturnsEarly status := by
  induction qs with
  | nil =>
    intro s figures g figures' g' h
    obtain ⟨-, rfl⟩ := Prod.mk.inj (Option.some.inj h)
    exact ⟨rfl, rfl, fun r hr => absurd hr List.not_mem_nil⟩
  | cons q qs ih =>
    intro s figures g figures' g' h
    rw [gatherLoop] at h
    dsimp only at h
    split at h
    · cases h
    · rename_i hearly
      have hresults : results status cfg s (q :: qs) = Visit.result status cfg ⟨s, q.toBatchSeq⟩ ::
          results status cfg (Visit.next status cfg ⟨s, q.toBatchSeq⟩) qs := by
        unfold results
        rw [List.map_cons, visits_of_not_early hearly]
        rfl
      obtain ⟨hg, hlen, hrest⟩ := ih _ _ _ h
      rw [hresults, List.zip_cons_cons, List.foldl_cons, List.length_cons, List.length_cons]
      refine ⟨hg, congrArg (· + 1) hlen, fun r hr => ?_⟩
      rcases List.mem_cons.mp hr with rfl | hr
      · exact hearly
      · exact hrest r hr

omit [FloatMath F] in
theorem foldl_book (status : RetrieveStatus) (rs : List (SeqResult R)) : ∀ figures : Figures F,
    (rs.foldl (book status) figures).numComputedTokensList =
        figures.numComputedTokensList ++ rs.map (·.numComputedTokens status) ∧
      (rs.foldl (book status) figures).lmcNumComputedTokensList =
        figures.lmcNumComputedTokensList ++ rs.map (·.lmcNumComputedTokens status) ∧
      (rs.foldl (book status) figures).numRequestNotFound =
        figures.numRequestNotFound + (rs.map fun r => if r.lmcNumComputedTokens status = 0 then 1 else 0).sum := by
  induction rs with
  | nil => intro figures; simp
  | cons r rs ih =>
    intro figures
    obtain ⟨hnum, hlmc, hnot⟩ := ih (book status figures r)
    rw [List.foldl_cons, hnum, hlmc, hnot]
    simp [book, Nat.add_assoc]

omit [FloorRing F] in
theorem retrievedTokens_le (status : RetrieveStatus) (cfg : CacheConfig T) (v : Visit md T F R) :
    (v.result status cfg).retrievedTokens ≤ v.seq.totalSeqLen status - v.seq.vllmNumComputedTokens status := by
  have hmask : (v.result status cfg).retrieved.retMask = _ :=
    LMCacheEngine.retrieve_retMask cfg (suffixMask_retrieveArgs status v.seq)
  rw [SeqResult.retrievedTokens, hmask, count_range_interval, length_retrieveArgs]
  omega

omit [FloorRing F] in
theorem mem_zip_results {qs : List (QuerySeq T F S)} : ∀ {s : LMCacheEngine md F R} {x : QuerySeq T F S × SeqResult R},
    x ∈ qs.zip (results status cfg s qs) →
      ∃ s' : LMCacheEngine md F R, x.2 = Visit.result status cfg ⟨s', x.1.toBatchSeq⟩ := by
  induction qs with
  | nil => intro s x hx; exact absurd hx List.not_mem_nil
  | cons q qs ih =>
    intro s x hx
    unfold results at hx
    rw [List.map_cons, visits, List.map_cons, List.zip_cons_cons] at hx
    rcases List.mem_cons.mp hx with rfl | hx
    · exact ⟨s, rfl⟩
    · split at hx
      · simp at hx
      · exact ih hx

omit [FloorRing F] in
/-- What is retrieved for a sequence whose region ends the tokens that count: never more than the region. -/
theorem cached_of_ends {q : QuerySeq T F S} (hends : q.totalSeqLen status = q.seqLen) (s : LMCacheEngine md F R) :
    let r := Visit.result status cfg ⟨s, q.toBatchSeq⟩
    r.cachedTokens status ≤ q.numRequiredTokens ∧ r.lmcNumComputedTokens status = r.cachedTokens status ∧
      r.numComputedTokens status = (q.seqLen - q.numRequiredTokens + r.cachedTokens status : ℕ) ∧
      (status ≠ .chunkPrefill → r.cachedTokens status < q.numRequiredTokens) ∧
      (status = .chunkPrefill → ¬ r.ReturnsEarly status → r.lmcNumComputedTokens status ≠ 0) := by
  intro r
  have hle := q.numRequiredTokens_le
  have hpos := q.numRequiredTokens_pos
  have hretrieved : r.retrievedTokens ≤ q.totalSeqLen status - q.vllmNumComputedTokens status :=
    retrievedTokens_le status cfg ⟨s, q.toBatchSeq⟩
  have hvllm : r.vllmNumComputedTokens = q.seqLen - q.numRequiredTokens := by
    change q.totalSeqLen status - q.numRequiredTokens = _
    rw [hends]
  have htotal : r.totalSeqLen = q.seqLen := hends
  have hrequired : r.retrievedTokens ≤ q.numRequiredTokens := by
    unfold BatchSeq.vllmNumComputedTokens at hretrieved
    omega
  have hlast : r.RecomputesLast status ↔ status ≠ .chunkPrefill ∧ r.retrievedTokens = q.numRequiredTokens := by
    unfold SeqResult.RecomputesLast
    rw [hvllm, htotal]
    exact and_congr_right fun _ => by omega
  have hearly : r.ReturnsEarly status ↔ status = .chunkPrefill ∧ r.retrievedTokens ≠ q.numRequiredTokens := by
    unfold SeqResult.ReturnsEarly
    rw [hvllm, htotal]
    exact and_congr_right fun _ => by omega
  unfold SeqResult.numComputedTokens SeqResult.lmcNumComputedTokens SeqResult.cachedTokens
  rw [hvllm]
  by_cases h : r.RecomputesLast status
  · have hall := (hlast.mp h).2
    rw [if_pos h, if_pos h]
    exact ⟨by omega, by omega, by omega, fun _ => by omega, fun hchunk => absurd hchunk (hlast.mp h).1⟩
  · rw [if_neg h, if_neg h]
    refine ⟨by omega, by omega, by omega, fun hchunk => ?_, fun hchunk hnot => ?_⟩
    · have hne : r.retrievedTokens ≠ q.numRequiredTokens := fun heq => h (hlast.mpr ⟨hchunk, heq⟩)
      omega
    · have heq : r.retrievedTokens = q.numRequiredTokens := by
        by_contra hne
        exact hnot (hearly.mpr ⟨hchunk, hne⟩)
      omega

omit [LinearOrder F] [Field F] [FloatMath F] [FloorRing F] in
/-- Of every region the slots before what is left of it are injected into. -/
theorem injectedFrom_eq {slotMapping : List S} {xs : List (QuerySeq T F S × SeqResult R)}
    (hxs : ∀ x ∈ xs, x.2.cachedTokens status ≤ x.1.numRequiredTokens ∧
      x.2.lmcNumComputedTokens status = x.2.cachedTokens status) :
    ∀ (pre : List S), slotMapping = pre ++ xs.flatMap (·.1.slots) →
      injectedFrom status slotMapping pre.length xs = xs.map fun x => x.1.slots.take (x.2.cachedTokens status) := by
  induction xs with
  | nil => intro pre _; rfl
  | cons x xs ih =>
    intro pre hslots
    obtain ⟨hle, hlmc⟩ := hxs x List.mem_cons_self
    rw [List.flatMap_cons, ← List.append_assoc] at hslots
    have hrest := ih (fun y hy => hxs y (List.mem_cons_of_mem _ hy)) (pre ++ x.1.slots) hslots
    rw [List.length_append, x.1.slots_length] at hrest
    rw [List.map_cons, ← hrest]
    refine congrArg (· :: _) ?_
    rw [hlmc, hslots]
    split_ifs with hzero
    · rw [Int.natCast_eq_zero.mp hzero, List.take_zero]
    · have hslice := pySlice_segment pre x.1.slots (xs.flatMap (·.1.slots)) (a := 0)
        (show x.2.cachedTokens status ≤ x.1.slots.length by rw [x.1.slots_length]; exact hle)
      rw [Nat.add_zero, List.drop_zero, Int.natCast_add] at hslice
      exact hslice

end Loop

/-! ## Batches of prompts -/

/-- A prompt whose tokens that count end with its region: in a prefill batch the prompt ends in the batch. -/
structure PrefillSeq (status : RetrieveStatus) (T F S : Type) extends QuerySeq T F S where
  isPrompt_eq : isPrompt = true
  ends : toQuerySeq.toBatchSeq.totalSeqLen status = seqLen

/-- A batch of prompts of any lengths, and the input that holds their regions one after the other. -/
structure PrefillBatch (status : RetrieveStatus) (T F S : Type) where
  seqs : List (PrefillSeq status T F S)
  modelInput : ModelInput T S
  inputTokens_eq : modelInput.inputTokens = seqs.flatMap (·.queryTokens)
  inputPositions_eq : modelInput.inputPositions = seqs.flatMap (·.queryPositions)
  slotMapping_eq : modelInput.slotMapping = seqs.flatMap (·.slots)
  groups : ∀ m ∈ modelInput.samplingMetadata, ∀ lens ∈ m.queryLens, lens.length = seqs.length

/-- The sequences. -/
def PrefillBatch.queries {status : RetrieveStatus} (b : PrefillBatch status T F S) : List (QuerySeq T F S) :=
  b.seqs.map (·.toQuerySeq)

/-- What is flattened over the sequences, with something else known of each. -/
theorem PrefillBatch.flatMap_seqs {status : RetrieveStatus} {α β : Type} {b : PrefillBatch status T F S}
    {xs : List (QuerySeq T F S × β)} (h : xs.map (·.1) = b.queries) (f : QuerySeq T F S → List α) :
    b.seqs.flatMap (fun p => f p.toQuerySeq) = xs.flatMap fun x => f x.1 := by
  calc b.seqs.flatMap (fun p => f p.toQuerySeq)
      = b.queries.flatMap f := by rw [PrefillBatch.queries, List.flatMap_map]
    _ = (xs.map (·.1)).flatMap f := by rw [h]
    _ = xs.flatMap fun x => f x.1 := by rw [List.flatMap_map]

/-- The rebuilt input computes what is left of every region and nothing else, where `parts` are the sequences with the
tokens of their regions that are cached. -/
structure Rebuilds (parts : List (QuerySeq T F S × ℕ)) (injectedSlots : List (List S)) (rebuilt : ModelInput T S) : Prop where
  left : ∀ x ∈ parts, x.2 < x.1.numRequiredTokens
  inputTokens : rebuilt.inputTokens = parts.flatMap fun x => x.1.queryTokens.drop x.2
  inputPositions : rebuilt.inputPositions = parts.flatMap fun x => x.1.queryPositions.drop x.2
  slotMapping : rebuilt.slotMapping = parts.flatMap fun x => x.1.slots.drop x.2
  injected : injectedSlots = parts.map fun x => x.1.slots.take x.2
  /-- The injected slots and the rebuilt ones are the region. -/
  partition : List.zipWith (· ++ ·) injectedSlots (parts.map fun x => x.1.slots.drop x.2) = parts.map (·.1.slots)
  queryStartLoc : rebuilt.queryStartLoc = (offsets (leftLens parts)).map Nat.cast
  /-- The selected indices are those of the last tokens. -/
  selected : ∀ m ∈ rebuilt.samplingMetadata,
    m.selectedTokenIndices = (offsets (leftLens parts)).tail.map (fun stop : ℕ => (stop : ℤ) - 1) ∧
      m.selectedTokenIndices.map (fun i => rebuilt.inputTokens[i.toNat]?) = parts.map (·.1.queryTokens.getLast?)

theorem leftLens_eq (parts : List (QuerySeq T F S × ℕ)) :
    leftLens parts = (parts.map fun x => x.1.queryTokens.drop x.2).map List.length := by
  unfold leftLens
  rw [List.map_map]
  refine List.map_congr_left fun x _ => ?_
  rw [Function.comp_apply, List.length_drop, QuerySeq.length_queryTokens]

theorem torchCat_of_ne_nil {α : Type} {tensors : List (List α)} (h : tensors ≠ []) :
    torchCat tensors = .ok tensors.flatten := if_neg h

theorem rebuildSampling_ok {b : Rebuilt T S} {sampling : Option SamplingMetadata}
    (hgroups : ∀ m ∈ sampling, ∀ lens ∈ m.queryLens, b.queryLens.length = lens.length) :
    ∃ rebuilt, rebuildSampling b sampling = .ok rebuilt ∧
      ∀ m ∈ rebuilt, m.selectedTokenIndices = b.selectedTokenIndices := by
  unfold rebuildSampling
  split
  · exact ⟨none, rfl, fun m hm => absurd hm (by simp)⟩
  · exact ⟨_, rfl, fun m hm => by rw [← Option.some.inj hm]⟩
  · rename_i lens _
    have hlen := hgroups _ rfl lens rfl
    rw [if_neg (by omega)]
    exact ⟨_, rfl, fun m hm => by rw [← Option.some.inj hm]⟩

/-- **The input is rebuilt from the regions.** -/
theorem buildPartialPrefillInput_rebuilds (modelInput : ModelInput T S) {parts : List (QuerySeq T F S × ℕ)}
    (hne : parts ≠ []) (hparts : ∀ x ∈ parts, x.2 < x.1.numRequiredTokens ∧ x.1.isPrompt = true)
    (hpositions : modelInput.inputPositions = parts.flatMap (·.1.queryPositions))
    (hslots : modelInput.slotMapping = parts.flatMap (·.1.slots))
    (hgroups : ∀ m ∈ modelInput.samplingMetadata, ∀ lens ∈ m.queryLens, lens.length = parts.length) :
    ∃ rebuilt, buildPartialPrefillInput modelInput (parts.map fun x => x.1.tokenIds.take x.1.seqLen)
        (parts.map fun x => ((x.1.seqLen - x.1.numRequiredTokens + x.2 : ℕ) : ℤ)) (startsFrom 0 (parts.map (·.1)))
        modelInput.slotMapping (parts.map fun x => (x.2 : ℤ)) (parts.map (·.1.isPrompt))
        (parts.map (·.1.blockTable)) = .ok rebuilt ∧
      Rebuilds parts (parts.map fun x => x.1.slots.take x.2) rebuilt := by
  obtain ⟨b, hloop, happends⟩ := rebuildLoop_ok (n := 0) hparts [] []
    (show (nothingRebuilt T S).lastQueryStartLoc = ((0 : ℕ) : ℤ) from rfl) rfl hpositions hslots
  have htokens : b.inputTokens = parts.map fun x => x.1.queryTokens.drop x.2 := happends.inputTokens
  have hpos : b.inputPositions = parts.map fun x => x.1.queryPositions.drop x.2 := happends.inputPositions
  have hmapping : b.slotMapping = parts.map fun x => x.1.slots.drop x.2 := happends.slotMapping
  have hselected : b.selectedTokenIndices = (offsets (leftLens parts)).tail.map fun stop : ℕ => (stop : ℤ) - 1 :=
    happends.selectedTokenIndices
  have hlens : b.queryLens.length = parts.length := happends.queryLens.trans (Nat.zero_add _)
  obtain ⟨sm, hsm, hsmSelected⟩ := rebuildSampling_ok (b := b) (fun m hm lens hl => hlens.trans (hgroups m hm lens hl).symm)
  have hmapNe : ∀ {α : Type} (f : QuerySeq T F S × ℕ → α), parts.map f ≠ [] := fun f => mt List.map_eq_nil_iff.mp hne
  unfold buildPartialPrefillInput
  rw [List.length_nil] at hloop
  rw [hloop]
  dsimp only [bind, Except.bind]
  rw [hmapping, htokens, hpos, torchCat_of_ne_nil (hmapNe _), torchCat_of_ne_nil (hmapNe _),
    torchCat_of_ne_nil (hmapNe _)]
  dsimp only
  rw [hsm]
  refine ⟨_, rfl, fun x hx => (hparts x hx).1, ?_, ?_, ?_, rfl, ?_, ?_, fun m hm => ?_⟩
  · exact List.flatMap_def.symm
  · exact List.flatMap_def.symm
  · exact List.flatMap_def.symm
  · rw [List.zipWith_map, List.zipWith_self]
    exact List.map_congr_left fun x _ => List.take_append_drop _ _
  · refine happends.queryStartLoc.trans ?_
    unfold offsets
    conv_rhs => rw [scanl_eq_cons_tail]
    rfl
  · have hm' := hsmSelected m hm
    rw [hselected] at hm'
    refine ⟨hm', ?_⟩
    have hlast := getElem?_offsets_pred (parts.map fun x => x.1.queryTokens.drop x.2) (by
      intro seg hseg
      obtain ⟨x, hx, rfl⟩ := List.mem_map.mp hseg
      rw [Ne, ← List.length_eq_zero_iff, List.length_drop, QuerySeq.length_queryTokens]
      have := (hparts x hx).1
      omega)
    rw [← leftLens_eq, List.map_map] at hlast
    rw [hm', List.map_map]
    refine Eq.trans (List.map_congr_left fun stop _ => ?_) (hlast.trans (List.map_congr_left fun x hx => ?_))
    · change _[((stop : ℤ) - 1).toNat]? = _
      rw [show ((stop : ℤ) - 1).toNat = stop - 1 by omega]
    · have := (hparts x hx).1
      rw [Function.comp_apply, List.getLast?_drop, QuerySeq.length_queryTokens, if_neg (by omega)]

section Call
variable [LinearOrder F] [Field F] [FloatMath F] (status : RetrieveStatus) (cfg : CacheConfig T)

/-- The sequences of a batch, with the tokens of their regions that are cached. -/
def PrefillBatch.parts (s : LMCacheEngine md F R) (b : PrefillBatch status T F S) : List (QuerySeq T F S × ℕ) :=
  (b.queries.zip (results status cfg s b.queries)).map fun x => (x.1, x.2.cachedTokens status)

variable [FloorRing F]

/-- The loop hands over, for every sequence, its tokens, what of them is computed and where its region starts. -/
structure Hands (figures : Figures F) (g : Gathered T S) (parts : List (QuerySeq T F S × ℕ)) : Prop where
  fullTokensList : g.fullTokensList = parts.map fun x => x.1.tokenIds.take x.1.seqLen
  numComputedTokensList : figures.numComputedTokensList =
    parts.map fun x => ((x.1.seqLen - x.1.numRequiredTokens + x.2 : ℕ) : ℤ)
  startPosList : g.startPosList = startsFrom 0 (parts.map (·.1))
  lmcNumComputedTokensList : figures.lmcNumComputedTokensList = parts.map fun x => (x.2 : ℤ)
  isPrefillList : g.isPrefillList = parts.map (·.1.isPrompt)
  tempBlockTableList : g.tempBlockTableList = parts.map (·.1.blockTable)
  injected : g.injected = parts.map fun x => x.1.slots.take x.2

variable {status cfg} {s : LMCacheEngine md F R} {b : PrefillBatch status T F S} {figures : Figures F} {g : Gathered T S}

/-- **What a loop that does not return hands over.** A chunk that is cached as a whole is found; of a prompt that ends
something is always left. -/
theorem hands_of_gatherLoop
    (h : (gatherLoop status cfg b.modelInput.slotMapping s (noFigures F) (noneGathered T S) b.queries).1 =
      some (figures, g)) :
    (b.parts status cfg s).map (·.1) = b.queries ∧ Hands figures g (b.parts status cfg s) ∧
      (status = .chunkPrefill → figures.numRequestNotFound = 0) ∧
      (status ≠ .chunkPrefill → ∀ x ∈ b.parts status cfg s, x.2 < x.1.numRequiredTokens ∧ x.1.isPrompt = true) := by
  obtain ⟨hgather, hlen, hearly⟩ := gatherLoop_eq_some b.queries s (noFigures F) (noneGathered T S) h
  have hbooked : figures = (results status cfg s b.queries).foldl (book status) (noFigures F) := by
    refine retrieveLoop_eq_some (b.queries.map (·.toBatchSeq)) s (noFigures F) ?_
    rw [← gatherLoop_figures b.modelInput.slotMapping b.queries s (noFigures F) (noneGathered T S), h]
    rfl
  obtain ⟨hnums, hlmcs, hnotFound⟩ := foldl_book status (results status cfg s b.queries) (noFigures F)
  rw [← hbooked] at hnums hlmcs hnotFound
  -- the sequences with their answers
  generalize hxs : b.queries.zip (results status cfg s b.queries) = xs at hgather
  have hparts : b.parts status cfg s = xs.map fun x => (x.1, x.2.cachedTokens status) := by
    rw [PrefillBatch.parts, hxs]
  have hfst : xs.map (·.1) = b.queries := by
    rw [← hxs]
    exact List.map_fst_zip hlen.ge
  have hsnd : xs.map (·.2) = results status cfg s b.queries := by
    rw [← hxs]
    exact List.map_snd_zip hlen.le
  have hqueries : (b.parts status cfg s).map (·.1) = b.queries := by
    rw [hparts, List.map_map, ← hfst]
    rfl
  have hseqs : ∀ x ∈ xs, x.1.isPrompt = true ∧ x.1.totalSeqLen status = x.1.seqLen := by
    intro x hx
    rw [← hxs] at hx
    obtain ⟨p, -, hp⟩ := List.mem_map.mp (List.of_mem_zip hx).1
    exact ⟨hp ▸ p.isPrompt_eq, hp ▸ p.ends⟩
  have hcached : ∀ x ∈ xs, x.2.cachedTokens status ≤ x.1.numRequiredTokens ∧
      x.2.lmcNumComputedTokens status = x.2.cachedTokens status ∧
      x.2.numComputedTokens status = (x.1.seqLen - x.1.numRequiredTokens + x.2.cachedTokens status : ℕ) ∧
      (status ≠ .chunkPrefill → x.2.cachedTokens status < x.1.numRequiredTokens) ∧
      (status = .chunkPrefill → ¬ x.2.ReturnsEarly status → x.2.lmcNumComputedTokens status ≠ 0) := by
    intro x hx
    obtain ⟨s', hr⟩ := mem_zip_results (hxs ▸ hx)
    rw [hr]
    exact cached_of_ends (hseqs x hx).2 s'
  have hslots : b.modelInput.slotMapping = xs.flatMap (·.1.slots) :=
    b.slotMapping_eq.trans (PrefillBatch.flatMap_seqs hfst (·.slots))
  refine ⟨hqueries, ⟨?_, ?_, ?_, ?_, ?_, ?_, ?_⟩, fun hchunk => ?_, fun hchunk x hx => ?_⟩
  · rw [hgather, foldl_gather, hparts, List.map_map]
    exact List.map_congr_left fun x hx => by rw [(hseqs x hx).2]; rfl
  · rw [hnums, ← hsnd, hparts, List.map_map, List.map_map]
    exact List.map_congr_left fun x hx => (hcached x hx).2.2.1
  · rw [hgather, foldl_gather, hqueries, ← hfst]
    rfl
  · rw [hlmcs, ← hsnd, hparts, List.map_map, List.map_map]
    exact List.map_congr_left fun x hx => (hcached x hx).2.1
  · rw [hgather, foldl_gather, hparts, List.map_map]
    rfl
  · rw [hgather, foldl_gather, hparts, List.map_map]
    rfl
  · rw [hgather, foldl_gather, hparts, List.map_map]
    exact injectedFrom_eq (fun x hx => ⟨(hcached x hx).1, (hcached x hx).2.1⟩) [] hslots
  · rw [hnotFound]
    refine (Nat.zero_add _).trans (List.sum_eq_zero fun n hn => ?_)
    rw [← hsnd, List.map_map] at hn
    obtain ⟨x, hx, rfl⟩ := List.mem_map.mp hn
    exact if_neg ((hcached x hx).2.2.2.2 hchunk (hearly _ (hsnd ▸ List.mem_map_of_mem hx)))
  · rw [hparts] at hx
    obtain ⟨y, hy, rfl⟩ := List.mem_map.mp hx
    exact ⟨(hcached y hy).2.2.2.1 hchunk, (hseqs y hy).1⟩

variable (status cfg)

end Call

open LMCacheEngine (twoTokens threeStored) in
/-- Of a prompt that is cached as a whole the last token is left, of a prompt with no hit all are. -/
example :
    let wholly : QuerySeq ℕ ℚ ℕ :=
      { promptOfSecond [1, 2] with
        isPrompt := true, blockTable := [5], slots := [50, 51], numRequiredTokens_pos := by decide, slots_length := rfl }
    let unknown : QuerySeq ℕ ℚ ℕ :=
      { promptOfSecond [7, 8] with
        isPrompt := true, blockTable := [6], slots := [60, 61], numRequiredTokens_pos := by decide, slots_length := rfl }
    let given : ModelInput ℕ ℕ :=
      { inputTokens := [1, 2, 7, 8], inputPositions := [0, 1, 0, 1], queryLens := [2, 2], numPrefills := 2
        numPrefillTokens := 4, slotMapping := [50, 51, 60, 61], maxQueryLen := 2, blockTables := [[5], [6]]
        queryStartLoc := [0, 2, 4], contextLens := [0, 0], samplingMetadata := none }
    ∃ s, Reaches (LMCacheEngine.step twoTokens) (LMCacheEngine.new .threeChunks ℚ ℕ)
        [.store { (threeStored : StoreArgs ℕ ℚ ℕ) with tokens := [1, 2], kvTensors := [10, 20] }] s ∧
      (((retrieveInput .prefill twoTokens s given [wholly, unknown]).toOption.bind (·.rebuilt)).map fun rebuilt =>
        (rebuilt.inputTokens, rebuilt.slotMapping, rebuilt.queryStartLoc)) = some ([2, 7, 8], [51, 60, 61], [0, 1, 3]) := by
  decide +kernel

end LMCacheAdapter

end FairCache
