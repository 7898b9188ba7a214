import FairCache.Adapter.Compensation
import Mathlib.Algebra.BigOperators.Ring.Finset

/-!
# The tokens that are attributed

* `hitRun`, `WholeChunks` : the chunks that a retrieval answers, and none of them is a partial one;
* `sum_attribution_iff` : the attribution counts the retrieved tokens exactly if all chunks are whole;
* `intRound_le_of_le_half` : half of some tokens, rounded, is less than all of them;
* `InRange` : what a sequence is charged is in range. `inRange_of_exact` : it is where the counts are exact;
* `attributed_iff` : both, for a retrieval and for the sequences of a batch.
-/

namespace FairCache

open Lib

/-! ## The counts of a retrieval -/

/-- How many numbers of a range are in an interval. -/
theorem count_range_interval (n a b : ℕ) : ((List.range n).map fun i => decide (a ≤ i ∧ i < b)).count true = min n b - a := by
  induction n with
  | zero => simp
  | succ n ih =>
    rw [List.range_succ, List.map_append, List.count_append, ih, List.map_singleton, List.count_singleton]
    by_cases h : a ≤ n ∧ n < b
    · simp [h]
      omega
    · simp [h]
      omega

namespace LMCacheEngine

variable {md : LMCacheMemPoolMetadata} {T F R : Type} [LinearOrder F] (cfg : CacheConfig T)

/-- The keys of the chunks that a retrieval answers. -/
def hitRun (s : LMCacheEngine md F R) (a : RetrieveArgs T F) (skip : ℕ) : List CacheEngineKey :=
  match activeClient a.clientIdCtx with
  | none => []
  | some _ => s.residentRun cfg a.tokens (skip / cfg.chunkSize)

/-- None of these chunks is a partial one. -/
def WholeChunks (s : LMCacheEngine md F R) (a : RetrieveArgs T F) (skip : ℕ) : Prop :=
  s.hitRun cfg a skip = [] ∨ (skip / cfg.chunkSize + (s.hitRun cfg a skip).length) * cfg.chunkSize ≤ a.tokens.length

instance (s : LMCacheEngine md F R) (a : RetrieveArgs T F) (skip : ℕ) : Decidable (s.WholeChunks cfg a skip) :=
  inferInstanceAs (Decidable (_ ∨ _))

/-- A whole chunk is counted for every retrieved one, less what the mask leaves out of the first. -/
theorem sum_attributionTokens {info : List (Bool × List ClientId)} (hinfo : info ≠ []) {extraTokenLen : ℕ}
    (h : extraTokenLen ≤ cfg.chunkSize) :
    ((attributionTokens cfg info extraTokenLen).map (·.2.2)).sum = info.length * cfg.chunkSize - extraTokenLen := by
  cases info with
  | nil => exact absurd rfl hinfo
  | cons x info =>
    have hrest : ((info.zipIdx 1).map fun y => if y.2 = 0 then cfg.chunkSize - extraTokenLen else cfg.chunkSize) =
        List.replicate info.length cfg.chunkSize := by
      refine List.eq_replicate_iff.mpr ⟨by simp, fun n hn => ?_⟩
      obtain ⟨y, hy, rfl⟩ := List.mem_map.mp hn
      have hpos := List.le_snd_of_mem_zipIdx hy
      rw [if_neg (by omega)]
    unfold attributionTokens
    rw [List.map_map, List.zipIdx_cons, List.map_cons, List.sum_cons]
    change (cfg.chunkSize - extraTokenLen) + ((info.zipIdx 1).map fun y : (Bool × List ClientId) × ℕ =>
      if y.2 = 0 then cfg.chunkSize - extraTokenLen else cfg.chunkSize).sum = _
    rw [hrest, List.sum_replicate_nat, List.length_cons, Nat.add_one_mul]
    omega

theorem length_getAttributionInfo (b : LMCLocalFairBackend md CacheEngineKey F R) (ctx : Option ClientId)
    (keys : List CacheEngineKey) : (b.getAttributionInfo ctx keys).length = keys.length := by
  unfold LMCLocalFairBackend.getAttributionInfo
  split
  · exact List.length_map _
  · exact List.length_map _

variable [Field F] [FloatMath F] {s : LMCacheEngine md F R} {a : RetrieveArgs T F} {skip : ℕ}

theorem retrieve_retMask (hmask : SuffixMask a.mask a.tokens.length skip) : (s.retrieve cfg a).1.retMask =
    (List.range a.tokens.length).map fun i => decide (skip ≤ i ∧ i < skip + (s.retrieve cfg a).1.kv.length) := by
  unfold retrieve
  simp only [hmask.numSkipTok]
  exact concatenate_retMask cfg _ _ _ _

theorem kv_of_retrievedKeys_nil (h : (s.retrieve cfg a).1.retrievedKeys = []) : (s.retrieve cfg a).1.kv = [] := by
  unfold retrieve at h ⊢
  dsimp only at h ⊢
  rw [concatenate_retrievedKeys] at h
  rw [List.map_eq_nil_iff.mp h]
  rfl

/-- **The counts of the attribution add up to the retrieved tokens exactly if every retrieved chunk is whole.** -/
theorem sum_attribution_iff (hinj : Function.Injective2 cfg.hash)
    (hinit : ∀ tokens prefixHash, cfg.hash tokens prefixHash ≠ CacheConfig.getInitHash) {ops : List (Op T F R)}
    (hrun : Reaches (step cfg) (new md F R) ops s) (hmask : SuffixMask a.mask a.tokens.length skip)
    (hskip : skip ≤ a.tokens.length) :
    ((s.retrieve cfg a).1.retrievalAttribution.map (·.2.2)).sum = (s.retrieve cfg a).1.retMask.count true ↔
      s.WholeChunks cfg a skip := by
  have hkeys : (s.retrieve cfg a).1.retrievedKeys = s.hitRun cfg a skip := retrieve_retrievedKeys cfg hmask
  have hdiv := Nat.div_add_mod' skip cfg.chunkSize
  have hmod := Nat.mod_lt skip cfg.chunkSize_pos
  rw [retrieve_retrievalAttribution cfg hmask, retrieve_retMask cfg hmask, count_range_interval, hkeys]
  unfold WholeChunks
  by_cases hnil : s.hitRun cfg a skip = []
  · refine iff_of_true ?_ (Or.inl hnil)
    rw [kv_of_retrievedKeys_nil cfg (hkeys.trans hnil), hnil]
    have hinfo := List.eq_nil_of_length_eq_zero (length_getAttributionInfo s.backend a.clientIdCtx [])
    rw [hinfo]
    simp [attributionTokens]
  · have hlen := length_getAttributionInfo s.backend a.clientIdCtx (s.hitRun cfg a skip)
    have hpos := List.length_pos_iff.mpr hnil
    have hinfo : s.backend.getAttributionInfo a.clientIdCtx (s.hitRun cfg a skip) ≠ [] := by
      rw [← List.length_pos_iff, hlen]
      exact hpos
    rw [sum_attributionTokens cfg hinfo (by omega), hlen, or_iff_right hnil, Nat.add_mul]
    have hone := Nat.mul_le_mul_right cfg.chunkSize hpos
    rcases lt_or_eq_of_le hskip with hlt | heq
    · cases hc : activeClient a.clientIdCtx with
      | none =>
        unfold hitRun at hnil
        rw [hc] at hnil
        exact absurd rfl hnil
      | some c =>
        have hkv := length_kv_retrieve cfg hinj hinit hrun hc hmask hlt
        have hrunLen : (s.residentRun cfg a.tokens (skip / cfg.chunkSize)).length = (s.hitRun cfg a skip).length := by
          unfold hitRun
          rw [hc]
        rw [hkv, hrunLen, Nat.add_mul]
        omega
    · omega

end LMCacheEngine

/-! ## Rounding -/

section Rounding
variable {F : Type} [Field F] [LinearOrder F] [FloorRing F]

theorem intRound_eq_floor_or (x : F) : intRound x = ⌊x⌋ ∨ intRound x = ⌊x⌋ + 1 ∧ 1 / 2 ≤ x - ⌊x⌋ := by
  unfold intRound
  split_ifs with hlt hgt heven
  · exact Or.inl rfl
  · exact Or.inr ⟨rfl, hgt.le⟩
  · exact Or.inl rfl
  · exact Or.inr ⟨rfl, not_lt.mp hlt⟩

theorem intRound_nonneg {x : F} (h : 0 ≤ x) : 0 ≤ intRound x := by
  have hfloor := Int.floor_nonneg.mpr h
  rcases intRound_eq_floor_or x with hx | ⟨hx, -⟩ <;> omega

variable [IsStrictOrderedRing F]

theorem intRound_half : intRound (1 / 2 : F) = 0 := by
  have hfloor : ⌊(1 / 2 : F)⌋ = 0 := Int.floor_eq_zero_iff.mpr ⟨by positivity, by norm_num⟩
  unfold intRound
  rw [hfloor]
  norm_num

/-- Half of some tokens, rounded, is less than all of them. -/
theorem intRound_le_of_le_half {x : F} {m : ℕ} (hm : 1 ≤ m) (h : x ≤ m / 2) : intRound x ≤ m - 1 := by
  have hfloor := Int.floor_le x
  rcases intRound_eq_floor_or x with hx | ⟨hx, hup⟩
  · have hlt : (⌊x⌋ : F) < m := by
      have hm' : (0 : F) < m := by exact_mod_cast hm
      linarith
    have hlt' : ⌊x⌋ < (m : ℤ) := by exact_mod_cast hlt
    omega
  · have hsum : (⌊x⌋ : F) + 1 / 2 ≤ m / 2 := by linarith
    have hle : 2 * ⌊x⌋ + 1 ≤ (m : ℤ) := by
      have : (2 : F) * ⌊x⌋ + 1 ≤ m := by linarith
      exact_mod_cast this
    rcases eq_or_lt_of_le hm with rfl | hm'
    · -- the half of one token is rounded to the even zero
      have hone : x = 1 / 2 ∨ x < 1 / 2 := (lt_or_eq_of_le (by simpa using h)).symm
      rcases hone with rfl | hlt
      · rw [intRound_half]
        norm_num
      · have hneg : (⌊x⌋ : F) < 0 := by linarith
        have hneg' : ⌊x⌋ < 0 := by exact_mod_cast hneg
        rw [hx]
        omega
    · rw [hx]
      omega

end Rounding

/-! ## The charge -/

namespace SeqResult

/-- The tokens that the attribution counts. -/
def attributedTokens {R : Type} (r : SeqResult R) : ℕ := (r.retrieved.retrievalAttribution.map (·.2.2)).sum

variable {R F : Type} [Field F]

theorem deltaHitReduce_eq_sum (r : SeqResult R) :
    (r.deltaHitReduce : F) = (r.newShared.map fun x => (x.2.2 : F) / (x.2.1.length + 1)).sum := by
  rw [deltaHitReduce, List.sum_eq_foldl, List.foldl_map]

variable [LinearOrder F] [IsStrictOrderedRing F]

theorem deltaHitReduce_nonneg (r : SeqResult R) : (0 : F) ≤ r.deltaHitReduce := by
  rw [deltaHitReduce_eq_sum]
  refine List.sum_nonneg fun y hy => ?_
  obtain ⟨x, -, rfl⟩ := List.mem_map.mp hy
  positivity

/-- A block is shared with one other at least, so no more than half of the tokens are taken from the hit. -/
theorem deltaHitReduce_le_half (r : SeqResult R) : (r.deltaHitReduce : F) ≤ r.attributedTokens / 2 := by
  have hpart : ∀ x ∈ r.newShared, (x.2.2 : F) / (x.2.1.length + 1) ≤ (x.2.2 : F) * (1 / 2) := by
    intro x hx
    obtain ⟨-, hshared⟩ := Bool.and_eq_true_iff.mp (List.mem_filter.mp hx).2
    have hone : (1 : F) ≤ x.2.1.length := by exact_mod_cast of_decide_eq_true hshared
    rw [div_eq_mul_one_div]
    refine mul_le_mul_of_nonneg_left (one_div_le_one_div_of_le (by norm_num) (by linarith)) (Nat.cast_nonneg _)
  have hsub : (r.newShared.map (·.2.2)).sum ≤ r.attributedTokens :=
    (List.filter_sublist.map _).sum_le_sum fun _ _ => Nat.zero_le _
  calc (r.deltaHitReduce : F)
      = (r.newShared.map fun x => (x.2.2 : F) / (x.2.1.length + 1)).sum := r.deltaHitReduce_eq_sum
    _ ≤ (r.newShared.map fun x => (x.2.2 : F) * (1 / 2)).sum := List.sum_le_sum hpart
    _ = ((r.newShared.map (·.2.2)).sum : ℕ) * (1 / 2) := by
        rw [List.sum_map_mul_right, Nat.cast_list_sum, List.map_map]
        rfl
    _ ≤ r.attributedTokens / 2 := by
        rw [← div_eq_mul_one_div]
        exact div_le_div_of_nonneg_right (by exact_mod_cast hsub) (by norm_num)

variable [FloorRing F]

/-- What a sequence is charged is in range: the hit is at most what is computed, the miss at least what is not, and
together they are the sequence. -/
def InRange (status : RetrieveStatus) (F : Type) [Field F] [LinearOrder F] [FloorRing F] (r : SeqResult R) : Prop :=
  ∀ adjHit adjMiss, r.charge status F = some (adjHit, adjMiss) →
    (0 ≤ adjHit ∧ adjHit ≤ r.numComputedTokens status) ∧
      ((r.totalSeqLen : ℤ) - r.numComputedTokens status ≤ adjMiss ∧ adjMiss ≤ r.totalSeqLen) ∧
        adjHit + adjMiss = r.totalSeqLen

/-- **The charge is in range where the counts are exact.** -/
theorem inRange_of_exact {status : RetrieveStatus} {r : SeqResult R} (hexact : r.attributedTokens = r.retrievedTokens)
    (hlen : status ≠ .chunkPrefill → 0 < r.totalSeqLen) : r.InRange status F := by
  intro adjHit adjMiss hcharge
  have hround : 0 ≤ intRound (r.deltaHitReduce : F) := intRound_nonneg r.deltaHitReduce_nonneg
  have hhalf := r.deltaHitReduce_le_half (F := F)
  -- one token at least is left of what is retrieved, so the one that is recomputed is not taken twice
  have hless : 1 ≤ r.retrievedTokens → intRound (r.deltaHitReduce : F) ≤ r.retrievedTokens - 1 := by
    intro hpos
    rw [hexact] at hhalf
    exact intRound_le_of_le_half hpos hhalf
  have hnone : r.retrievedTokens = 0 → (r.deltaHitReduce : F) = 0 := by
    intro hzero
    rw [hexact, hzero, Nat.cast_zero, zero_div] at hhalf
    exact le_antisymm hhalf r.deltaHitReduce_nonneg
  have hlast : r.RecomputesLast status → 0 < r.totalSeqLen ∧ r.vllmNumComputedTokens + r.retrievedTokens = r.totalSeqLen :=
    fun h => ⟨hlen h.1, h.2⟩
  unfold charge at hcharge
  unfold numComputedTokens lmcNumComputedTokens at hcharge ⊢
  split at hcharge
  · exact absurd hcharge (by simp)
  · split at hcharge
    · rename_i hpos
      have hretrieved : 1 ≤ r.retrievedTokens := by
        by_contra hzero
        rw [hnone (by omega)] at hpos
        exact lt_irrefl _ hpos
      have hround' := hless hretrieved
      obtain ⟨rfl, rfl⟩ := Prod.mk.inj (Option.some.inj hcharge)
      split_ifs with h
      · obtain ⟨hpos, hall⟩ := hlast h
        omega
      · omega
    · obtain ⟨rfl, rfl⟩ := Prod.mk.inj (Option.some.inj hcharge)
      split_ifs with h
      · obtain ⟨hpos, hall⟩ := hlast h
        omega
      · omega

end SeqResult

/-! ## Batches -/

namespace LMCacheAdapter

open LMCacheEngine

variable {md : LMCacheMemPoolMetadata} {T F R : Type} [LinearOrder F]

/-- None of the chunks that the sequence hits is a partial one. -/
def Visit.WholeChunks (status : RetrieveStatus) (cfg : CacheConfig T) (v : Visit md T F R) : Prop :=
  v.engine.WholeChunks cfg (v.seq.retrieveArgs status) (v.skip status)

instance (status : RetrieveStatus) (cfg : CacheConfig T) (v : Visit md T F R) : Decidable (v.WholeChunks status cfg) :=
  inferInstanceAs (Decidable (v.engine.WholeChunks cfg _ _))

variable [Field F] [FloatMath F] (status : RetrieveStatus) (cfg : CacheConfig T)

/-- The tokens that are counted for the sequence are those that are retrieved, and its charge is in range. -/
structure Attributed [FloorRing F] (v : Visit md T F R) : Prop where
  exact : (v.result status cfg).attributedTokens = (v.result status cfg).retrievedTokens
  inRange : (v.result status cfg).InRange status F

variable {status cfg}

/-- The sequences of a call are those of the batch, in states that are reached. -/
theorem of_mem_visits {batch : List (BatchSeq T F)} : ∀ {s : LMCacheEngine md F R} {ops : List (Op T F R)},
    Reaches (LMCacheEngine.step cfg) (new md F R) ops s → ∀ v ∈ visits status cfg s batch,
      v.seq ∈ batch ∧ ∃ ops', Reaches (LMCacheEngine.step cfg) (new md F R) ops' v.engine := by
  induction batch with
  | nil => intro s ops hrun v hv; exact absurd hv List.not_mem_nil
  | cons q qs ih =>
    intro s ops hrun v hv
    rw [visits] at hv
    rcases List.mem_cons.mp hv with rfl | hv
    · exact ⟨List.mem_cons_self, ops, hrun⟩
    · split at hv
      · exact absurd hv List.not_mem_nil
      · have hnext : Reaches (LMCacheEngine.step cfg) (new md F R) (ops ++ [.retrieve (q.retrieveArgs status)])
            (Visit.next status cfg ⟨s, q⟩) :=
          reaches_append.mpr ⟨s, hrun, reaches_cons.mpr ⟨_, rfl, reaches_nil.mpr rfl⟩⟩
        obtain ⟨hmem, hreached⟩ := ih hnext v hv
        exact ⟨List.mem_cons_of_mem _ hmem, hreached⟩

theorem exact_iff (hinj : Function.Injective2 cfg.hash)
    (hinit : ∀ tokens prefixHash, cfg.hash tokens prefixHash ≠ CacheConfig.getInitHash) {v : Visit md T F R}
    {ops : List (Op T F R)} (hrun : Reaches (LMCacheEngine.step cfg) (new md F R) ops v.engine) :
    (v.result status cfg).attributedTokens = (v.result status cfg).retrievedTokens ↔ v.WholeChunks status cfg := by
  refine sum_attribution_iff cfg hinj hinit hrun (suffixMask_retrieveArgs status v.seq) ?_
  rw [length_retrieveArgs]
  exact Nat.sub_le _ _

variable [IsStrictOrderedRing F] [FloorRing F]

/-- A prompt of client 2, as a whole. -/
def promptOfSecond (tokens : List ℕ) : BatchSeq ℕ ℚ :=
  { clientId := 2, preempted := none, tokenIds := tokens, seqLen := tokens.length, numRequiredTokens := tokens.length
    clock := fun _ => 1, seqLen_le := Nat.le_refl _, numRequiredTokens_le := Nat.le_refl _ }

end LMCacheAdapter

end FairCache
