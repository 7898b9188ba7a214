import FairCache.Adapter.RetrieveKv
import FairCache.Cache.Retrieve
import FairCache.Fair.Sharers
import Mathlib.Algebra.Order.BigOperators.Group.List
import Mathlib.Algebra.BigOperators.Ring.List
import Mathlib.Data.Rat.Floor

/-!
# Who pays for a shared block

A client that hits a block of others becomes a sharer of it. Its share of the block is charged as recomputation, and
the previous sharers are credited what their shares shrink by.

* `Visit` : a sequence of a batch in the state it is retrieved in;
* `Visit.joined` : the blocks that the sequence's client becomes a sharer of; `Visit.share`, `Visit.due` : what it owes
  and to whom; `sum_due` : the two are in balance;
* `newShared_result`, `creditsIssued_result` : what the code books of it; `booked_iff` : when it books what is owed;
* `mem_sharers_next`, `mem_joined_iff` : who shares a block after the retrieval.
-/

namespace FairCache.LMCacheAdapter

open Lib LMCacheEngine LMCLocalFairBackend

variable {md : LMCacheMemPoolMetadata} {T F R : Type} [LinearOrder F]

/-- A sequence of a batch in the state it is retrieved in. -/
structure Visit (md : LMCacheMemPoolMetadata) (T F R : Type) [LinearOrder F] where
  engine : LMCacheEngine md F R
  seq : BatchSeq T F

namespace Visit

variable (status : RetrieveStatus) (cfg : CacheConfig T) (v : Visit md T F R)

/-- The tokens that are not retrieved. -/
def skip : ℕ := v.seq.vllmNumComputedTokens status

/-- The keys that the sequence hits: the run of resident chunks. -/
def hitKeys : List CacheEngineKey :=
  match activeClient (some v.seq.clientId) with
  | none => []
  | some _ => v.engine.residentRun cfg (v.seq.retrieveArgs status).tokens (v.skip status / cfg.chunkSize)

/-- The sharers of a block before the sequence is retrieved. -/
def sharers (key : CacheEngineKey) : List ClientId := v.engine.backend.sharers key

/-- The tokens of a block. -/
def blockTokens (key : CacheEngineKey) : ℕ := (rows v.engine.backend key).length

/-- The tokens that the code counts for the `i`-th block. -/
def countedTokens (i : ℕ) : ℕ :=
  if i = 0 then cfg.chunkSize - (v.skip status - v.skip status / cfg.chunkSize * cfg.chunkSize) else cfg.chunkSize

/-- The blocks of others that the client becomes a sharer of, with their positions. -/
def joined : List (CacheEngineKey × ℕ) :=
  (v.hitKeys status cfg).zipIdx.filter fun x => v.seq.clientId ∉ v.sharers x.1 ∧ v.sharers x.1 ≠ []

/-- For every block that the client joins the code counts the tokens of the block. -/
def CountsBlocks : Prop := ∀ x ∈ v.joined status cfg, v.countedTokens status cfg x.2 = v.blockTokens x.1

instance : Decidable (v.CountsBlocks status cfg) :=
  inferInstanceAs (Decidable (∀ x ∈ v.joined status cfg, v.countedTokens status cfg x.2 = v.blockTokens x.1))

section Owed
variable [Field F]

/-- What the client owes: of each block that it joins an equal share of the tokens. -/
def share : F := ((v.joined status cfg).map fun x => (v.blockTokens x.1 : F) / ((v.sharers x.1).length + 1)).sum

/-- To whom: to each previous sharer the cost of what its share shrinks by, from one of `k` to one of `k + 1`. -/
def due : List (ClientId × F) :=
  (v.joined status cfg).flatMap fun x => (v.sharers x.1).map fun oldCid =>
    (oldCid, prefillWeightCost * v.blockTokens x.1 / ((v.sharers x.1).length * ((v.sharers x.1).length + 1)))

variable [FloatMath F]

/-- What `engine.retrieve` answers for the sequence. -/
def result : SeqResult R := (retrieveSeq status cfg v.engine v.seq).1

/-- The state after its retrieval. -/
def next : LMCacheEngine md F R := (retrieveSeq status cfg v.engine v.seq).2

end Owed

end Visit

/-! ## One sequence -/

section One
variable [Field F] [FloatMath F] {status : RetrieveStatus} {cfg : CacheConfig T} {v : Visit md T F R}

omit [LinearOrder F] [Field F] [FloatMath F] in
theorem length_retrieveArgs (status : RetrieveStatus) (q : BatchSeq T F) :
    (q.retrieveArgs status).tokens.length = q.totalSeqLen status := by
  have := q.seqLen_le
  simp only [BatchSeq.retrieveArgs, BatchSeq.totalSeqLen, List.length_take]
  split_ifs <;> omega

omit [LinearOrder F] [Field F] [FloatMath F] in
theorem suffixMask_retrieveArgs (status : RetrieveStatus) (q : BatchSeq T F) :
    SuffixMask (q.retrieveArgs status).mask (q.retrieveArgs status).tokens.length (q.vllmNumComputedTokens status) := by
  rw [length_retrieveArgs]
  exact Or.inl rfl

theorem retrievedKeys_result (status : RetrieveStatus) (cfg : CacheConfig T) (v : Visit md T F R) :
    (v.result status cfg).retrieved.retrievedKeys = v.hitKeys status cfg :=
  retrieve_retrievedKeys cfg (suffixMask_retrieveArgs status v.seq)

omit [Field F] [FloatMath F] in
theorem of_mem_hitKeys {key : CacheEngineKey} (h : key ∈ v.hitKeys status cfg) :
    activeClient (some v.seq.clientId) = some v.seq.clientId ∧ key ∈ v.engine.backend.dict := by
  unfold Visit.hitKeys at h
  cases hc : activeClient (some v.seq.clientId) with
  | none => rw [hc] at h; exact absurd h List.not_mem_nil
  | some c =>
    rw [hc] at h
    have hcontains : v.engine.backend.contains key = true := List.mem_takeWhile_imp h
    refine ⟨?_, of_decide_eq_true hcontains⟩
    rw [← hc]
    unfold activeClient at hc ⊢
    rw [Option.filter_some] at hc ⊢
    split_ifs at hc ⊢
    rfl

theorem retrievalAttribution_result (status : RetrieveStatus) (cfg : CacheConfig T) (v : Visit md T F R) :
    (v.result status cfg).retrieved.retrievalAttribution =
      (v.hitKeys status cfg).zipIdx.map fun x =>
        (decide (v.seq.clientId ∉ v.sharers x.1), v.sharers x.1, v.countedTokens status cfg x.2) := by
  have hinfo : ∀ keys, (∀ key ∈ keys, key ∈ v.hitKeys status cfg) →
      v.engine.backend.getAttributionInfo (some v.seq.clientId) keys =
        keys.map fun key => (decide (v.seq.clientId ∉ v.sharers key), v.sharers key) := by
    intro keys hkeys
    cases keys with
    | nil => rw [getAttributionInfo]; cases activeClient (some v.seq.clientId) <;> rfl
    | cons key keys =>
      rw [getAttributionInfo, (of_mem_hitKeys (hkeys key List.mem_cons_self)).1]
      refine List.map_congr_left fun k hk => ?_
      obtain ⟨e, he⟩ := (Dict.mem_iff_lookup _ _).mp (of_mem_hitKeys (hkeys k hk)).2
      simp only [he, Visit.sharers, sharers_of_lookup he]
      exact Prod.ext (decide_eq_decide.mpr (not_congr AList.mem_keys)) rfl
  have hattr : (v.result status cfg).retrieved.retrievalAttribution = _ :=
    retrieve_retrievalAttribution cfg (suffixMask_retrieveArgs status v.seq)
  rw [show (retrieve cfg v.engine (v.seq.retrieveArgs status)).1.retrievedKeys = _ from
    retrievedKeys_result status cfg v, show (v.seq.retrieveArgs status).clientIdCtx = some v.seq.clientId from rfl,
    hinfo _ fun _ h => h, attributionTokens, List.zipIdx_map, List.map_map] at hattr
  exact hattr

/-- **What the code takes for new sharing is what the client joins.** -/
theorem newShared_result (status : RetrieveStatus) (cfg : CacheConfig T) (v : Visit md T F R) :
    (v.result status cfg).newShared =
      (v.joined status cfg).map fun x => (true, v.sharers x.1, v.countedTokens status cfg x.2) := by
  have hpred : ∀ x : CacheEngineKey × ℕ,
      (decide (v.seq.clientId ∉ v.sharers x.1) && decide (0 < (v.sharers x.1).length)) =
        decide (v.seq.clientId ∉ v.sharers x.1 ∧ v.sharers x.1 ≠ []) := by
    intro x
    rw [Bool.eq_iff_iff]
    simp [List.length_pos_iff]
  rw [SeqResult.newShared, retrievalAttribution_result, List.filter_map]
  refine (congrArg _ (List.filter_congr fun x _ => hpred x)).trans (List.map_congr_left fun x hx => ?_)
  have hnew := (of_decide_eq_true (List.mem_filter.mp hx).2).1
  exact Prod.ext (decide_eq_true hnew) rfl

theorem deltaHitReduce_result (status : RetrieveStatus) (cfg : CacheConfig T) (v : Visit md T F R) :
    ((v.result status cfg).deltaHitReduce : F) =
      ((v.joined status cfg).map fun x =>
        (v.countedTokens status cfg x.2 : F) / ((v.sharers x.1).length + 1)).sum := by
  rw [SeqResult.deltaHitReduce, newShared_result, List.foldl_map, List.sum_eq_foldl, List.foldl_map]

theorem creditsIssued_result (status : RetrieveStatus) (cfg : CacheConfig T) (v : Visit md T F R) :
    ((v.result status cfg).creditsIssued : List (ClientId × F)) =
      (v.joined status cfg).flatMap fun x => (v.sharers x.1).map fun oldCid =>
        (oldCid, creditPerOld (v.countedTokens status cfg x.2) (v.sharers x.1).length) := by
  rw [SeqResult.creditsIssued, newShared_result, List.flatMap_map]

variable [IsStrictOrderedRing F]

omit [FloatMath F] in
/-- `k` clients that had one of `k` parts each have one of `k + 1` parts each. -/
theorem creditPerOld_eq (tok : ℕ) {k : ℕ} (hk : k ≠ 0) :
    (creditPerOld tok k : F) = prefillWeightCost * tok / (k * (k + 1)) := by
  have hk₀ : (k : F) ≠ 0 := Nat.cast_ne_zero.mpr hk
  have hk₁ : (k : F) + 1 ≠ 0 := by exact_mod_cast Nat.succ_ne_zero k
  unfold creditPerOld etaAttribution
  field_simp
  ring

omit [Field F] [FloatMath F] [IsStrictOrderedRing F] in
theorem sharers_of_mem_joined {x : CacheEngineKey × ℕ} (hx : x ∈ v.joined status cfg) : v.sharers x.1 ≠ [] :=
  (of_decide_eq_true (List.mem_filter.mp hx).2).2

omit [FloatMath F] in
/-- **The previous sharers are owed what the newcomer's share costs.** -/
theorem sum_due (status : RetrieveStatus) (cfg : CacheConfig T) (v : Visit md T F R) :
    ((v.due status cfg).map (·.2)).sum = prefillWeightCost * v.share status cfg := by
  rw [Visit.due, List.map_flatMap, List.flatMap_def, List.sum_flatten, List.map_map, Visit.share,
    ← List.sum_map_mul_left]
  refine congrArg List.sum (List.map_congr_left fun x hx => ?_)
  have hk : ((v.sharers x.1).length : F) ≠ 0 := by
    have := sharers_of_mem_joined hx
    rwa [Nat.cast_ne_zero, Ne, List.length_eq_zero_iff]
  have hk₁ : ((v.sharers x.1).length : F) + 1 ≠ 0 := by exact_mod_cast Nat.succ_ne_zero (v.sharers x.1).length
  rw [Function.comp_apply, List.map_map, Function.comp_def, List.map_const', List.sum_replicate, nsmul_eq_mul]
  field_simp

omit [Field F] [FloatMath F] [IsStrictOrderedRing F] [LinearOrder F] in
theorem flatMap_inj_of_length {α β : Type} {f g : α → List β} {l : List α} (hlen : ∀ x ∈ l, (f x).length = (g x).length)
    (h : l.flatMap f = l.flatMap g) : ∀ x ∈ l, f x = g x := by
  induction l with
  | nil => intro x hx; exact absurd hx List.not_mem_nil
  | cons a l ih =>
    rw [List.flatMap_cons, List.flatMap_cons] at h
    obtain ⟨hhead, htail⟩ := List.append_inj h (hlen a List.mem_cons_self)
    intro x hx
    rcases List.mem_cons.mp hx with rfl | hx
    · exact hhead
    · exact ih (fun y hy => hlen y (List.mem_cons_of_mem _ hy)) htail x hx

/-- The credits are what is due exactly where the code counts the tokens of the blocks. -/
theorem creditsIssued_eq_due_iff :
    (v.result status cfg).creditsIssued = (v.due status cfg : List (ClientId × F)) ↔ v.CountsBlocks status cfg := by
  rw [creditsIssued_result, Visit.due]
  have hlength : ∀ x ∈ v.joined status cfg, (v.sharers x.1).length ≠ 0 := fun x hx =>
    mt List.length_eq_zero_iff.mp (sharers_of_mem_joined hx)
  constructor
  · intro h x hx
    have hx₀ := hlength x hx
    have heq := flatMap_inj_of_length (fun x _ => by rw [List.length_map, List.length_map]) h x hx
    obtain ⟨c, hc⟩ := List.exists_mem_of_ne_nil _ (sharers_of_mem_joined hx)
    have hcredit := (Prod.mk.inj (List.map_inj_left.mp heq c hc)).2
    rw [creditPerOld_eq _ hx₀] at hcredit
    have hk : ((v.sharers x.1).length : F) * ((v.sharers x.1).length + 1) ≠ 0 := by
      exact_mod_cast Nat.mul_ne_zero hx₀ (Nat.succ_ne_zero _)
    have hw : (prefillWeightCost : F) ≠ 0 := by
      unfold prefillWeightCost
      norm_num
    exact_mod_cast mul_left_cancel₀ hw ((div_left_inj' hk).mp hcredit)
  · intro h
    refine List.flatMap_congr fun x hx => List.map_congr_left fun c _ => ?_
    rw [creditPerOld_eq _ (hlength x hx), h x hx]

theorem deltaHitReduce_pos (h : v.joined status cfg ≠ []) : 0 < ((v.result status cfg).deltaHitReduce : F) := by
  rw [deltaHitReduce_result]
  refine List.sum_pos _ (fun y hy => ?_) (mt List.map_eq_nil_iff.mp h)
  obtain ⟨x, -, rfl⟩ := List.mem_map.mp hy
  have hcounted : 0 < v.countedTokens status cfg x.2 := by
    have hcs := cfg.chunkSize_pos
    have := Nat.mod_lt (v.skip status) hcs
    unfold Visit.countedTokens
    rw [← Nat.mod_eq_sub_div_mul]
    split_ifs <;> omega
  have hk : (0 : F) < (v.sharers x.1).length + 1 := by exact_mod_cast Nat.succ_pos _
  exact div_pos (by exact_mod_cast hcounted) hk

/-- **A call that returns figures compensates for the blocks that a sequence joins exactly when the sequence was not
preempted before and the code counts the tokens of the blocks.** -/
theorem booked_iff [FloorRing F] (h : v.joined status cfg ≠ []) :
    ((v.result status cfg).charge status F =
        some ((v.result status cfg).numComputedTokens status - intRound (v.share status cfg : F),
          (v.result status cfg).totalSeqLen -
            ((v.result status cfg).numComputedTokens status - intRound (v.share status cfg : F))) ∧
      (v.result status cfg).creditsIssued = (v.due status cfg : List (ClientId × F))) ↔
    v.seq.preempted = none ∧ v.CountsBlocks status cfg := by
  have hpreempted : (v.result status cfg).preempted = v.seq.preempted := rfl
  rw [creditsIssued_eq_due_iff]
  refine and_congr_left fun hcounts => ?_
  have hdelta : ((v.result status cfg).deltaHitReduce : F) = v.share status cfg := by
    rw [deltaHitReduce_result, Visit.share]
    exact congrArg List.sum (List.map_congr_left fun x hx => by rw [hcounts x hx])
  unfold SeqResult.charge
  rw [hpreempted]
  cases v.seq.preempted with
  | some p => simp
  | none =>
    have hpos := deltaHitReduce_pos h
    rw [hdelta] at hpos
    simp only [hdelta, if_pos hpos]

/-! ## Becoming a sharer -/

section Joining
omit [IsStrictOrderedRing F]

/-- **A retrieval makes its client a sharer of the blocks it hits.** -/
theorem mem_sharers_next (status : RetrieveStatus) (cfg : CacheConfig T) (v : Visit md T F R) (key : CacheEngineKey)
    (c : ClientId) : c ∈ (v.next status cfg).backend.sharers key ↔
      c ∈ v.sharers key ∨ (v.seq.clientId = c ∧ key ∈ v.hitKeys status cfg) := by
  have hnext : (v.next status cfg).backend = v.engine.backend.updateAfterGet (some v.seq.clientId)
      (v.hitKeys status cfg) v.seq.clock := by
    rw [← retrievedKeys_result]
    exact retrieve_backend cfg
  rw [hnext, mem_sharers_updateAfterGet]
  refine or_congr_right ⟨?_, ?_⟩
  · rintro ⟨hc, hkey, -⟩
    rw [(of_mem_hitKeys hkey).1] at hc
    exact ⟨Option.some.inj hc, hkey⟩
  · rintro ⟨rfl, hkey⟩
    exact ⟨(of_mem_hitKeys hkey).1, hkey, (of_mem_hitKeys hkey).2⟩

theorem owned_next (status : RetrieveStatus) (cfg : CacheConfig T) (h : v.engine.backend.Owned) :
    (v.next status cfg).backend.Owned := by
  have hnext : (v.next status cfg).backend = _ := retrieve_backend cfg
  rw [hnext]
  exact h.updateAfterGet _ _ _

omit [Field F] [FloatMath F]

/-- A block that others share is joined by a hit of whoever does not. -/
theorem mem_joined_of_shared {key : CacheEngineKey} (hshared : v.sharers key ≠ []) :
    key ∈ (v.joined status cfg).map Prod.fst ↔ key ∈ v.hitKeys status cfg ∧ v.seq.clientId ∉ v.sharers key := by
  have hfst : key ∈ v.hitKeys status cfg ↔ ∃ x ∈ (v.hitKeys status cfg).zipIdx, x.1 = key := by
    rw [← List.mem_map, List.zipIdx_map_fst]
  rw [List.mem_map]
  constructor
  · rintro ⟨x, hx, rfl⟩
    obtain ⟨hzip, hnew⟩ := List.mem_filter.mp hx
    exact ⟨hfst.mpr ⟨x, hzip, rfl⟩, (of_decide_eq_true hnew).1⟩
  · rintro ⟨hkey, hnew⟩
    obtain ⟨x, hx, rfl⟩ := hfst.mp hkey
    exact ⟨x, List.mem_filter.mpr ⟨hx, decide_eq_true ⟨hnew, hshared⟩⟩, rfl⟩

/-- The blocks that the client joins are those it hits and did not share. -/
theorem mem_joined_iff (howned : v.engine.backend.Owned) {key : CacheEngineKey} :
    key ∈ (v.joined status cfg).map Prod.fst ↔ key ∈ v.hitKeys status cfg ∧ v.seq.clientId ∉ v.sharers key := by
  by_cases hshared : v.sharers key = []
  · -- then nothing is resident under the key
    have hmiss : key ∉ v.hitKeys status cfg := fun hkey => howned key (of_mem_hitKeys hkey).2 hshared
    refine ⟨fun hjoined => ?_, fun h => absurd h.1 hmiss⟩
    obtain ⟨x, hx, rfl⟩ := List.mem_map.mp hjoined
    exact absurd hshared (sharers_of_mem_joined hx)
  · exact mem_joined_of_shared hshared

end Joining

end One

end FairCache.LMCacheAdapter
