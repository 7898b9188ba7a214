import FairCache.Lib.Ranks
import Mathlib.Algebra.Order.Floor.Ring
import Mathlib.Data.List.Sort
import Mathlib.Data.Rat.Floor

/-!
# The selection of tokens to recompute

* `TopK` : what `torch.topk` returns; `TopK.sorted` : by sorting;
* `CacheBlendImpl.selectTokensAllQueries` : the tokens of each query that are not valid, and of the valid ones those with
  the largest differences.
-/

namespace FairCache.Blend

open Lib

/-- What leaves a call. -/
inductive BlendError
  | assertionError
  | runtimeError
  | indexError
  deriving DecidableEq

/-- `torch.topk(values, k).indices`, for a `k` of at most the length; which of equal values it takes is not known. -/
structure TopK (α : Type) [LinearOrder α] where
  indices : List α → ℕ → List ℕ
  length_indices : ∀ {values k}, k ≤ values.length → (indices values k).length = k
  nodup : ∀ {values k}, k ≤ values.length → (indices values k).Nodup
  lt_length : ∀ {values k}, k ≤ values.length → ∀ i ∈ indices values k, i < values.length
  largest : ∀ {values k}, k ≤ values.length → ∀ i ∈ indices values k, ∀ j, j < values.length → j ∉ indices values k →
    ∀ x y, values[i]? = some x → values[j]? = some y → y ≤ x

section Sorted
variable {α : Type} [LinearOrder α]

/-- The value at an index. -/
def valueAt (values : List α) (i : ℕ) : WithBot α :=
  match values[i]? with
  | none => ⊥
  | some x => x

/-- Indices in the order of their values, the largest first. -/
def sortIndices (values : List α) : List ℕ :=
  (List.range values.length).insertionSort fun i j => valueAt values j ≤ valueAt values i

theorem perm_sortIndices (values : List α) : (sortIndices values).Perm (List.range values.length) :=
  List.perm_insertionSort _ _

theorem pairwise_sortIndices (values : List α) :
    (sortIndices values).Pairwise fun i j => valueAt values j ≤ valueAt values i := by
  have htotal : Std.Total fun i j : ℕ => valueAt values j ≤ valueAt values i := ⟨fun _ _ => le_total _ _⟩
  have htrans : IsTrans ℕ fun i j => valueAt values j ≤ valueAt values i := ⟨fun _ _ _ h h' => h'.trans h⟩
  exact List.pairwise_insertionSort _ _

/-- The first indices in that order. -/
def TopK.sorted : TopK α where
  indices values k := (sortIndices values).take k
  length_indices h := by
    rw [List.length_take, (perm_sortIndices _).length_eq, List.length_range, Nat.min_eq_left h]
  nodup _ := ((perm_sortIndices _).nodup_iff.mpr List.nodup_range).sublist (List.take_sublist _ _)
  lt_length _ i hi := List.mem_range.mp ((perm_sortIndices _).mem_iff.mp (List.mem_of_mem_take hi))
  largest := by
    intro values k _ i hi j hj hnot x y hx hy
    have hdrop : j ∈ (sortIndices values).drop k := by
      have hmem : j ∈ (sortIndices values).take k ++ (sortIndices values).drop k := by
        rw [List.take_append_drop]
        exact (perm_sortIndices _).mem_iff.mpr (List.mem_range.mpr hj)
      exact (List.mem_append.mp hmem).resolve_left hnot
    have hsorted := pairwise_sortIndices values
    rw [← List.take_append_drop k (sortIndices values)] at hsorted
    have hle := (List.pairwise_append.mp hsorted).2.2 i hi j hdrop
    unfold valueAt at hle
    rw [hx, hy] at hle
    exact WithBot.coe_le_coe.mp hle

end Sorted

/-- `all_reduce_function`, which keeps the shape. -/
abbrev AllReduce (α : Type) := { f : List α → List α // ∀ values, (f values).length = values.length }

/-- `xs[start:stop]`. -/
def slice {β : Type} (xs : List β) (start stop : ℕ) : List β := (xs.take stop).drop start

/-- `indices_to_mask`. -/
def indicesToMask (indices : List ℕ) (size : ℕ) : List ℕ := (List.range size).map fun i => if i ∈ indices then 1 else 0

/-- `mask_to_indices`. -/
def maskToIndices (mask : List ℕ) : List ℕ := (List.range mask.length).filter fun i => mask[i]? ≠ some 0

/-- `int(q)`. -/
def int (q : ℚ) : ℤ := if 0 ≤ q then ⌊q⌋ else ⌈q⌉

/-- `CacheBlendImpl`, without the encoders. -/
structure CacheBlendImpl (α : Type) where
  recomputeRatio : ℚ
  indexesInKv : List ℕ
  allReduceFunction : Option (AllReduce α)

namespace CacheBlendImpl

variable {α : Type}

/-- A fresh executor. -/
def new (recomputeRatio : ℚ) (allReduceFunction : Option (AllReduce α)) : CacheBlendImpl α :=
  { recomputeRatio := recomputeRatio, indexesInKv := [], allReduceFunction := allReduceFunction }

/-- `diff_per_token`, from the mean squared differences of the tokens: times the mask, and reduced. -/
def diffPerToken [Zero α] (E : CacheBlendImpl α) (valid : List Bool) (diff : List α) : List α :=
  let masked := List.zipWith (fun d v => if v then d else 0) diff valid
  match E.allReduceFunction with
  | none => masked
  | some f => f.1 masked

variable [LinearOrder α] (E : CacheBlendImpl α) (T : TopK α)

/-- `num_selected_tokens` of a query. -/
def numSelectedTokens (localValid : List Bool) : ℤ := int (localValid.count true * E.recomputeRatio)

/-- `total_selected_mask` of a query. -/
def totalSelectedMask (localValid : List Bool) (localDiff : List α) : List ℕ :=
  let topIndices := T.indices localDiff (E.numSelectedTokens localValid).toNat
  let topMask := indicesToMask topIndices localValid.length
  List.zipWith (fun v top => (1 - v.toNat) + top) localValid topMask

/-- `local_indices` of a query; `torch.topk` raises if `k` is out of range. -/
def localIndices (localValid : List Bool) (localDiff : List α) : Except BlendError (List ℕ) :=
  let k := E.numSelectedTokens localValid
  if k < 0 ∨ localDiff.length < k then .error .runtimeError
  else .ok (maskToIndices (E.totalSelectedMask T localValid localDiff))

/-- One query of the loop, between `p.1` and `p.2`. -/
def selectQuery (valid : List Bool) (diffPerToken : List α) (st : CacheBlendImpl α × List ℕ) (p : ℕ × ℕ) :
    Except BlendError (CacheBlendImpl α × List ℕ) := do
  let localIndices ← st.1.localIndices T (slice valid p.1 p.2) (slice diffPerToken p.1 p.2)
  pure
    ({ st.1 with indexesInKv := st.1.indexesInKv ++ localIndices.map (· + p.1) },
      st.2 ++ [st.2.getLastD 0 + localIndices.length])

/-- `_select_tokens_all_queries`, after its assertions: the executor and `new_query_start_locs`. -/
def selectTokensAllQueries [Zero α] (valid : List Bool) (diff : List α) (queryStartLoc : List ℕ) :
    Except BlendError (CacheBlendImpl α × List ℕ) :=
  (queryStartLoc.dropLast.zip queryStartLoc.tail).foldlM (selectQuery T valid (E.diffPerToken valid diff)) (E, [0])

omit [LinearOrder α] in
/-- The token of a row of the hidden states, which are those of the selected tokens; there is no row before the first. -/
def tokenOfRow (row : ℤ) : Option ℕ := if row < 0 then none else E.indexesInKv[row.toNat]?

end CacheBlendImpl

/-- `selected_token_indices` of `do_blend` : `query_start_loc[1:] - 1`. -/
def selectedTokenIndices (queryStartLoc : List ℕ) : List ℤ := queryStartLoc.tail.map fun (loc : ℕ) => (loc : ℤ) - 1

end FairCache.Blend
