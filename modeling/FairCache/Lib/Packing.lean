import FairCache.Lib.Segments
import Mathlib.Algebra.BigOperators.Ring.Finset
import Mathlib.Algebra.Order.Ring.Int

/-!
# Rows packed one after the other

Of rows of one length the first elements are used. They are gathered from the flat list of the rows, and found again by
the sums of how many there are.

* `cumsum`, `repeatInterleave`, `tensorGet?` : operations on flat tensors;
* `sumsBefore` : the sum of the elements before each; `set_rotateRight_cumsum` : a rotated `cumsum`;
* `map_tensorGet?_rows` : the unused elements before a row, added to the places in the packed list, are the places in
  the rows;
* `getElem?_flatten_take` : an element of a segment, by the sum of the lengths before it.
-/

namespace FairCache.Lib

variable {α : Type}

/-! ## Flat tensors -/

/-- `x.cumsum(0)`. -/
def cumsum (xs : List ℤ) : List ℤ := (xs.scanl (· + ·) 0).tail

/-- `x.repeat_interleave(repeats)`. -/
def repeatInterleave (xs : List α) (repeats : List ℕ) : List α :=
  (List.zipWith (fun x n => List.replicate n x) xs repeats).flatten

/-- `x + arange(start, start + len(x))`. -/
def addArange (start : ℤ) (xs : List ℤ) : List ℤ := xs.mapIdx fun (k : ℕ) (x : ℤ) => x + (start + k)

/-- `x[i]` : a negative index counts from the end. -/
def tensorGet? (xs : List α) (i : ℤ) : Option α :=
  if 0 ≤ i then xs[i.toNat]? else if 0 ≤ i + xs.length then xs[(i + xs.length).toNat]? else none

theorem tensorGet?_natCast (xs : List α) (i : ℕ) : tensorGet? xs i = xs[i]? := by
  rw [tensorGet?, if_pos (Int.natCast_nonneg i), Int.toNat_natCast]

theorem toList_flatten {m n : ℕ} (xs : Vector (Vector α n) m) :
    xs.flatten.toList = (xs.toList.map Vector.toList).flatten := by
  unfold Vector.flatten Vector.toList
  rw [Array.toList_flatten, Array.toList_map, List.map_map]
  rfl

theorem length_cumsum (xs : List ℤ) : (cumsum xs).length = xs.length := by
  rw [cumsum, List.length_tail, List.length_scanl, Nat.add_sub_cancel]

theorem getElem?_cumsum {xs : List ℤ} {k : ℕ} (hk : k < xs.length) : (cumsum xs)[k]? = some (xs.take (k + 1)).sum := by
  rw [cumsum, List.getElem?_tail, List.getElem?_scanl, if_pos (Nat.succ_le_of_lt hk), List.sum_eq_foldl]

theorem getElem?_cumsum_natCast {ns : List ℕ} {k : ℕ} (hk : k < ns.length) :
    (cumsum (ns.map Nat.cast))[k]? = some ((ns.take (k + 1)).sum : ℤ) := by
  rw [getElem?_cumsum (by rwa [List.length_map]), ← List.map_take, Nat.cast_list_sum]

/-! ## Sums of the elements before -/

/-- The sums of the elements before each, from `init` on. -/
def sumsBefore (init : ℤ) : List ℤ → List ℤ
  | [] => []
  | x :: xs => init :: sumsBefore (init + x) xs

theorem sumsBefore_eq (init : ℤ) (xs : List ℤ) : sumsBefore init xs = (xs.scanl (· + ·) init).dropLast := by
  induction xs generalizing init with
  | nil => rw [List.scanl_nil]; rfl
  | cons x xs ih =>
    rw [List.scanl_cons, List.dropLast_cons_of_ne_nil List.scanl_ne_nil, ← ih]
    rfl

theorem set_rotateRight {xs : List α} (h : xs ≠ []) (x : α) : (xs.rotateRight 1).set 0 x = x :: xs.dropLast := by
  unfold List.rotateRight
  dsimp only
  split_ifs with hlen
  · obtain ⟨y, rfl⟩ := List.length_eq_one_iff.mp (Nat.le_antisymm hlen (List.length_pos_iff.mpr h))
    rfl
  · rw [Nat.mod_eq_of_lt (Nat.lt_of_not_le hlen), List.drop_length_sub_one h, List.dropLast_eq_take]
    rfl

theorem cumsum_ne_nil {xs : List ℤ} (h : xs ≠ []) : cumsum xs ≠ [] := by
  refine List.ne_nil_of_length_pos ?_
  rw [length_cumsum]
  exact List.length_pos_iff.mpr h

theorem rotateRight_cumsum_ne_nil {xs : List ℤ} (h : xs ≠ []) : (cumsum xs).rotateRight 1 ≠ [] := by
  intro hnil
  have hset := set_rotateRight (cumsum_ne_nil h) 0
  rw [hnil] at hset
  cases hset

/-- A `cumsum` that is rotated and starts with zero has the sums of the elements before. -/
theorem set_rotateRight_cumsum {xs : List ℤ} (h : xs ≠ []) :
    ((cumsum xs).rotateRight 1).set 0 0 = sumsBefore 0 xs := by
  rw [set_rotateRight (cumsum_ne_nil h), sumsBefore_eq]
  cases xs with
  | nil => exact absurd rfl h
  | cons x xs =>
    rw [cumsum, List.scanl_cons, List.tail_cons, List.dropLast_cons_of_ne_nil List.scanl_ne_nil]

/-! ## Used elements of rows -/

theorem addArange_append (start : ℤ) (xs ys : List ℤ) :
    addArange start (xs ++ ys) = addArange start xs ++ addArange (start + xs.length) ys := by
  unfold addArange
  rw [List.mapIdx_append]
  congr 1
  refine congrArg (List.mapIdx · ys) (funext₂ fun k x => ?_)
  rw [Nat.cast_add]
  omega

/-- Reads of a run of places within a list. -/
theorem map_tensorGet?_run {pre xs : List α} (post : List α) {n : ℕ} (hn : n ≤ xs.length) {unused used : ℤ}
    (hpre : unused + used = pre.length) :
    (addArange used (List.replicate n unused)).map (tensorGet? (pre ++ xs ++ post)) = (xs.take n).map some := by
  refine List.ext_getElem? fun j => ?_
  rw [addArange, List.getElem?_map, List.getElem?_mapIdx, List.getElem?_map, List.getElem?_replicate,
    List.getElem?_take]
  split_ifs with hj
  · have hlt : j < xs.length := hj.trans_le hn
    rw [Option.map_some, Option.map_some, ← Int.add_assoc, hpre, ← Nat.cast_add, tensorGet?_natCast,
      List.append_assoc, List.getElem?_append_right (Nat.le_add_right _ _), Nat.add_sub_cancel_left,
      List.getElem?_append_left hlt, List.getElem?_eq_getElem hlt]
    rfl
  · rfl

/-- **The unused elements before a row, added to the places in the packed list, are the places in the rows.** -/
theorem map_tensorGet?_rows {n : ℕ} {rows : List (List α × ℕ)} (hrows : ∀ p ∈ rows, p.1.length = n ∧ p.2 ≤ n)
    (pre : List α) {unused used : ℤ} (hpre : unused + used = pre.length) :
    (addArange used (repeatInterleave (sumsBefore unused (rows.map fun p => (n : ℤ) - p.2)) (rows.map (·.2)))).map
        (tensorGet? (pre ++ (rows.map (·.1)).flatten)) =
      (rows.map fun p => p.1.take p.2).flatten.map some := by
  induction rows generalizing pre unused used with
  | nil => rfl
  | cons p rows ih =>
    obtain ⟨row, k⟩ := p
    obtain ⟨hlen, hk⟩ := hrows (row, k) List.mem_cons_self
    have hlist : pre ++ (((row, k) :: rows).map (·.1)).flatten = pre ++ row ++ (rows.map (·.1)).flatten := by
      rw [List.map_cons, List.flatten_cons, List.append_assoc]
    have hrun := map_tensorGet?_run (rows.map (·.1)).flatten (hk.trans hlen.ge) hpre
    -- the row is read; the next rows start after all of it
    have hnext : unused + (n - k) + (used + k) = ((pre ++ row).length : ℕ) := by
      rw [List.length_append, hlen, Nat.cast_add, ← hpre]
      omega
    have hrest := ih (fun q hq => hrows q (List.mem_cons_of_mem _ hq)) (pre ++ row) hnext
    rw [hlist]
    show (addArange used (List.replicate k unused ++ _)).map _ = _
    rw [addArange_append, List.length_replicate, List.map_append, hrun]
    exact (congrArg (_ ++ ·) hrest).trans List.map_append.symm

/-! ## Segments found again -/

/-- An element of a segment, by the sum of the lengths of those before. -/
theorem getElem?_flatten_take {segs : List (List α)} {r : ℕ} {seg : List α} (h : segs[r]? = some seg) {i : ℕ}
    (hi : i < seg.length) : segs.flatten[((segs.take r).map List.length).sum + i]? = seg[i]? := by
  obtain ⟨hr, rfl⟩ := List.getElem?_eq_some_iff.mp h
  have hflat := getElem?_flatten_map id (segs.take r) segs[r] (segs.drop (r + 1)) hi
  rwa [List.getElem_cons_drop, List.take_append_drop, List.map_id] at hflat

/-- A padded list, place by place. -/
theorem map_range_getD (pad : α) {xs : List α} {n : ℕ} (h : xs.length ≤ n) :
    ((List.range n).map fun i => xs[i]?.getD pad) = xs.rightpad n pad := by
  refine List.ext_getElem? fun i => ?_
  rw [List.getElem?_map]
  rcases Nat.lt_or_ge i n with hi | hi
  · rw [List.getElem?_range hi, getElem?_rightpad pad hi]
    rfl
  · rw [List.getElem?_eq_none (by rwa [List.length_range]),
      List.getElem?_eq_none (by rwa [length_rightpad_of_le pad h])]
    rfl

end FairCache.Lib
