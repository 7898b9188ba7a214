import Mathlib.Algebra.Ring.Nat
import Mathlib.Data.Int.Notation
import Mathlib.Data.List.Basic

/-!
# Segments of a flattened list

Lists of unequal lengths are laid one after the other in one flat list, and read back by slices of it.

* `pySlice` : a slice with bounds that may be negative or too large. `pySlice_segment` : a slice within a segment;
* `offsets` : where the segments start, and where the last one ends. `getElem?_offsets_pred` : the last element of a
  segment is right before its end;
* `getElem?_flatten_map` : an element by its segment and its place there. `length_flatten_rightpad`,
  `getElem?_flatten_rightpad` : the segments are padded to given lengths.
-/

namespace FairCache.Lib

variable {α : Type}

/-- `xs[start:stop]` : a negative bound counts from the end, a bound that is too large is cut. -/
def pySlice (xs : List α) (start stop : ℤ) : List α :=
  let index (i : ℤ) : ℕ := (if i < 0 then i + xs.length else i).toNat
  (xs.take (index stop)).drop (index start)

theorem pySlice_natCast (xs : List α) (a b : ℕ) : pySlice xs a b = (xs.take b).drop a := by
  have ha : ¬ (a : ℤ) < 0 := by omega
  have hb : ¬ (b : ℤ) < 0 := by omega
  unfold pySlice
  simp only [if_neg ha, if_neg hb, Int.toNat_natCast]

theorem pySlice_to_end (xs : List α) (a : ℕ) : pySlice xs a xs.length = xs.drop a := by
  rw [pySlice_natCast, List.take_length]

/-- A slice between two places of a segment is a slice of the segment. -/
theorem pySlice_segment (pre seg post : List α) {a b : ℕ} (hb : b ≤ seg.length) :
    pySlice (pre ++ seg ++ post) (pre.length + a : ℕ) (pre.length + b : ℕ) = (seg.take b).drop a := by
  rw [pySlice_natCast, List.append_assoc, List.take_length_add_append, List.take_append_of_le_length hb,
    List.drop_length_add_append]

/-- An element of a segment, by the lengths of those before. -/
theorem getElem?_flatten_map {β : Type} (f : β → List α) (before : List β) (p : β) (after : List β) {i : ℕ}
    (hi : i < (f p).length) :
    ((before ++ p :: after).map f).flatten[(before.map fun q => (f q).length).sum + i]? = (f p)[i]? := by
  have hlen : (before.map fun q => (f q).length).sum = (before.map f).flatten.length := by
    rw [List.length_flatten, List.map_map]
    rfl
  rw [hlen, List.map_append, List.flatten_append, List.getElem?_append_right (Nat.le_add_right _ _),
    Nat.add_sub_cancel_left, List.map_cons, List.flatten_cons, List.getElem?_append_left hi]

section Padded
variable {β : Type} {f : β → List α} {width : β → ℕ} (pad : α) {segs : List β}

theorem length_rightpad_of_le {xs : List α} {n : ℕ} (h : xs.length ≤ n) : (xs.rightpad n pad).length = n := by
  rw [List.length_rightpad, Nat.max_eq_left h]

theorem getElem?_rightpad {xs : List α} {n i : ℕ} (hi : i < n) :
    (xs.rightpad n pad)[i]? = some (xs[i]?.getD pad) := by
  rw [List.rightpad]
  by_cases hlt : i < xs.length
  · rw [List.getElem?_append_left hlt, List.getElem?_eq_getElem hlt, Option.getD_some]
  · have hnone : xs[i]? = none := List.getElem?_eq_none (by omega)
    rw [List.getElem?_append_right (by omega), hnone, Option.getD_none, List.getElem?_replicate, if_pos (by omega)]

theorem length_flatten_rightpad (hf : ∀ p ∈ segs, (f p).length ≤ width p) :
    (segs.map fun p => (f p).rightpad (width p) pad).flatten.length = (segs.map width).sum := by
  rw [List.length_flatten, List.map_map]
  congr 1
  exact List.map_congr_left fun p hp => length_rightpad_of_le pad (hf p hp)

/-- A place of a padded segment. -/
theorem getElem?_flatten_rightpad (hf : ∀ p ∈ segs, (f p).length ≤ width p) {before after : List β} {p : β}
    (hsegs : segs = before ++ p :: after) {i : ℕ} (hi : i < width p) :
    (segs.map fun q => (f q).rightpad (width q) pad).flatten[(before.map width).sum + i]? =
      some ((f p)[i]?.getD pad) := by
  subst hsegs
  have hsum : (before.map width).sum = (before.map fun q => ((f q).rightpad (width q) pad).length).sum := by
    congr 1
    exact List.map_congr_left fun q hq => (length_rightpad_of_le pad (hf q (List.mem_append_left _ hq))).symm
  have hlen := length_rightpad_of_le pad (hf p (List.mem_append_right _ List.mem_cons_self))
  rw [hsum, getElem?_flatten_map _ _ _ _ (by rw [hlen]; exact hi), getElem?_rightpad pad hi]

end Padded

/-- The running sums of the lengths, from zero on. -/
def offsets (lengths : List ℕ) : List ℕ := lengths.scanl (· + ·) 0

/-- The last element of a segment that is not empty is right before the end of the segment. -/
theorem getElem?_append_pred (pre seg post : List α) (h : seg ≠ []) :
    (pre ++ seg ++ post)[pre.length + seg.length - 1]? = seg.getLast? := by
  have hpos := List.length_pos_iff.mpr h
  rw [List.append_assoc, List.getElem?_append_right (by omega), List.getElem?_append_left (by omega),
    List.getLast?_eq_getElem?]
  congr 1
  omega

theorem scanl_eq_cons_tail (lengths : List ℕ) (n : ℕ) :
    lengths.scanl (· + ·) n = n :: (lengths.scanl (· + ·) n).tail := by
  cases lengths with
  | nil => simp
  | cons l lengths => simp

/-- Right before the end of every segment is its last element. -/
theorem getElem?_offsets_pred (segs : List (List α)) (h : ∀ seg ∈ segs, seg ≠ []) :
    (offsets (segs.map List.length)).tail.map (fun stop => segs.flatten[stop - 1]?) = segs.map List.getLast? := by
  have hfrom : ∀ (segs : List (List α)), (∀ seg ∈ segs, seg ≠ []) → ∀ pre : List α,
      ((segs.map List.length).scanl (· + ·) pre.length).tail.map (fun stop => (pre ++ segs.flatten)[stop - 1]?) =
        segs.map List.getLast? := by
    intro segs
    induction segs with
    | nil => intro _ pre; simp
    | cons seg segs ih =>
      intro h pre
      have hlast := getElem?_append_pred pre seg segs.flatten (h seg List.mem_cons_self)
      have hrest := ih (fun seg' hseg => h seg' (List.mem_cons_of_mem _ hseg)) (pre ++ seg)
      rw [List.length_append] at hrest
      rw [List.map_cons, List.scanl_cons, List.tail_cons, scanl_eq_cons_tail, List.map_cons, List.map_cons,
        List.flatten_cons, ← List.append_assoc, hlast, hrest]
  exact hfrom segs h []

end FairCache.Lib
