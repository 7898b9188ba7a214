import Mathlib.Data.List.TakeWhile
import Mathlib.Order.Lattice

/-!
# Lists sorted by a key

* `bisectRight key l k` : the position right of the elements whose key is at most `k`;
* `add key l x` : insertion at that position; a removal is `List.erase`;
* `left`, `right` : the parts on both sides of the position. `left_append_right`, `add_eq` : the list and the insertion
  in terms of them; `getElem?_pred_bisectRight`, `getElem?_bisectRight` : their neighbours of the position.
-/

namespace FairCache.Lib.SortedList

variable {α ι : Type} [LinearOrder ι] (key : α → ι)

/-- The elements whose key is at most `k`. -/
def left (l : List α) (k : ι) : List α := l.takeWhile fun y => key y ≤ k

/-- The elements from the first one on whose key is larger than `k`. -/
def right (l : List α) (k : ι) : List α := l.dropWhile fun y => key y ≤ k

/-- The position right of the elements whose key is at most `k`. -/
def bisectRight (l : List α) (k : ι) : ℕ := (left key l k).length

/-- Insertion, right of the elements with the same key. -/
def add (l : List α) (x : α) : List α :=
  l.take (bisectRight key l (key x)) ++ x :: l.drop (bisectRight key l (key x))

theorem left_append_right (l : List α) (k : ι) : left key l k ++ right key l k = l := List.takeWhile_append_dropWhile

variable {key} {l : List α} {k : ι}

theorem take_bisectRight (l : List α) (k : ι) : l.take (bisectRight key l k) = left key l k := by
  have h : (left key l k ++ right key l k).take (bisectRight key l k) = left key l k := List.take_left
  rwa [left_append_right key] at h

theorem drop_bisectRight (l : List α) (k : ι) : l.drop (bisectRight key l k) = right key l k := by
  have h : (left key l k ++ right key l k).drop (bisectRight key l k) = right key l k := List.drop_left
  rwa [left_append_right key] at h

theorem add_eq (l : List α) (x : α) : add key l x = left key l (key x) ++ x :: right key l (key x) := by
  rw [add, take_bisectRight, drop_bisectRight]

theorem le_of_mem_left {y : α} (h : y ∈ left key l k) : key y ≤ k := by
  unfold left at h
  have hy := List.mem_takeWhile_imp h
  exact of_decide_eq_true hy

/-- What is right of the position is larger: the head stopped the search, and the rest is sorted. -/
theorem lt_of_mem_right {y : α} (hl : l.Pairwise fun a b => key a < key b) (h : y ∈ right key l k) : k < key y := by
  induction l with
  | nil => cases h
  | cons z l ih =>
    rw [List.pairwise_cons] at hl
    unfold right at h
    rw [List.dropWhile_cons] at h
    split_ifs at h with hz
    · exact ih hl.2 h
    · have hlt : k < key z := not_le.mp fun hle => hz (decide_eq_true hle)
      rcases List.mem_cons.mp h with rfl | hmem
      · exact hlt
      · exact hlt.trans (hl.1 y hmem)

/-- The parts are told by their keys. -/
theorem left_right_append {l₁ l₂ : List α} (h₁ : ∀ y ∈ l₁, key y ≤ k) (h₂ : ∀ y ∈ l₂, k < key y) :
    left key (l₁ ++ l₂) k = l₁ ∧ right key (l₁ ++ l₂) k = l₂ := by
  have hpos : ∀ y ∈ l₁, decide (key y ≤ k) = true := fun y hy => decide_eq_true (h₁ y hy)
  unfold left right
  rw [List.takeWhile_append_of_pos hpos, List.dropWhile_append_of_pos hpos]
  cases l₂ with
  | nil => exact ⟨List.append_nil _, rfl⟩
  | cons z l₂ =>
    have hz : decide (key z ≤ k) = false := decide_eq_false (not_le.mpr (h₂ z List.mem_cons_self))
    rw [List.takeWhile_cons, List.dropWhile_cons, hz]
    exact ⟨List.append_nil _, rfl⟩

theorem add_append {l₁ l₂ : List α} {x : α} (h₁ : ∀ y ∈ l₁, key y ≤ key x) (h₂ : ∀ y ∈ l₂, key x < key y) :
    add key (l₁ ++ l₂) x = l₁ ++ x :: l₂ := by
  rw [add_eq, (left_right_append h₁ h₂).1, (left_right_append h₁ h₂).2]

/-- The element before the position, if there is one, ends the left part. -/
theorem getElem?_pred_bisectRight (l : List α) (k : ι) :
    (if 0 < bisectRight key l k then l[bisectRight key l k - 1]? else none) = (left key l k).getLast? := by
  unfold bisectRight
  rw [List.getLast?_eq_getElem?]
  split_ifs with h
  · have hget : (left key l k ++ right key l k)[(left key l k).length - 1]? = (left key l k)[(left key l k).length - 1]? :=
      List.getElem?_append_left (by omega)
    rwa [left_append_right key] at hget
  · have hnil : left key l k = [] := List.eq_nil_of_length_eq_zero (by omega)
    rw [hnil]
    rfl

theorem getElem?_bisectRight (l : List α) (k : ι) : l[bisectRight key l k]? = (right key l k).head? := by
  have hget : (left key l k ++ right key l k)[(left key l k).length]? = (right key l k)[0]? := by
    rw [List.getElem?_append_right (Nat.le_refl _), Nat.sub_self]
  rwa [left_append_right, ← List.head?_eq_getElem?] at hget

end FairCache.Lib.SortedList
