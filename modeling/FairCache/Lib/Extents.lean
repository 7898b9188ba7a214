import Mathlib.Data.List.Basic
import Mathlib.Data.Nat.Notation
import Mathlib.Data.List.Pairwise
import Mathlib.Algebra.BigOperators.Group.List.Basic
import Mathlib.Algebra.BigOperators.Intervals
import Mathlib.Algebra.Order.BigOperators.Group.Finset

/-!
# Extents that tile a segment

* `Extent` : a start and a size; `Contains i x` : `x` is in it; `Apart i j` : nothing is in both;
* `depth l x` : how many of the extents contain `x`; `Tiles l n` : every number below `n` is in exactly one of them, and
  no other number in any;
* `Separated l` : the extents are in order and neither overlap nor touch;
* `joinHead`, `joinSeam` : joining extents that touch. `depth_joinSeam`, `separated_joinSeam` : it makes a separated
  list of one that only does not overlap.
-/

namespace FairCache.Lib

/-- The numbers from `start` on, `size` of them. -/
structure Extent where
  start : ℕ
  size : ℕ
  deriving DecidableEq, Repr

namespace Extent

/-- The first number after the extent. -/
def stop (i : Extent) : ℕ := i.start + i.size

/-- `x` is in the extent. -/
def Contains (i : Extent) (x : ℕ) : Prop := i.start ≤ x ∧ x < i.start + i.size

instance (i : Extent) (x : ℕ) : Decidable (i.Contains x) := inferInstanceAs (Decidable (_ ∧ _))

/-- Nothing is in both. -/
def Apart (i j : Extent) : Prop := ∀ x, ¬ (i.Contains x ∧ j.Contains x)

theorem Apart.symm {i j : Extent} (h : i.Apart j) : j.Apart i := fun x hx => h x hx.symm

/-- Non-empty extents that are apart lie one after the other. -/
theorem Apart.le {i j : Extent} (h : i.Apart j) (hi : 0 < i.size) (hj : 0 < j.size) :
    i.stop ≤ j.start ∨ j.stop ≤ i.start := by
  have h₁ := h (max i.start j.start)
  unfold Contains at h₁
  unfold stop
  omega

/-- Parts of extents that are apart are apart. -/
theorem Apart.mono {i j i' j' : Extent} (h : i.Apart j) (hi : ∀ x, i'.Contains x → i.Contains x)
    (hj : ∀ x, j'.Contains x → j.Contains x) : i'.Apart j' := fun x hx => h x ⟨hi x hx.1, hj x hx.2⟩

/-! ## Tilings -/

/-- How many of the extents contain `x`. -/
def depth (l : List Extent) (x : ℕ) : ℕ := l.countP fun i => i.Contains x

/-- **Every number below `n` is in exactly one of the extents, and no other number in any.** -/
def Tiles (l : List Extent) (n : ℕ) : Prop := ∀ x, depth l x = if x < n then 1 else 0

@[simp] theorem depth_nil (x : ℕ) : depth [] x = 0 := rfl

@[simp] theorem depth_cons (i : Extent) (l : List Extent) (x : ℕ) :
    depth (i :: l) x = depth l x + if i.Contains x then 1 else 0 := by
  simp [depth, List.countP_cons]

@[simp] theorem depth_append (l l' : List Extent) (x : ℕ) : depth (l ++ l') x = depth l x + depth l' x :=
  List.countP_append

theorem depth_perm {l l' : List Extent} (h : l.Perm l') (x : ℕ) : depth l x = depth l' x := h.countP_eq _

theorem tiles_perm {l l' : List Extent} {n : ℕ} (h : l.Perm l') : Tiles l n ↔ Tiles l' n :=
  forall_congr' fun x => by rw [depth_perm h]

theorem tiles_singleton (n : ℕ) : Tiles [⟨0, n⟩] n := by
  intro x
  simp [Contains]

/-- What contains `x` is counted. -/
theorem one_le_depth {l : List Extent} {i : Extent} {x : ℕ} (hi : i ∈ l) (hx : i.Contains x) : 1 ≤ depth l x :=
  List.countP_pos_iff.mpr ⟨i, hi, decide_eq_true hx⟩

/-- An extent of a tiling is apart from the others. -/
theorem Tiles.apart {l : List Extent} {i j : Extent} {n : ℕ} (h : Tiles (i :: l) n) (hj : j ∈ l) : i.Apart j := by
  rintro x ⟨hi, hjx⟩
  have hx := h x
  have hone := one_le_depth hj hjx
  rw [depth_cons, if_pos hi] at hx
  split_ifs at hx
  all_goals omega

/-- The extents of a tiling are apart from each other. -/
theorem Tiles.pairwise {l l' : List Extent} {n : ℕ} (h : Tiles (l ++ l') n) : l'.Pairwise Apart := by
  induction l' generalizing l with
  | nil => exact List.Pairwise.nil
  | cons i l' ih =>
    refine List.pairwise_cons.mpr ⟨fun j hj => ?_, ih (l := l ++ [i]) ?_⟩
    · exact ((tiles_perm List.perm_middle).mp h).apart (List.mem_append_right _ hj)
    · rwa [List.append_assoc, List.singleton_append]

theorem depth_split (s a b : ℕ) (x : ℕ) : depth [⟨s, a⟩, ⟨s + a, b⟩] x = depth [⟨s, a + b⟩] x := by
  have hcut : (Contains ⟨s, a⟩ x ∨ Contains ⟨s + a, b⟩ x) ↔ Contains ⟨s, a + b⟩ x := by
    show (s ≤ x ∧ x < s + a ∨ s + a ≤ x ∧ x < s + a + b) ↔ (s ≤ x ∧ x < s + (a + b))
    omega
  have hnot : ¬ (Contains ⟨s, a⟩ x ∧ Contains ⟨s + a, b⟩ x) := by
    show ¬ ((s ≤ x ∧ x < s + a) ∧ s + a ≤ x ∧ x < s + a + b)
    omega
  simp only [depth_cons, depth_nil]
  by_cases h₁ : Contains ⟨s, a⟩ x
  · rw [if_pos h₁, if_neg fun h₂ => hnot ⟨h₁, h₂⟩, if_pos (hcut.mp (Or.inl h₁))]
  · by_cases h₂ : Contains ⟨s + a, b⟩ x
    · rw [if_neg h₁, if_pos h₂, if_pos (hcut.mp (Or.inr h₂))]
    · rw [if_neg h₁, if_neg h₂, if_neg fun h => (hcut.mpr h).elim h₁ h₂]

/-- Counting by numbers is counting by extents. -/
theorem sum_depth {N : ℕ} {l : List Extent} (h : ∀ i ∈ l, i.stop ≤ N) :
    ∑ x ∈ Finset.range N, depth l x = (l.map size).sum := by
  induction l with
  | nil => simp
  | cons i l ih =>
    rw [List.forall_mem_cons] at h
    have hone : ∑ x ∈ Finset.range N, (if i.Contains x then 1 else 0) = i.size := by
      have hico : (Finset.range N).filter i.Contains = Finset.Ico i.start (i.start + i.size) := by
        have hN := h.1
        unfold stop at hN
        ext x
        simp only [Finset.mem_filter, Finset.mem_range, Finset.mem_Ico, Contains]
        omega
      rw [← Finset.sum_filter, hico, Finset.sum_const, Nat.card_Ico, Nat.add_sub_cancel_left]
      exact Nat.mul_one _
    simp only [depth_cons, Finset.sum_add_distrib, ih h.2, hone, List.map_cons, List.sum_cons]
    omega

/-- A tile ends within the segment. -/
theorem Tiles.stop_le {l : List Extent} {i : Extent} {n : ℕ} (h : Tiles l n) (hi : i ∈ l) (hpos : 0 < i.size) :
    i.stop ≤ n := by
  have hone := one_le_depth hi (x := i.stop - 1) (by unfold Contains stop; omega)
  rw [h (i.stop - 1)] at hone
  split_ifs at hone with hlt
  · omega
  · omega

/-- **The sizes of the tiles add up to that of the segment.** -/
theorem Tiles.sum_size {l : List Extent} {n : ℕ} (h : Tiles l n) (hpos : ∀ i ∈ l, 0 < i.size) :
    (l.map size).sum = n := by
  rw [← sum_depth (N := n) fun i hi => h.stop_le hi (hpos i hi)]
  have hall : ∀ x ∈ Finset.range n, depth l x = 1 := fun x hx => by rw [h x, if_pos (Finset.mem_range.mp hx)]
  rw [Finset.sum_congr rfl hall, Finset.sum_const, Finset.card_range]
  exact Nat.mul_one n

/-! ## Separated extents -/

/-- In order, and neither overlapping nor touching. -/
def Separated (l : List Extent) : Prop := l.Pairwise fun i j => i.stop < j.start

theorem Separated.sorted {l : List Extent} (h : Separated l) : l.Pairwise fun i j => i.start < j.start := by
  unfold Separated at h
  apply h.imp
  intro i j hij
  unfold stop at hij
  omega

theorem separated_cons {i : Extent} {l : List Extent} :
    Separated (i :: l) ↔ (∀ j ∈ l, i.stop < j.start) ∧ Separated l := List.pairwise_cons

/-- An extent between two lists is told from its neighbours. -/
theorem separated_insert {l l' : List Extent} {i : Extent} :
    Separated (l ++ i :: l') ↔
      Separated l ∧ Separated l' ∧ (∀ j ∈ l, j.stop < i.start) ∧ ∀ j ∈ l', i.stop < j.start := by
  unfold Separated
  rw [List.pairwise_append, List.pairwise_cons]
  constructor
  · rintro ⟨hl, ⟨hi, hl'⟩, hcross⟩
    exact ⟨hl, hl', fun j hj => hcross j hj i List.mem_cons_self, hi⟩
  · rintro ⟨hl, hl', hbefore, hafter⟩
    refine ⟨hl, ⟨hafter, hl'⟩, fun j hj j' hj' => ?_⟩
    have hji := hbefore j hj
    rcases List.mem_cons.mp hj' with rfl | hj'
    · exact hji
    · have hij := hafter j' hj'
      unfold stop at hij
      omega

/-! ## Joining what touches -/

/-- `i` before the list, joined with its head if they touch. -/
def joinHead (i : Extent) : List Extent → List Extent
  | [] => [i]
  | j :: l => if i.stop = j.start then ⟨i.start, i.size + j.size⟩ :: l else i :: j :: l

/-- The lists one after the other, joined where they meet. -/
def joinSeam : List Extent → List Extent → List Extent
  | [], l' => l'
  | [i], l' => joinHead i l'
  | i :: j :: l, l' => i :: joinSeam (j :: l) l'

theorem joinSeam_concat (l l' : List Extent) (i : Extent) : joinSeam (l ++ [i]) l' = l ++ joinHead i l' := by
  induction l with
  | nil => rfl
  | cons j l ih =>
    cases l with
    | nil => rfl
    | cons k l => exact congrArg (j :: ·) ih

theorem depth_joinHead (i : Extent) (l : List Extent) (x : ℕ) : depth (joinHead i l) x = depth (i :: l) x := by
  cases l with
  | nil => rfl
  | cons j l =>
    rw [joinHead]
    split_ifs with h
    · obtain ⟨a, n⟩ := i
      obtain ⟨b, m⟩ := j
      obtain rfl : a + n = b := h
      have hcut := depth_split a n m x
      simp only [depth_cons, depth_nil] at hcut ⊢
      omega
    · rfl

theorem pos_joinHead {i : Extent} {l : List Extent} (h : ∀ j ∈ i :: l, 0 < j.size) :
    ∀ j ∈ joinHead i l, 0 < j.size := by
  cases l with
  | nil => exact h
  | cons k l =>
    rw [joinHead]
    split_ifs
    · refine List.forall_mem_cons.mpr ⟨Nat.add_pos_left (h i List.mem_cons_self) _, fun j hj => ?_⟩
      exact h j (List.mem_cons_of_mem _ (List.mem_cons_of_mem _ hj))
    · exact h

theorem start_joinHead (i : Extent) (l : List Extent) : ∀ j ∈ joinHead i l, ∃ k ∈ i :: l, j.start = k.start := by
  cases l with
  | nil => exact fun j hj => ⟨j, hj, rfl⟩
  | cons k l =>
    rw [joinHead]
    split_ifs
    · refine List.forall_mem_cons.mpr ⟨⟨i, List.mem_cons_self, rfl⟩, fun j hj => ?_⟩
      exact ⟨j, List.mem_cons_of_mem _ (List.mem_cons_of_mem _ hj), rfl⟩
    · exact fun j hj => ⟨j, hj, rfl⟩

theorem separated_joinHead {i : Extent} {l : List Extent} (hl : Separated l) (hi : ∀ j ∈ l, i.stop ≤ j.start) :
    Separated (joinHead i l) := by
  cases l with
  | nil => exact List.pairwise_singleton _ _
  | cons k l =>
    obtain ⟨hk, hl'⟩ := separated_cons.mp hl
    have hik := hi k List.mem_cons_self
    rw [joinHead]
    split_ifs with h
    · refine separated_cons.mpr ⟨fun j hj => ?_, hl'⟩
      have := hk j hj
      unfold stop at *
      dsimp only
      omega
    · refine separated_cons.mpr ⟨fun j hj => ?_, hl⟩
      rcases List.mem_cons.mp hj with rfl | hj
      · omega
      · have := hk j hj
        unfold stop at *
        omega

theorem depth_joinSeam (l l' : List Extent) (x : ℕ) : depth (joinSeam l l') x = depth (l ++ l') x := by
  rcases List.eq_nil_or_concat l with rfl | ⟨l, i, rfl⟩
  · rfl
  · rw [List.concat_eq_append, joinSeam_concat, depth_append, depth_joinHead, List.append_assoc, depth_append]
    rfl

theorem pos_joinSeam {l l' : List Extent} (h : ∀ j ∈ l ++ l', 0 < j.size) : ∀ j ∈ joinSeam l l', 0 < j.size := by
  rcases List.eq_nil_or_concat l with rfl | ⟨l, i, rfl⟩
  · exact h
  · rw [List.concat_eq_append, List.append_assoc, List.forall_mem_append] at h
    rw [List.concat_eq_append, joinSeam_concat, List.forall_mem_append]
    exact ⟨h.1, pos_joinHead h.2⟩

/-- **Separated lists that do not overlap are separated when they are joined where they meet.** -/
theorem separated_joinSeam {l l' : List Extent} (hl : Separated l) (hl' : Separated l')
    (h : ∀ i ∈ l, ∀ j ∈ l', i.stop ≤ j.start) : Separated (joinSeam l l') := by
  rcases List.eq_nil_or_concat l with rfl | ⟨l, i, rfl⟩
  · exact hl'
  · rw [List.concat_eq_append] at hl h ⊢
    obtain ⟨hfront, -, hbefore, -⟩ := separated_insert.mp hl
    have hi : ∀ j ∈ l', i.stop ≤ j.start := h i (List.mem_append_right _ (List.mem_singleton_self i))
    rw [joinSeam_concat]
    refine List.pairwise_append.mpr ⟨hfront, separated_joinHead hl' hi, fun j hj k hk => ?_⟩
    obtain ⟨m, hm, hstart⟩ := start_joinHead i l' k hk
    have hji := hbefore j hj
    rcases List.mem_cons.mp hm with rfl | hm
    · omega
    · have := hi m hm
      unfold stop at *
      omega

end Extent

end FairCache.Lib
