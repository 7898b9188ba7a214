import Mathlib.Data.Finset.Card
import Mathlib.Data.Finset.Range
import Mathlib.Data.List.Basic
import Mathlib.Order.Lattice

/-!
# Indices picked in segments

A range is cut into segments, and some places of each are picked, in increasing order.

* `rank l b` : how many elements of `l` are below `b`; `getElem?_rank_iff` : right before that many stands `b`, if it is
  there;
* `pickAll` : what is picked of all segments; `mem_pickAll_iff`, `pairwise_pickAll`, `ranks_pickAll`.
-/

namespace FairCache.Lib

/-- How many elements are below `b`. -/
def rank (l : List ℕ) (b : ℕ) : ℕ := l.countP (· < b)

theorem rank_append (l l' : List ℕ) (b : ℕ) : rank (l ++ l') b = rank l b + rank l' b := List.countP_append

theorem rank_eq_length {l : List ℕ} {b : ℕ} (h : ∀ j ∈ l, j < b) : rank l b = l.length :=
  List.countP_eq_length.mpr fun j hj => decide_eq_true (h j hj)

theorem rank_eq_zero {l : List ℕ} {b : ℕ} (h : ∀ j ∈ l, b ≤ j) : rank l b = 0 :=
  List.countP_eq_zero.mpr fun j hj hlt => absurd (of_decide_eq_true hlt) (Nat.not_lt.mpr (h j hj))

/-- **In an increasing list the last element that is at most `b` is `b` exactly if `b` is in the list.** -/
theorem getElem?_rank_iff {l : List ℕ} (hl : l.Pairwise (· < ·)) (b : ℕ) :
    0 < rank l (b + 1) ∧ l[rank l (b + 1) - 1]? = some b ↔ b ∈ l := by
  induction l with
  | nil => exact ⟨fun h => absurd h.1 (Nat.lt_irrefl 0), fun h => absurd h List.not_mem_nil⟩
  | cons a l ih =>
    obtain ⟨hhead, htail⟩ := List.pairwise_cons.mp hl
    by_cases ha : a < b + 1
    · have hrank : rank (a :: l) (b + 1) = rank l (b + 1) + 1 := List.countP_cons_of_pos (decide_eq_true ha)
      rw [hrank, Nat.add_sub_cancel, List.mem_cons]
      rcases Nat.eq_zero_or_pos (rank l (b + 1)) with hzero | hpos
      · have hnot : b ∉ l := by
          intro hb
          have hcount := List.countP_eq_zero.mp hzero b hb
          exact hcount (decide_eq_true (Nat.lt_succ_self b))
        rw [hzero, List.getElem?_cons_zero, Option.some_inj]
        constructor
        · rintro ⟨-, rfl⟩
          exact .inl rfl
        · rintro (rfl | hb)
          · exact ⟨Nat.zero_lt_one, rfl⟩
          · exact absurd hb hnot
      · obtain ⟨n, hn⟩ : ∃ n, rank l (b + 1) = n + 1 := ⟨rank l (b + 1) - 1, by omega⟩
        have ih := ih htail
        rw [hn, Nat.add_sub_cancel] at ih
        rw [hn, List.getElem?_cons_succ]
        constructor
        · rintro ⟨-, h⟩
          exact .inr (ih.mp ⟨Nat.succ_pos n, h⟩)
        · rintro (rfl | hb)
          · -- something of the rest is at most `b`, and above it
            obtain ⟨j, hj, hlt⟩ := List.countP_pos_iff.mp hpos
            have hab := hhead j hj
            have hjb := of_decide_eq_true hlt
            omega
          · exact ⟨Nat.succ_pos _, (ih.mpr hb).2⟩
    · have hrank : rank (a :: l) (b + 1) = 0 := by
        refine rank_eq_zero fun j hj => ?_
        rcases List.mem_cons.mp hj with rfl | hj
        · omega
        · have := hhead j hj
          omega
      rw [hrank]
      refine iff_of_false (fun h => absurd h.1 (Nat.lt_irrefl 0)) fun hb => ?_
      rcases List.mem_cons.mp hb with rfl | hb
      · omega
      · have := hhead b hb
        omega

/-- Increasing indices below `n` are as many as `n` exactly if none is missing. -/
theorem length_eq_iff {l : List ℕ} (hl : l.Pairwise (· < ·)) {n : ℕ} (hlt : ∀ j ∈ l, j < n) :
    l.length = n ↔ ∀ j < n, j ∈ l := by
  have hnodup : l.Nodup := hl.imp fun h => Nat.ne_of_lt h
  have hsub : l.toFinset ⊆ Finset.range n := fun j hj => Finset.mem_range.mpr (hlt j (List.mem_toFinset.mp hj))
  have hcard : l.toFinset.card = l.length := List.toFinset_card_of_nodup hnodup
  constructor
  · intro hlength j hj
    have heq : l.toFinset = Finset.range n :=
      Finset.eq_of_subset_of_card_le hsub (by rw [Finset.card_range, hcard, hlength])
    exact List.mem_toFinset.mp (heq ▸ Finset.mem_range.mpr hj)
  · intro hall
    have heq : l.toFinset = Finset.range n :=
      Finset.Subset.antisymm hsub fun j hj => List.mem_toFinset.mpr (hall j (Finset.mem_range.mp hj))
    rw [← hcard, heq, Finset.card_range]

/-! ## Segments -/

/-- Every segment is there, and none is empty. -/
theorem lt_of_mem_zip {ends : List ℕ} : ∀ {a : ℕ}, (a :: ends).Pairwise (· < ·) → ∀ q ∈ (a :: ends).zip ends, q.1 < q.2 := by
  induction ends with
  | nil => intro a _ q hq; exact absurd hq List.not_mem_nil
  | cons b ends ih =>
    intro a hends q hq
    obtain ⟨hhead, htail⟩ := List.pairwise_cons.mp hends
    rw [List.zip_cons_cons] at hq
    rcases List.mem_cons.mp hq with rfl | hq
    · exact hhead b List.mem_cons_self
    · exact ih htail q hq

/-- **The segments cover the range.** -/
theorem exists_segment {ends : List ℕ} : ∀ {a last j : ℕ}, (a :: ends).getLast? = some last → a ≤ j → j < last →
    ∃ q ∈ (a :: ends).zip ends, q.1 ≤ j ∧ j < q.2 := by
  induction ends with
  | nil =>
    intro a last j hlast hle hlt
    cases hlast
    exact absurd hlt (Nat.not_lt.mpr hle)
  | cons b ends ih =>
    intro a last j hlast hle hlt
    rw [List.zip_cons_cons]
    rcases Nat.lt_or_ge j b with hj | hj
    · exact ⟨(a, b), List.mem_cons_self, hle, hj⟩
    · rw [List.getLast?_cons_cons] at hlast
      obtain ⟨q, hq, h⟩ := ih hlast hj hlt
      exact ⟨q, List.mem_cons_of_mem _ hq, h⟩

/-- No end is behind the last one. -/
theorem le_getLast {ends : List ℕ} : ∀ {a last : ℕ}, (a :: ends).Pairwise (· < ·) → (a :: ends).getLast? = some last →
    ∀ e ∈ a :: ends, e ≤ last := by
  induction ends with
  | nil =>
    intro a last _ hlast e he
    cases hlast
    exact (List.mem_singleton.mp he).le
  | cons b ends ih =>
    intro a last hends hlast e he
    obtain ⟨hhead, htail⟩ := List.pairwise_cons.mp hends
    rw [List.getLast?_cons_cons] at hlast
    rcases List.mem_cons.mp he with rfl | he
    · exact (hhead b List.mem_cons_self).le.trans (ih htail hlast b List.mem_cons_self)
    · exact ih htail hlast e he

variable (pick : ℕ → ℕ → List ℕ)

/-- What is picked of the segments from `a` on, which end at `ends`; `pick` counts from the start of its segment. -/
def pickAll (a : ℕ) : List ℕ → List ℕ
  | [] => []
  | b :: ends => (pick a b).map (· + a) ++ pickAll b ends

/-- The running counts of what is picked. -/
def pickCounts (a c : ℕ) : List ℕ → List ℕ
  | [] => [c]
  | b :: ends => c :: pickCounts b (c + (pick a b).length) ends

/-- What is picked of a segment is in it, in increasing order. -/
structure PicksWithin : Prop where
  increasing : ∀ a b, (pick a b).Pairwise (· < ·)
  within : ∀ a b, ∀ i ∈ pick a b, i < b - a

variable {pick} (h : PicksWithin pick)
include h

omit h in
theorem le_of_mem_pickAll {ends : List ℕ} : ∀ {a : ℕ}, (a :: ends).Pairwise (· < ·) → ∀ j ∈ pickAll pick a ends, a ≤ j := by
  induction ends with
  | nil => intro a _ j hj; exact absurd hj List.not_mem_nil
  | cons b ends ih =>
    intro a hends j hj
    obtain ⟨hhead, htail⟩ := List.pairwise_cons.mp hends
    rcases List.mem_append.mp hj with hj | hj
    · obtain ⟨i, -, rfl⟩ := List.mem_map.mp hj
      exact Nat.le_add_left a i
    · exact (hhead b List.mem_cons_self).le.trans (ih htail j hj)

theorem lt_of_mem_segment {a b j : ℕ} (hj : j ∈ (pick a b).map (· + a)) : a ≤ j ∧ j < b := by
  obtain ⟨i, hi, rfl⟩ := List.mem_map.mp hj
  have := h.within a b i hi
  omega

/-- What is picked is before the last end. -/
theorem lt_of_mem_pickAll {ends : List ℕ} : ∀ {a last : ℕ}, (a :: ends).Pairwise (· < ·) → (a :: ends).getLast? = some last →
    ∀ j ∈ pickAll pick a ends, j < last := by
  induction ends with
  | nil => intro a last _ _ j hj; exact absurd hj List.not_mem_nil
  | cons b ends ih =>
    intro a last hends hlast j hj
    rcases List.mem_append.mp hj with hj | hj
    · have hb := le_getLast hends hlast b (List.mem_cons_of_mem _ List.mem_cons_self)
      exact (lt_of_mem_segment h hj).2.trans_le hb
    · rw [List.getLast?_cons_cons] at hlast
      exact ih (List.pairwise_cons.mp hends).2 hlast j hj

/-- **The places are picked in increasing order.** -/
theorem pairwise_pickAll {ends : List ℕ} : ∀ {a : ℕ}, (a :: ends).Pairwise (· < ·) → (pickAll pick a ends).Pairwise (· < ·) := by
  induction ends with
  | nil => intro a _; exact List.Pairwise.nil
  | cons b ends ih =>
    intro a hends
    obtain ⟨-, htail⟩ := List.pairwise_cons.mp hends
    refine List.pairwise_append.mpr ⟨?_, ih htail, fun i hi j hj => ?_⟩
    · exact (h.increasing a b).map _ fun i j hij => Nat.add_lt_add_right hij a
    · exact (lt_of_mem_segment h hi).2.trans_le (le_of_mem_pickAll htail j hj)

/-- **A place of a segment is picked exactly if it is picked in the segment.** -/
theorem mem_pickAll_iff {ends : List ℕ} : ∀ {a : ℕ}, (a :: ends).Pairwise (· < ·) →
    ∀ q ∈ (a :: ends).zip ends, ∀ j, q.1 ≤ j → j < q.2 → (j ∈ pickAll pick a ends ↔ j - q.1 ∈ pick q.1 q.2) := by
  induction ends with
  | nil => intro a _ q hq; exact absurd hq List.not_mem_nil
  | cons b ends ih =>
    intro a hends q hq j hle hlt
    obtain ⟨hhead, htail⟩ := List.pairwise_cons.mp hends
    rw [List.zip_cons_cons] at hq
    rw [pickAll, List.mem_append]
    rcases List.mem_cons.mp hq with rfl | hq
    · have hnot : j ∉ pickAll pick b ends := fun hj => absurd (le_of_mem_pickAll htail j hj) (Nat.not_le.mpr hlt)
      rw [or_iff_left hnot, List.mem_map]
      constructor
      · rintro ⟨i, hi, rfl⟩
        rw [Nat.add_sub_cancel]
        exact hi
      · exact fun hi => ⟨j - a, hi, Nat.sub_add_cancel hle⟩
    · have hb : b ≤ q.1 := by
        have hmem := (List.of_mem_zip hq).1
        rcases List.mem_cons.mp hmem with hq1 | hq1
        · exact hq1.ge
        · exact ((List.pairwise_cons.mp htail).1 q.1 hq1).le
      have hnot : j ∉ (pick a b).map (· + a) := by
        intro hj
        have := (lt_of_mem_segment h hj).2
        omega
      rw [or_iff_right hnot]
      exact ih htail q hq j hle hlt

/-- **The running counts are the ranks of the ends.** -/
theorem pickCounts_eq {ends : List ℕ} : ∀ {a : ℕ} (c : ℕ), (a :: ends).Pairwise (· < ·) →
    pickCounts pick a c ends = (a :: ends).map fun l => c + rank (pickAll pick a ends) l := by
  induction ends with
  | nil => intro a c _; rfl
  | cons b ends ih =>
    intro a c hends
    obtain ⟨hhead, htail⟩ := List.pairwise_cons.mp hends
    have hzero : rank (pickAll pick a (b :: ends)) a = 0 := rank_eq_zero (le_of_mem_pickAll hends)
    have hrest : ∀ l ∈ b :: ends, c + (pick a b).length + rank (pickAll pick b ends) l =
        c + rank (pickAll pick a (b :: ends)) l := by
      intro l hl
      have hbl : b ≤ l := by
        rcases List.mem_cons.mp hl with rfl | hl
        · exact Nat.le_refl _
        · exact ((List.pairwise_cons.mp htail).1 l hl).le
      have hfirst : rank ((pick a b).map (· + a)) l = (pick a b).length := by
        rw [rank_eq_length fun j hj => (lt_of_mem_segment h hj).2.trans_le hbl, List.length_map]
      rw [pickAll, rank_append, hfirst, Nat.add_assoc]
    rw [List.map_cons, hzero, Nat.add_zero, pickCounts, ih _ htail]
    exact congrArg (c :: ·) (List.map_congr_left hrest)

end FairCache.Lib
