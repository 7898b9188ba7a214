import Mathlib.Algebra.Order.Group.Nat

/-!
# A cursor that is left behind

A loop reads a list at a cursor of its own instead of at its place, and does not advance the cursor at some steps: whether
it does depends on what it read. These are the lists of which it still reads the right entries.

* `cursor` : where the loop reads at each of its steps; `cursor_eq_or` : at its place, or at an entry like one that was
  passed over;
* `cursor_reads_iff` : it reads the right entries exactly if the ones after an entry that is passed over are all like it.
-/

namespace FairCache.Lib

variable {β : Type} (f : ℕ → β) (stays : β → ℕ → Bool)

/-- Where the loop reads at its `i`-th step. -/
def cursor : ℕ → ℕ
  | 0 => 0
  | i + 1 => if stays (f (cursor i)) i then cursor i else cursor i + 1

/-- After an entry at which the cursor stays, all are like it. -/
def LikeStayed (n : ℕ) : Prop := ∀ i j, i < j → j < n → stays (f i) i = true → f j = f i

instance [DecidableEq β] (n : ℕ) : Decidable (LikeStayed f stays n) :=
  decidable_of_iff (∀ j < n, ∀ i < j, stays (f i) i = true → f j = f i)
    ⟨fun h i j hij hj => h j hj i hij, fun h j hj i hij => h i j hij hj⟩

variable {f stays} in
theorem cursor_succ_of_stays {i : ℕ} (h : stays (f (cursor f stays i)) i = true) :
    cursor f stays (i + 1) = cursor f stays i := by
  rw [cursor, if_pos h]

theorem cursor_succ_le (i : ℕ) : cursor f stays i ≤ cursor f stays (i + 1) ∧
    cursor f stays (i + 1) ≤ cursor f stays i + 1 := by
  rw [cursor]
  split_ifs <;> omega

/-- The cursor is at its place, or between an entry at which it stayed and its place. -/
theorem cursor_eq_or_between (i : ℕ) : cursor f stays i = i ∨
    ∃ k, stays (f k) k = true ∧ k ≤ cursor f stays i ∧ cursor f stays i < i := by
  induction i with
  | zero => exact Or.inl rfl
  | succ i ih =>
    obtain ⟨hge, hle⟩ := cursor_succ_le f stays i
    rcases ih with heq | ⟨k, hk, hkc, hci⟩
    · by_cases hstays : stays (f i) i = true
      · have hstay : cursor f stays (i + 1) = i := by
          rw [cursor_succ_of_stays (by rw [heq]; exact hstays), heq]
        exact Or.inr ⟨i, hstays, hstay.ge, by omega⟩
      · left
        rw [cursor, if_neg (by rw [heq]; exact hstays), heq]
    · exact Or.inr ⟨k, hk, by omega, by omega⟩

variable {f stays} {n : ℕ}

/-- What is read is the entry at the place, or it and that entry are like one at which the cursor stayed. -/
theorem cursor_eq_or (h : LikeStayed f stays n) {i : ℕ} (hi : i < n) : cursor f stays i = i ∨
    ∃ k, stays (f k) k = true ∧ f (cursor f stays i) = f k ∧ f i = f k := by
  rcases cursor_eq_or_between f stays i with heq | ⟨k, hk, hkc, hci⟩
  · exact Or.inl heq
  · refine Or.inr ⟨k, hk, ?_, h k i (by omega) hi hk⟩
    rcases eq_or_lt_of_le hkc with heq | hlt
    · rw [← heq]
    · exact h k _ hlt (by omega) hk

/-- While the right entries are read, the cursor is at its place, or what is from the first entry at which it stayed on
is all like that entry. -/
theorem cursor_of_reads (h : ∀ i < n, f (cursor f stays i) = f i) {j : ℕ} (hj : j ≤ n) :
    (cursor f stays j = j ∧ ∀ m < j, stays (f m) m = false) ∨
      ∃ k, k ≤ cursor f stays j ∧ cursor f stays j < j ∧ (∀ m, k ≤ m → m < j → f m = f k) ∧
        ∀ m < k, stays (f m) m = false := by
  induction j with
  | zero => exact Or.inl ⟨rfl, fun m hm => absurd hm (Nat.not_lt_zero m)⟩
  | succ j ih =>
    obtain ⟨hge, hle⟩ := cursor_succ_le f stays j
    have hread := h j (by omega)
    rcases ih (by omega) with ⟨heq, hnone⟩ | ⟨k, hkc, hcj, hlike, hnone⟩
    · by_cases hstays : stays (f j) j = true
      · have hstay : cursor f stays (j + 1) = j := by
          rw [cursor_succ_of_stays (by rw [hread]; exact hstays), heq]
        refine Or.inr ⟨j, hstay.ge, by omega, fun m hm hm' => ?_, hnone⟩
        rw [show m = j by omega]
      · refine Or.inl ⟨?_, fun m hm => ?_⟩
        · rw [cursor, if_neg (by rw [hread]; exact hstays), heq]
        · rcases eq_or_lt_of_le (Nat.lt_succ_iff.mp hm) with rfl | hlt
          · exact Bool.not_eq_true _ ▸ hstays
          · exact hnone m hlt
    · refine Or.inr ⟨k, by omega, by omega, fun m hkm hm => ?_, hnone⟩
      rcases eq_or_lt_of_le (Nat.lt_succ_iff.mp hm) with rfl | hlt
      · rw [← hread]
        exact hlike _ hkc hcj
      · exact hlike m hkm hlt

/-- **The right entries are read exactly if those after an entry at which the cursor stays are all like it.** -/
theorem cursor_reads_iff : (∀ i < n, f (cursor f stays i) = f i) ↔ LikeStayed f stays n := by
  constructor
  · intro h i j hij hjn hstays
    rcases cursor_of_reads h le_rfl with ⟨-, hnone⟩ | ⟨k, -, -, hlike, hnone⟩
    · rw [hnone i (by omega)] at hstays
      cases hstays
    · have hki : k ≤ i := by
        by_contra hlt
        rw [hnone i (by omega)] at hstays
        cases hstays
      rw [hlike j (by omega) hjn, hlike i hki (by omega)]
  · intro h i hi
    rcases cursor_eq_or h hi with heq | ⟨k, -, hread, hown⟩
    · rw [heq]
    · rw [hread, hown]

end FairCache.Lib
