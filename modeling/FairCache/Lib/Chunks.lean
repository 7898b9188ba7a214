import Mathlib.Data.List.Induction
import Mathlib.Logic.Function.Basic

/-!
# Chunks of a list and chained hashes

* `chunks n l` : the consecutive pieces of `n` elements, the last one possibly shorter; `lt_length_chunks`,
  `getElem?_chunks`, `getElem?_chunks_div` : how many there are and what they hold; `flatten_take_chunks`, `chunks_drop`;
* `CutLike n len ls` : the lists have the lengths of the first pieces of a list of `len` elements, and then
  `CutLike.getElem?_flatten` finds each element of the whole;
* `chainHash`, `prefixHashes` : the hash of a list of pieces, each hashed with the hash of the pieces before it, and
  the hashes of all prefixes; `chainHash_injective`.
-/

namespace FairCache.Lib

variable {α H : Type}

/-! ## Chunks -/

/-- `range(0, stop, step)`. -/
def rangeStep (stop step : ℕ) : List ℕ := (List.range ((stop + step - 1) / step)).map (· * step)

/-- `[l[i:i + n] for i in range(0, len(l), n)]`. -/
def chunks (n : ℕ) (l : List α) : List (List α) := (rangeStep l.length n).map fun i => (l.drop i).take n

theorem lt_length_rangeStep (stop : ℕ) {step : ℕ} (h : 0 < step) (k : ℕ) :
    k < (rangeStep stop step).length ↔ k * step < stop := by
  rw [rangeStep, List.length_map, List.length_range, Nat.lt_iff_add_one_le, Nat.le_div_iff_mul_le h, Nat.add_mul]
  omega

theorem getElem?_rangeStep {stop step : ℕ} (h : 0 < step) (k : ℕ) :
    (rangeStep stop step)[k]? = if k * step < stop then some (k * step) else none := by
  have hlen := lt_length_rangeStep stop h k
  split_ifs with hk
  · have hr := hlen.mpr hk
    rw [List.getElem?_eq_getElem hr]
    simp [rangeStep]
  · exact List.getElem?_eq_none (Nat.not_lt.mp fun hr => hk (hlen.mp hr))

section Chunks
variable {n : ℕ} (hn : 0 < n) (l : List α)
include hn

theorem getElem?_chunks (k : ℕ) :
    (chunks n l)[k]? = if k * n < l.length then some ((l.drop (k * n)).take n) else none := by
  rw [chunks, List.getElem?_map, getElem?_rangeStep hn]
  split_ifs <;> rfl

theorem lt_length_chunks (k : ℕ) : k < (chunks n l).length ↔ k * n < l.length := by
  rw [chunks, List.length_map]
  exact lt_length_rangeStep _ hn k

/-- Element `x` is element `x % n` of piece `x / n`. -/
theorem getElem?_chunks_div (x : ℕ) : (chunks n l)[x / n]?.bind (·[x % n]?) = l[x]? := by
  have hx := Nat.div_add_mod' x n
  rw [getElem?_chunks hn]
  split_ifs with h
  · rw [Option.bind_some, List.getElem?_take_of_lt (Nat.mod_lt x hn), List.getElem?_drop, hx]
  · rw [Option.bind_none, List.getElem?_eq_none (by omega)]

omit l in
theorem chunks_nil : chunks n ([] : List α) = [] := by
  refine List.eq_nil_of_length_eq_zero (Nat.eq_zero_of_not_pos fun h => ?_)
  simpa using (lt_length_chunks hn [] 0).mp h

/-- The first pieces together are the first elements. -/
theorem flatten_take_chunks (k : ℕ) : ((chunks n l).take k).flatten = l.take (k * n) := by
  induction k with
  | zero => simp
  | succ k ih =>
    rw [List.take_add_one, List.flatten_append, ih, getElem?_chunks hn, Nat.succ_mul, List.take_add]
    split_ifs with hk
    · simp
    · simp [List.drop_eq_nil_of_le (Nat.not_lt.mp hk)]

/-- Cutting off whole pieces leaves the other pieces. -/
theorem chunks_drop (k : ℕ) : chunks n (l.drop (k * n)) = (chunks n l).drop k := by
  refine List.ext_getElem? fun j => ?_
  rw [List.getElem?_drop, getElem?_chunks hn, getElem?_chunks hn, List.length_drop, List.drop_drop, ← Nat.add_mul]
  refine if_congr ?_ rfl rfl
  rw [Nat.add_mul]
  omega

end Chunks

/-! ## Lists that are cut like chunks -/

/-- The lists have the lengths of the first pieces of a list of `len` elements. -/
def CutLike (n len : ℕ) (ls : List (List α)) : Prop :=
  ∀ (j : ℕ) (l : List α), ls[j]? = some l → l.length = min n (len - j * n)

section CutLike
variable {n len : ℕ} {l : List α} {ls : List (List α)}

theorem CutLike.head (h : CutLike n len (l :: ls)) : l.length = min n len := by
  have := h 0 l rfl
  rwa [Nat.zero_mul, Nat.sub_zero] at this

theorem CutLike.tail (h : CutLike n len (l :: ls)) : CutLike n (len - n) ls := by
  intro j l' hj
  rw [h (j + 1) l' hj, Nat.succ_mul, Nat.add_comm, Nat.sub_sub]

theorem CutLike.length_flatten (h : CutLike n len ls) : ls.flatten.length = min (ls.length * n) len := by
  induction ls generalizing len with
  | nil => simp
  | cons l ls ih =>
    rw [List.flatten_cons, List.length_append, ih h.tail, h.head, List.length_cons, Nat.succ_mul]
    omega

/-- Element `x` of the whole is element `x % n` of piece `x / n`. -/
theorem CutLike.getElem?_flatten (hn : 0 < n) (h : CutLike n len ls) (x : ℕ) :
    ls.flatten[x]? = ls[x / n]?.bind (·[x % n]?) := by
  induction ls generalizing len x with
  | nil => rfl
  | cons l ls ih =>
    have hl := h.head
    rw [List.flatten_cons]
    by_cases hx : x < n
    · rw [Nat.div_eq_of_lt hx, Nat.mod_eq_of_lt hx, List.getElem?_cons_zero, Option.bind_some]
      by_cases hlx : x < l.length
      · rw [List.getElem?_append_left hlx]
      · -- the first piece is the last that is not empty
        have hflat := h.tail.length_flatten
        rw [List.getElem?_append_right (by omega), List.getElem?_eq_none (by omega), List.getElem?_eq_none (by omega)]
    · have hge : n ≤ x := Nat.not_lt.mp hx
      rw [Nat.div_eq_sub_div hn hge, List.getElem?_cons_succ, Nat.mod_eq_sub_mod hge, ← ih h.tail]
      by_cases hfull : l.length = n
      · rw [List.getElem?_append_right (by omega), hfull]
      · have hflat := h.tail.length_flatten
        rw [List.getElem?_eq_none (by rw [List.length_append]; omega), List.getElem?_eq_none (by omega)]

end CutLike

/-! ## Leading elements -/

theorem getElem?_takeWhile {p : α → Bool} {l : List α} {j : ℕ} (h : j < (l.takeWhile p).length) :
    ∃ x, l[j]? = some x ∧ (l.takeWhile p)[j]? = some x ∧ p x = true := by
  induction l generalizing j with
  | nil => exact absurd h (Nat.not_lt_zero j)
  | cons a l ih =>
    cases hp : p a with
    | false => simp [hp] at h
    | true =>
      rw [List.takeWhile_cons_of_pos hp] at h ⊢
      cases j with
      | zero => exact ⟨a, rfl, rfl, hp⟩
      | succ j => exact ih (Nat.lt_of_succ_lt_succ h)

theorem eq_false_of_getElem?_length_takeWhile {p : α → Bool} {l : List α} {x : α}
    (h : l[(l.takeWhile p).length]? = some x) : p x = false := by
  induction l with
  | nil => cases h
  | cons a l ih =>
    cases hp : p a with
    | false =>
      rw [List.takeWhile_cons_of_neg (by simp [hp])] at h
      cases h
      exact hp
    | true =>
      rw [List.takeWhile_cons_of_pos hp] at h
      exact ih h

/-! ## Chained hashes -/

/-- The hash of a list of pieces. -/
def chainHash (hash : α → H → H) (init : H) (cs : List α) : H := cs.foldl (fun h c => hash c h) init

/-- The hashes of the prefixes, the shortest first. -/
def prefixHashes (hash : α → H → H) : H → List α → List H
  | _, [] => []
  | h, c :: cs => hash c h :: prefixHashes hash (hash c h) cs

variable {hash : α → H → H}

theorem getElem?_prefixHashes (h : H) (cs : List α) (k : ℕ) :
    (prefixHashes hash h cs)[k]? = if k < cs.length then some (chainHash hash h (cs.take (k + 1))) else none := by
  induction cs generalizing h k with
  | nil => rfl
  | cons c cs ih =>
    cases k with
    | zero => rfl
    | succ k =>
      rw [prefixHashes, List.getElem?_cons_succ, ih]
      simp [chainHash]

/-- **A hash of pieces that is injective and never answers the initial hash chains to an injective hash.** -/
theorem chainHash_injective {init : H} (hinj : Function.Injective2 hash) (hinit : ∀ c h, hash c h ≠ init)
    {cs ds : List α} (h : chainHash hash init cs = chainHash hash init ds) : cs = ds := by
  induction cs using List.reverseRecOn generalizing ds with
  | nil =>
    cases ds using List.reverseRecOn with
    | nil => rfl
    | append_singleton ds d => exact absurd (by simpa [chainHash] using h.symm) (hinit d (chainHash hash init ds))
  | append_singleton cs c ih =>
    cases ds using List.reverseRecOn with
    | nil => exact absurd (by simpa [chainHash] using h) (hinit c (chainHash hash init cs))
    | append_singleton ds d =>
      have hlast : hash c (chainHash hash init cs) = hash d (chainHash hash init ds) := by
        simpa [chainHash] using h
      obtain ⟨rfl, hprev⟩ := hinj hlast
      rw [ih hprev]

end FairCache.Lib
