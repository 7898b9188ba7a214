import Mathlib.Algebra.BigOperators.Group.List.Basic
import Mathlib.Algebra.Ring.Nat

/-!
# Recency

* `Recency log keys` : the keys stand in the order of their last use, where `log` lists the uses, the latest first;
  a use moves its key to the end (`Recency.touch`), and keys may be left out (`Recency.sublist`);
* `MakesRoom limit need sizes n` : the first `n` of the sizes are the shortest prefix without which `need` fits.
-/

namespace FairCache.Lib

section Recency

variable {K : Type} [DecidableEq K]

/-- The keys are in use, and stand in the order of their last use. -/
structure Recency (log keys : List K) : Prop where
  used : ∀ k ∈ keys, k ∈ log
  ordered : keys.Pairwise fun j k => log.idxOf k < log.idxOf j

namespace Recency

variable {log keys keys' : List K}

theorem nil (log : List K) : Recency log [] := ⟨fun _ h => absurd h List.not_mem_nil, List.Pairwise.nil⟩

theorem sublist (h : Recency log keys) (hsub : keys'.Sublist keys) : Recency log keys' :=
  ⟨fun k hk => h.used k (hsub.subset hk), h.ordered.sublist hsub⟩

/-- What has just been used goes to the end. -/
theorem touch (h : Recency log keys) {k : K} (hk : k ∉ keys) : Recency (k :: log) (keys ++ [k]) := by
  have hne : ∀ j ∈ keys, k ≠ j := fun j hj heq => hk (heq ▸ hj)
  refine ⟨?_, ?_⟩
  · intro j hj
    rcases List.mem_append.mp hj with hj | hj
    · exact List.mem_cons_of_mem _ (h.used j hj)
    · rw [List.mem_singleton.mp hj]
      exact List.mem_cons_self
  · rw [List.pairwise_append]
    refine ⟨?_, List.pairwise_singleton _ _, ?_⟩
    · apply h.ordered.imp_of_mem
      intro i j hi hj hij
      rw [List.idxOf_cons_ne _ (hne i hi), List.idxOf_cons_ne _ (hne j hj)]
      exact Nat.succ_lt_succ hij
    · intro j hj j' hj'
      rw [List.mem_singleton.mp hj', List.idxOf_cons_self, List.idxOf_cons_ne _ (hne j hj)]
      exact Nat.succ_pos _

/-- Everything in the front was last used before everything after it. -/
theorem front (h : Recency log keys) {n : ℕ} {j k : K} (hj : j ∈ keys.take n) (hk : k ∈ keys)
    (hnot : k ∉ keys.take n) : log.idxOf k < log.idxOf j := by
  rw [← List.take_append_drop n keys] at hk
  have hdrop : k ∈ keys.drop n := (List.mem_append.mp hk).resolve_left hnot
  have hsplit := h.ordered
  rw [← List.take_append_drop n keys, List.pairwise_append] at hsplit
  exact hsplit.2.2 j hj k hdrop

end Recency

end Recency

section MakesRoom

/-- Without the first `n` sizes there is room, and without fewer there is none. -/
structure MakesRoom (limit need : ℕ) (sizes : List ℕ) (n : ℕ) : Prop where
  le_length : n ≤ sizes.length
  fits : (sizes.drop n).sum + need ≤ limit
  shortest : ∀ m < n, limit < (sizes.drop m).sum + need

namespace MakesRoom

variable {limit need : ℕ} {sizes : List ℕ}

theorem zero (h : sizes.sum + need ≤ limit) : MakesRoom limit need sizes 0 :=
  ⟨Nat.zero_le _, h, fun _ hm => absurd hm (Nat.not_lt_zero _)⟩

theorem succ {size n : ℕ} (hfull : limit < (size :: sizes).sum + need) (h : MakesRoom limit need sizes n) :
    MakesRoom limit need (size :: sizes) (n + 1) := by
  refine ⟨Nat.succ_le_succ h.le_length, h.fits, ?_⟩
  intro m hm
  cases m with
  | zero => exact hfull
  | succ m => exact h.shortest m (Nat.lt_of_succ_lt_succ hm)

end MakesRoom

end MakesRoom

end FairCache.Lib
