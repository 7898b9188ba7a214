import Mathlib.Data.Set.Insert

/-!
# Sets closed under prefixes

`before k j` is any relation, read as "`k` is a proper prefix of `j`".

* `ClosedUpTo before pending S` : each prefix of a member is a member or still to come;
* `LeafFirst before S ks` : the keys `ks` leave `S` in this order, each after all members that extend it;
* `ClosedUpTo.diff`, `ClosedUpTo.insert` : closed sets lose what is left by leaves first, and gain what was to come.
-/

namespace FairCache.Lib

variable {K : Type} {before : K → K → Prop} {pending S gone : Set K} {ks : List K} {j k : K}

/-- Each prefix of a member of `S` is a member or in `pending`. -/
def ClosedUpTo (before : K → K → Prop) (pending S : Set K) : Prop := ∀ j ∈ S, ∀ k, before k j → k ∈ S ∨ k ∈ pending

/-- Each of the keys comes after all members of `S` that extend it. -/
def LeafFirst (before : K → K → Prop) (S : Set K) (ks : List K) : Prop :=
  ∀ p k q, ks = p ++ k :: q → ∀ j ∈ S, before k j → j ∈ p

theorem leafFirst_nil (before : K → K → Prop) (S : Set K) : LeafFirst before S [] :=
  fun p k q h => absurd h.symm (List.append_ne_nil_of_right_ne_nil p (List.cons_ne_nil k q))

/-- A key follows once all that extends it has gone. -/
theorem LeafFirst.concat (h : LeafFirst before S ks) (hk : ∀ j ∈ S, before k j → j ∈ ks) :
    LeafFirst before S (ks ++ [k]) := by
  intro p i q heq j hj hb
  rcases List.eq_nil_or_concat q with rfl | ⟨q, l, rfl⟩
  · obtain ⟨rfl, rfl⟩ := List.append_inj' heq rfl |>.imp_right List.singleton_inj.mp
    exact hk j hj hb
  · rw [List.concat_eq_append, ← List.cons_append, ← List.append_assoc] at heq
    exact h p i q (List.append_inj' heq rfl).1 j hj hb

/-- What extends a key that has gone has gone. -/
theorem LeafFirst.mem (h : LeafFirst before S ks) (hk : k ∈ ks) (hj : j ∈ S) (hb : before k j) : j ∈ ks := by
  obtain ⟨p, q, rfl⟩ := List.append_of_mem hk
  exact List.mem_append_left _ (h p k q rfl j hj hb)

theorem ClosedUpTo.mono {pending' : Set K} (h : ClosedUpTo before pending S) (hsub : ∀ k ∈ pending, k ∈ pending') :
    ClosedUpTo before pending' S := fun j hj k hb => (h j hj k hb).imp_right (hsub k)

theorem ClosedUpTo.diff (h : ClosedUpTo before pending S) (hgone : ∀ k ∈ gone, ∀ j ∈ S, before k j → j ∈ gone) :
    ClosedUpTo before pending (S \ gone) := by
  rintro j ⟨hj, hstays⟩ k hb
  rcases h j hj k hb with hk | hk
  · exact Or.inl ⟨hk, fun hmem => hstays (hgone k hmem j hj hb)⟩
  · exact Or.inr hk

theorem ClosedUpTo.insert (h : ClosedUpTo before (insert k pending) S) (hk : ∀ i, before i k → i ∈ S ∨ i ∈ pending) :
    ClosedUpTo before pending (insert k S) := by
  rintro j (rfl | hj) i hb
  · exact (hk i hb).imp_left (Set.mem_insert_of_mem j)
  · rcases h j hj i hb with hi | rfl | hi
    · exact Or.inl (Set.mem_insert_of_mem k hi)
    · exact Or.inl (Set.mem_insert i S)
    · exact Or.inr hi

end FairCache.Lib
