import Mathlib.Data.Finset.Card
import Mathlib.Data.Multiset.Filter
import Mathlib.Logic.Function.Basic

/-!
# Reference counts

Resources of several kinds, with a list of the free ones of each kind and a count of the references to each.

* `take`, `addRef`, `drop` : take a free resource, add a reference, drop one (at the last the resource is free);
* `Exact` : the counts are those of the references that are held, and what has no reference is free. `Exact.take`,
  `Exact.addRef`, `Exact.drop` : the operations keep it;
* `Exact.length_free_add_card` : free and held resources are all resources.
-/

namespace FairCache.Lib

variable {κ β : Type} [DecidableEq κ] [DecidableEq β]

/-- The free resources of each kind, and the counts. -/
structure References (κ β : Type) where
  free : κ → List β
  count : β → ℕ

namespace References

/-- Take the first free resource of a kind, with `n` references. -/
def take (r : References κ β) (k : κ) (n : ℕ) : Option (β × References κ β) :=
  match r.free k with
  | [] => none
  | b :: rest => some (b, { free := Function.update r.free k rest, count := Function.update r.count b n })

/-- One reference more. -/
def addRef (r : References κ β) (b : β) : References κ β :=
  { r with count := Function.update r.count b (r.count b + 1) }

variable (kind : β → κ)

/-- One reference less; without one there is none to drop. -/
def drop (r : References κ β) (b : β) : Option (References κ β) :=
  if r.count b = 0 then none
  else
    some
      { free := if r.count b = 1 then Function.update r.free (kind b) (b :: r.free (kind b)) else r.free
        count := Function.update r.count b (r.count b - 1) }

/-- The counts are those of the references `held`, and of all resources those without a reference are free. -/
structure Exact (all : Finset β) (r : References κ β) (held : Multiset β) : Prop where
  nodup : ∀ k, (r.free k).Nodup
  mem_free : ∀ k b, b ∈ r.free k ↔ kind b = k ∧ b ∈ all ∧ r.count b = 0
  count : ∀ b, r.count b = held.count b
  mem_all : ∀ b ∈ held, b ∈ all

variable {kind} {all : Finset β} {r r' : References κ β} {held : Multiset β} {b : β} {k : κ}

theorem take_isSome (n : ℕ) (h : r.free k ≠ []) : ∃ b r', r.take k n = some (b, r') := by
  unfold take
  cases hfree : r.free k with
  | nil => exact absurd hfree h
  | cons b rest => exact ⟨b, _, rfl⟩

theorem take_eq_some {n : ℕ} (h : r.take k n = some (b, r')) : ∃ rest, r.free k = b :: rest ∧
    r' = { free := Function.update r.free k rest, count := Function.update r.count b n } := by
  unfold take at h
  cases hfree : r.free k with
  | nil => rw [hfree] at h; cases h
  | cons c rest =>
    rw [hfree] at h
    cases h
    exact ⟨rest, rfl, rfl⟩

namespace Exact

/-- What is taken is of the kind, and nobody held it. -/
theorem of_take (hr : Exact kind all r held) {n : ℕ} (h : r.take k n = some (b, r')) :
    kind b = k ∧ b ∈ all ∧ b ∉ held := by
  obtain ⟨rest, hfree, -⟩ := take_eq_some h
  have hmem : b ∈ r.free k := by
    rw [hfree]
    exact List.mem_cons_self
  obtain ⟨hkind, hall, hcount⟩ := (hr.mem_free k b).mp hmem
  refine ⟨hkind, hall, ?_⟩
  rw [← Multiset.count_eq_zero, ← hr.count, hcount]

/-- **Taking a resource.** -/
theorem take (hr : Exact kind all r held) {n : ℕ} (hn : n ≠ 0) (h : r.take k n = some (b, r')) :
    Exact kind all r' (held + Multiset.replicate n b) := by
  obtain ⟨hkind, hall, hnot⟩ := hr.of_take h
  obtain ⟨rest, hfree, rfl⟩ := take_eq_some h
  have hold := hr.nodup k
  rw [hfree, List.nodup_cons] at hold
  constructor
  · intro j
    dsimp only
    by_cases hj : j = k
    · rw [hj, Function.update_self]
      exact hold.2
    · rw [Function.update_of_ne hj]
      exact hr.nodup j
  · intro j c
    have hmem : c ∈ Function.update r.free k rest j ↔ c ∈ r.free j ∧ c ≠ b := by
      by_cases hj : j = k
      · rw [hj, Function.update_self, hfree, List.mem_cons]
        constructor
        · exact fun hc => ⟨Or.inr hc, fun heq => hold.1 (heq ▸ hc)⟩
        · exact fun ⟨hc, hne⟩ => hc.resolve_left hne
      · rw [Function.update_of_ne hj]
        refine (and_iff_left_of_imp fun hc heq => hj ?_).symm
        rw [← ((hr.mem_free j c).mp hc).1, heq, hkind]
    dsimp only
    rw [hmem, hr.mem_free]
    by_cases hc : c = b
    · rw [hc, Function.update_self]
      exact iff_of_false (fun h => h.2 rfl) fun h => hn h.2.2
    · rw [Function.update_of_ne hc]
      exact and_iff_left hc
  · intro c
    dsimp only
    rw [Multiset.count_add, Multiset.count_replicate]
    by_cases hc : c = b
    · rw [hc, Function.update_self, Multiset.count_eq_zero.mpr hnot, if_pos rfl, Nat.zero_add]
    · rw [Function.update_of_ne hc, hr.count, if_neg (Ne.symm hc), Nat.add_zero]
  · intro c hc
    rcases Multiset.mem_add.mp hc with hc | hc
    · exact hr.mem_all c hc
    · exact Multiset.eq_of_mem_replicate hc ▸ hall

omit [DecidableEq κ] in
/-- **Adding a reference** to what is held. -/
theorem addRef (hr : Exact kind all r held) (hb : b ∈ held) : Exact kind all (r.addRef b) (b ::ₘ held) := by
  have hpos : r.count b ≠ 0 := by
    rw [hr.count]
    exact Multiset.count_ne_zero.mpr hb
  constructor
  · exact hr.nodup
  · intro j c
    refine (hr.mem_free j c).trans ?_
    by_cases hc : c = b
    · subst hc
      simp [References.addRef, hpos]
    · simp [References.addRef, hc]
  · intro c
    by_cases hc : c = b
    · rw [hc, Multiset.count_cons_self, ← hr.count]
      exact Function.update_self _ _ _
    · rw [Multiset.count_cons_of_ne hc, ← hr.count]
      exact Function.update_of_ne hc _ _
  · intro c hc
    rcases Multiset.mem_cons.mp hc with rfl | hc
    · exact hr.mem_all c hb
    · exact hr.mem_all c hc

/-- **Dropping a reference.** -/
theorem drop (hr : Exact kind all r (b ::ₘ held)) : ∃ r', r.drop kind b = some r' ∧ Exact kind all r' held := by
  have hcount : r.count b = held.count b + 1 := by rw [hr.count, Multiset.count_cons_self]
  have hall := hr.mem_all b (Multiset.mem_cons_self b held)
  unfold References.drop
  rw [if_neg (by omega)]
  refine ⟨_, rfl, ?_⟩
  -- the resource was not free
  have hnot : ∀ k, b ∉ r.free k := fun k hmem => by
    have := ((hr.mem_free k b).mp hmem).2.2
    omega
  constructor
  · intro j
    dsimp only
    split_ifs
    · by_cases hj : j = kind b
      · rw [hj, Function.update_self]
        exact List.nodup_cons.mpr ⟨hnot _, hr.nodup _⟩
      · rw [Function.update_of_ne hj]
        exact hr.nodup j
    · exact hr.nodup j
  · intro j c
    dsimp only
    by_cases hc : c = b
    · subst hc
      rw [Function.update_self]
      split_ifs with hone
      · by_cases hj : j = kind c
        · rw [hj, Function.update_self]
          simp [hall, hone]
        · rw [Function.update_of_ne hj]
          exact iff_of_false (hnot j) fun h => hj h.1.symm
      · exact iff_of_false (hnot j) fun h => hone (by omega)
    · rw [Function.update_of_ne hc, ← hr.mem_free]
      split_ifs
      · by_cases hj : j = kind b
        · rw [hj, Function.update_self, List.mem_cons]
          exact or_iff_right hc
        · rw [Function.update_of_ne hj]
      · rfl
  · intro c
    dsimp only
    by_cases hc : c = b
    · rw [hc, Function.update_self, hcount, Nat.add_sub_cancel]
    · rw [Function.update_of_ne hc, hr.count, Multiset.count_cons_of_ne hc]
  · exact fun c hc => hr.mem_all c (Multiset.mem_cons_of_mem hc)

/-- **Free and held resources are all resources** of a kind. -/
theorem length_free_add_card (hr : Exact kind all r held) (k : κ) :
    (r.free k).length + (held.toFinset.filter (kind · = k)).card = (all.filter (kind · = k)).card := by
  rw [← List.toFinset_card_of_nodup (hr.nodup k), ← Finset.card_union_of_disjoint]
  · congr 1
    ext b
    rw [Finset.mem_union, List.mem_toFinset, hr.mem_free, Finset.mem_filter, Finset.mem_filter, Multiset.mem_toFinset,
      hr.count, Multiset.count_eq_zero]
    constructor
    · rintro (⟨hk, hall, -⟩ | ⟨hheld, hk⟩)
      · exact ⟨hall, hk⟩
      · exact ⟨hr.mem_all b hheld, hk⟩
    · rintro ⟨hall, hk⟩
      by_cases hb : b ∈ held
      · exact Or.inr ⟨hb, hk⟩
      · exact Or.inl ⟨hk, hall, hb⟩
  · rw [Finset.disjoint_left]
    intro b hfree hheld
    rw [List.mem_toFinset, hr.mem_free, hr.count, Multiset.count_eq_zero] at hfree
    exact hfree.2.2 (Multiset.mem_toFinset.mp (Finset.mem_filter.mp hheld).1)

end Exact

theorem take_length_free {n : ℕ} (h : r.take k n = some (b, r')) :
    (r.free k).length = (r'.free k).length + 1 ∧ ∀ j, j ≠ k → r'.free j = r.free j := by
  obtain ⟨rest, hfree, rfl⟩ := take_eq_some h
  dsimp only
  rw [hfree, Function.update_self]
  exact ⟨rfl, fun j hj => Function.update_of_ne hj _ _⟩

/-- A dropped reference takes no free resource away. -/
theorem drop_length_free (h : r.drop kind b = some r') (k : κ) : (r.free k).length ≤ (r'.free k).length := by
  unfold drop at h
  split_ifs at h with h0 h1
  · cases h
    dsimp only
    by_cases hk : k = kind b
    · rw [hk, Function.update_self]
      exact Nat.le_succ _
    · rw [Function.update_of_ne hk]
  · cases h
    exact le_rfl

end References

end FairCache.Lib
