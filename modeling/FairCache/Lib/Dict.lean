import Mathlib.Algebra.BigOperators.Group.List.Basic
import Mathlib.Data.List.AList

/-!
# Insertion-ordered dictionaries

* `Dict K V` : an association list without repeated keys, in insertion order (`AList` is the carrier);
* `Dict.set` : assignment, in place for a key that is there and at the end for a fresh one;
* `Dict.adjust`, `Dict.adjustAll` : update a value only where the key is present;
* `Dict.upsert`, `Dict.upsertAll` : compute a key's value from the one it has, if any;
* `Dict.mapVals` : rewrite every value, keys and order kept;
* `Dict.sumBy` : a sum over the entries. `set_perm` and `entries_perm_erase` split one entry off, and every sum
  over a changed dictionary is read off from them.
-/

namespace FairCache.Lib

/-- A dictionary in insertion order. -/
abbrev Dict (K V : Type) := AList (fun _ : K => V)

namespace Dict

variable {K V W M : Type}

/-- The number of entries. -/
def size (d : Dict K V) : ℕ := d.entries.length

/-- `del d[k]`. -/
abbrev erase [DecidableEq K] (d : Dict K V) (k : K) : Dict K V := AList.erase k d

/-- The values, in insertion order. -/
def values (d : Dict K V) : List V := d.entries.map (·.2)

@[simp] theorem length_keys (d : Dict K V) : d.keys.length = d.size := by
  simp [AList.keys, List.keys, size]

@[simp] theorem size_empty : (∅ : Dict K V).size = 0 := rfl

theorem eq_empty_iff (d : Dict K V) : d = ∅ ↔ d.entries = [] :=
  ⟨fun h => by rw [h]; rfl, fun h => AList.ext h⟩

section
variable [DecidableEq K]

/-! ## Assignment -/

/-- `d[k] = v` on the entry list. -/
def setEntries (k : K) (v : V) : List (Sigma fun _ : K => V) → List (Sigma fun _ : K => V)
  | [] => [⟨k, v⟩]
  | e :: l => if e.1 = k then ⟨k, v⟩ :: l else e :: setEntries k v l

theorem keys_setEntries (k : K) (v : V) (l : List (Sigma fun _ : K => V)) :
    (setEntries k v l).keys = if k ∈ l.keys then l.keys else l.keys ++ [k] := by
  induction l with
  | nil => simp [setEntries]
  | cons e l ih =>
    by_cases h : e.1 = k
    · simp [setEntries, h]
    · by_cases hl : k ∈ l.keys <;> simp [setEntries, h, Ne.symm h, ih, hl]

theorem nodupKeys_setEntries (k : K) (v : V) {l : List (Sigma fun _ : K => V)} (h : l.NodupKeys) :
    (setEntries k v l).NodupKeys := by
  rw [List.NodupKeys, keys_setEntries]
  split_ifs with hk
  · exact h
  · exact List.nodup_append.mpr ⟨h, List.nodup_singleton k, fun a ha b hb => by
      rw [List.mem_singleton] at hb
      rintro rfl
      exact hk (hb ▸ ha)⟩

theorem dlookup_setEntries (k j : K) (v : V) (l : List (Sigma fun _ : K => V)) :
    (setEntries k v l).dlookup j = if j = k then some v else l.dlookup j := by
  induction l with
  | nil =>
    by_cases h : j = k
    · subst h; simp [setEntries]
    · simp [setEntries, h, List.dlookup_cons_ne]
  | cons e l ih =>
    obtain ⟨a, b⟩ := e
    by_cases ha : a = k
    · subst ha
      by_cases h : j = a
      · subst h; simp [setEntries]
      · simp [setEntries, h, List.dlookup_cons_ne]
    · by_cases hj : j = a
      · subst hj; simp [setEntries, ha]
      · simp [setEntries, ha, hj, List.dlookup_cons_ne, ih]

theorem setEntries_perm (k : K) (v : V) (l : List (Sigma fun _ : K => V)) :
    (setEntries k v l).Perm (⟨k, v⟩ :: l.kerase k) := by
  induction l with
  | nil => simp [setEntries]
  | cons e l ih =>
    by_cases h : e.1 = k
    · simp [setEntries, h, List.kerase_cons_eq h.symm]
    · rw [setEntries, if_neg h, List.kerase_cons_ne (Ne.symm h)]
      exact (ih.cons e).trans (List.Perm.swap _ _ _)

/-- `d[k] = v` : in place when `k` is there, else at the end. -/
def set (d : Dict K V) (k : K) (v : V) : Dict K V :=
  ⟨setEntries k v d.entries, nodupKeys_setEntries k v d.nodupKeys⟩

theorem lookup_set (d : Dict K V) (k j : K) (v : V) :
    (d.set k v).lookup j = if j = k then some v else d.lookup j := dlookup_setEntries k j v d.entries

@[simp] theorem lookup_set_self (d : Dict K V) (k : K) (v : V) : (d.set k v).lookup k = some v := by
  simp [lookup_set]

theorem lookup_set_ne (d : Dict K V) {k j : K} (v : V) (h : j ≠ k) : (d.set k v).lookup j = d.lookup j := by
  simp [lookup_set, h]

theorem keys_set (d : Dict K V) (k : K) (v : V) :
    (d.set k v).keys = if k ∈ d then d.keys else d.keys ++ [k] :=
  (keys_setEntries k v d.entries).trans (if_congr Iff.rfl rfl rfl)

@[simp] theorem mem_set (d : Dict K V) (k j : K) (v : V) : j ∈ d.set k v ↔ j = k ∨ j ∈ d := by
  rw [AList.mem_keys, keys_set]
  by_cases hk : k ∈ d
  · simp only [hk, if_true, AList.mem_keys]
    exact ⟨Or.inr, fun h => h.elim (fun e => e ▸ AList.mem_keys.mp hk) id⟩
  · simp [hk, AList.mem_keys, or_comm]

theorem set_perm (d : Dict K V) (k : K) (v : V) : (d.set k v).entries.Perm (⟨k, v⟩ :: (d.erase k).entries) :=
  setEntries_perm k v d.entries

/-! ## Lookups and entries -/

theorem lookup_eq_some_iff (d : Dict K V) (k : K) (v : V) : d.lookup k = some v ↔ ⟨k, v⟩ ∈ d.entries :=
  AList.mem_lookup_iff

theorem mem_iff_lookup (d : Dict K V) (k : K) : k ∈ d ↔ ∃ v, d.lookup k = some v := by
  rw [← AList.lookup_isSome, Option.isSome_iff_exists]

theorem mem_of_lookup {d : Dict K V} {k : K} {v : V} (h : d.lookup k = some v) : k ∈ d :=
  (mem_iff_lookup d k).mpr ⟨v, h⟩

theorem lookup_erase_eq_some {d : Dict K V} {k j : K} {v : V} :
    (d.erase k).lookup j = some v ↔ j ≠ k ∧ d.lookup j = some v := by
  by_cases h : j = k
  · subst h; simp [AList.lookup_erase]
  · simp [h, AList.lookup_erase_ne]

theorem entries_perm_erase {d : Dict K V} {k : K} {v : V} (h : d.lookup k = some v) :
    d.entries.Perm (⟨k, v⟩ :: (d.erase k).entries) := by
  have hk : k ∈ d.entries.keys := List.dlookup_isSome.mp (by rw [show d.entries.dlookup k = some v from h]; rfl)
  obtain ⟨b, l₁, l₂, -, hl, he⟩ := List.exists_of_kerase hk
  have hb : b = v := by
    have hm : (⟨k, b⟩ : Sigma fun _ : K => V) ∈ d.entries := by rw [hl]; simp
    exact Option.some.inj (((lookup_eq_some_iff d k b).mpr hm).symm.trans h)
  rw [show (d.erase k).entries = l₁ ++ l₂ from he, hl, hb]
  exact List.perm_middle

theorem erase_of_notMem {d : Dict K V} {k : K} (h : k ∉ d) : d.erase k = d :=
  AList.ext (List.kerase_of_notMem_keys h)

theorem size_erase {d : Dict K V} {k : K} (h : k ∈ d) : (d.erase k).size + 1 = d.size := by
  obtain ⟨v, hv⟩ := (mem_iff_lookup d k).mp h
  have := (entries_perm_erase hv).length_eq
  simp only [List.length_cons] at this
  exact this.symm

theorem size_set_of_notMem {d : Dict K V} {k : K} (v : V) (h : k ∉ d) : (d.set k v).size = d.size + 1 := by
  have := (set_perm d k v).length_eq
  rw [erase_of_notMem h] at this
  exact this

theorem size_set_of_mem {d : Dict K V} {k : K} (v : V) (h : k ∈ d) : (d.set k v).size = d.size := by
  have := (set_perm d k v).length_eq
  rw [List.length_cons] at this
  exact this.trans (size_erase h)

/-- Dictionaries with the same keys in the same order and the same values are equal. -/
theorem ext_lookup {d e : Dict K V} (hk : d.keys = e.keys) (h : ∀ k, d.lookup k = e.lookup k) : d = e := by
  have hentries : ∀ l₁ l₂ : List (Sigma fun _ : K => V), l₁.NodupKeys → l₁.keys = l₂.keys →
      (∀ k, l₁.dlookup k = l₂.dlookup k) → l₁ = l₂ := by
    intro l₁
    induction l₁ with
    | nil => intro l₂ _ hk _; exact (List.map_eq_nil_iff.mp hk.symm).symm
    | cons e l₁ ih =>
      intro l₂ hnd hk h
      cases l₂ with
      | nil => simp at hk
      | cons e' l₂ =>
        obtain ⟨k, v⟩ := e
        obtain ⟨k', v'⟩ := e'
        simp only [List.keys_cons, List.cons.injEq] at hk
        obtain ⟨rfl, hk⟩ := hk
        have hv : v = v' := by simpa using h k
        rw [List.nodupKeys_cons] at hnd
        rw [hv, ih l₂ hnd.2 hk fun j => ?_]
        by_cases hj : j = k
        · rw [hj, List.dlookup_eq_none.mpr hnd.1, List.dlookup_eq_none.mpr (hk ▸ hnd.1)]
        · have := h j
          rwa [List.dlookup_cons_ne _ _ hj, List.dlookup_cons_ne _ _ hj] at this
  exact AList.ext (hentries _ _ d.nodupKeys hk h)

/-- A fold over entries that changes the view at each key only is read off key by key. -/
theorem foldl_view {S : Type} {g : S → K → W} {f : S → K → V → S} {change : V → W → W}
    (h : ∀ s k v a, g (f s k v) a = if a = k then change v (g s a) else g s a) (d : Dict K V) (s : S) (a : K) :
    g (d.entries.foldl (fun s e => f s e.1 e.2) s) a = (d.lookup a).elim (g s a) fun v => change v (g s a) := by
  have hfold : ∀ (l : List (Sigma fun _ : K => V)) (s : S), l.NodupKeys →
      g (l.foldl (fun s e => f s e.1 e.2) s) a = (l.dlookup a).elim (g s a) fun v => change v (g s a) := by
    intro l
    induction l with
    | nil => intro s _; rfl
    | cons e l ih =>
      intro s hnd
      obtain ⟨k, v⟩ := e
      rw [List.nodupKeys_cons] at hnd
      rw [List.foldl_cons, ih _ hnd.2, h]
      by_cases ha : a = k
      · subst ha
        rw [if_pos rfl, List.dlookup_eq_none.mpr hnd.1, List.dlookup_cons_eq]
        rfl
      · rw [if_neg ha, List.dlookup_cons_ne _ _ ha]
  exact hfold _ s d.nodupKeys

/-- `move_to_end(k)`. -/
def moveToEnd (d : Dict K V) (k : K) : Dict K V :=
  match d.lookup k with
  | some v => (d.erase k).set k v
  | none => d

@[simp] theorem lookup_moveToEnd (d : Dict K V) (k j : K) : (d.moveToEnd k).lookup j = d.lookup j := by
  unfold moveToEnd
  cases h : d.lookup k with
  | none => rfl
  | some v =>
    by_cases hj : j = k
    · rw [hj, lookup_set_self, h]
    · rw [lookup_set_ne _ _ hj, AList.lookup_erase_ne hj]

theorem moveToEnd_perm (d : Dict K V) (k : K) : (d.moveToEnd k).entries.Perm d.entries := by
  unfold moveToEnd
  cases h : d.lookup k with
  | none => exact List.Perm.refl _
  | some v =>
    refine (set_perm _ k v).trans (List.Perm.trans ?_ (entries_perm_erase h).symm)
    rw [erase_of_notMem (AList.mem_erase.not.mpr fun hk => hk.1 rfl)]

theorem values_set_perm (d : Dict K V) (k : K) (v : V) : (d.set k v).values.Perm (v :: (d.erase k).values) :=
  (set_perm d k v).map _

theorem values_perm_erase {d : Dict K V} {k : K} {v : V} (h : d.lookup k = some v) :
    d.values.Perm (v :: (d.erase k).values) := (entries_perm_erase h).map _

theorem values_moveToEnd_perm (d : Dict K V) (k : K) : (d.moveToEnd k).values.Perm d.values :=
  (moveToEnd_perm d k).map _

theorem entries_erase (d : Dict K V) (k : K) : (d.erase k).entries = d.entries.filter fun e => e.1 ≠ k := by
  show d.entries.kerase k = _
  have hnodup := d.nodupKeys
  generalize d.entries = l at hnodup
  induction l with
  | nil => rfl
  | cons e l ih =>
    obtain ⟨hnot, hl⟩ := List.nodupKeys_cons.mp hnodup
    by_cases he : k = e.1
    · subst he
      have hall : ∀ e' ∈ l, decide (e'.1 ≠ e.1) = true := fun e' he' =>
        decide_eq_true fun heq => hnot (heq ▸ List.mem_keys_of_mem he')
      rw [List.kerase_cons_eq rfl, List.filter_cons_of_neg (by simp), List.filter_eq_self.mpr hall]
    · rw [List.kerase_cons_ne he, List.filter_cons_of_pos (by simpa using Ne.symm he), ih hl]

/-- Several keys are deleted, and the others keep their order. -/
theorem entries_foldl_erase (d : Dict K V) (ks : List K) :
    (ks.foldl Dict.erase d).entries = d.entries.filter fun e => e.1 ∉ ks := by
  induction ks generalizing d with
  | nil => simp
  | cons k ks ih =>
    rw [List.foldl_cons, ih, entries_erase, List.filter_filter]
    refine List.filter_congr fun e _ => ?_
    simp [Bool.and_comm]

/-- The first keys are deleted, and the other entries stay as they are. -/
theorem entries_foldl_erase_take (d : Dict K V) (n : ℕ) :
    ((d.keys.take n).foldl Dict.erase d).entries = d.entries.drop n := by
  have hnodup : ((d.entries.take n ++ d.entries.drop n).map Sigma.fst).Nodup := by
    rw [List.take_append_drop]
    exact d.nodupKeys
  have hkeys : d.keys.take n = (d.entries.take n).map Sigma.fst := List.map_take.symm
  have hentries : (d.entries.take n ++ d.entries.drop n).filter (fun e => e.1 ∉ d.keys.take n) = d.entries.drop n := by
    rw [List.map_append, List.nodup_append] at hnodup
    rw [List.filter_append, List.filter_eq_nil_iff.mpr, List.filter_eq_self.mpr, List.nil_append]
    · intro e he
      refine decide_eq_true fun hmem => ?_
      exact hnodup.2.2 e.1 (hkeys ▸ hmem) e.1 (List.mem_map_of_mem he) rfl
    · intro e he
      rw [decide_eq_true_eq, not_not, hkeys]
      exact List.mem_map_of_mem he
  rw [entries_foldl_erase]
  rwa [List.take_append_drop] at hentries

/-- What is deleted and what is left are all entries. -/
theorem entries_perm_foldl_erase {d : Dict K V} {victims : List (Sigma fun _ : K => V)}
    (h : victims.Sublist d.entries) :
    d.entries.Perm (victims ++ ((victims.map (·.1)).foldl Dict.erase d).entries) := by
  have hnodup : d.entries.Nodup := List.Nodup.of_map _ d.nodupKeys
  have htaken : (d.entries.filter fun e => e.1 ∈ victims.map (·.1)).Perm victims := by
    refine (List.perm_ext_iff_of_nodup (hnodup.filter _) (hnodup.sublist h)).mpr fun e => ?_
    rw [List.mem_filter, decide_eq_true_iff]
    constructor
    · rintro ⟨he, hkey⟩
      obtain ⟨e', he', heq⟩ := List.mem_map.mp hkey
      rwa [← d.nodupKeys.eq_of_fst_eq (h.subset he') he heq]
    · exact fun he => ⟨h.subset he, List.mem_map_of_mem he⟩
  have hsplit := List.filter_append_perm (fun e => decide (e.1 ∈ victims.map (·.1))) d.entries
  rw [entries_foldl_erase]
  refine hsplit.symm.trans ((htaken.append_right _).trans (List.Perm.of_eq ?_))
  simp

/-- Where the entries have distinct images, so have the values of distinct keys. -/
theorem ne_of_nodup_map {d : Dict K V} {f : V → W} (h : (d.entries.map fun e => f e.2).Nodup) {j k : K} {v w : V}
    (hj : d.lookup j = some v) (hk : d.lookup k = some w) (hne : j ≠ k) : f v ≠ f w := by
  intro heq
  have := List.inj_on_of_nodup_map h ((lookup_eq_some_iff d j v).mp hj) ((lookup_eq_some_iff d k w).mp hk) heq
  exact hne (congrArg Sigma.fst this)

theorem forall_lookup_set {P : K → V → Prop} {d : Dict K V} {k : K} {v : V} (hv : P k v)
    (h : ∀ j w, j ≠ k → d.lookup j = some w → P j w) : ∀ j w, (d.set k v).lookup j = some w → P j w := by
  intro j w hj
  rw [lookup_set] at hj
  split_ifs at hj with hjk
  · cases hj; exact hjk ▸ hv
  · exact h j w hjk hj

end

/-! ## Sums over the entries -/

section Sum
variable [AddCommMonoid M]

/-- The sum of `f` over the entries. -/
def sumBy (f : K → V → M) (d : Dict K V) : M := (d.entries.map fun e => f e.1 e.2).sum

@[simp] theorem sumBy_empty (f : K → V → M) : sumBy f ∅ = 0 := rfl

theorem sumBy_congr [DecidableEq K] {f g : K → V → M} {d : Dict K V}
    (h : ∀ k v, d.lookup k = some v → f k v = g k v) : sumBy f d = sumBy g d := by
  unfold sumBy
  congr 1
  refine List.map_congr_left fun e he => h e.1 e.2 ?_
  exact (lookup_eq_some_iff d e.1 e.2).mpr he

theorem sumBy_set [DecidableEq K] (f : K → V → M) (d : Dict K V) (k : K) (v : V) :
    sumBy f (d.set k v) = f k v + sumBy f (d.erase k) := by
  have := ((set_perm d k v).map fun e => f e.1 e.2).sum_eq
  simpa [sumBy] using this

theorem sumBy_erase [DecidableEq K] (f : K → V → M) {d : Dict K V} {k : K} {v : V} (h : d.lookup k = some v) :
    sumBy f d = f k v + sumBy f (d.erase k) := by
  have := ((entries_perm_erase h).map fun e => f e.1 e.2).sum_eq
  simpa [sumBy] using this

theorem sumBy_const (c : ℕ) (d : Dict K V) : sumBy (fun _ _ => c) d = c * d.size := by
  simp [sumBy, size, Nat.mul_comm]

end Sum

/-! ## Updates of present keys -/

section Adjust
variable [DecidableEq K]

/-- `if k in d: d[k] = f(d[k])`. -/
def adjust (d : Dict K V) (k : K) (f : V → V) : Dict K V :=
  match d.lookup k with
  | some v => d.set k (f v)
  | none => d

theorem lookup_adjust (d : Dict K V) (k j : K) (f : V → V) :
    (d.adjust k f).lookup j = if j = k then (d.lookup j).map f else d.lookup j := by
  unfold adjust
  cases h : d.lookup k with
  | some v =>
    rw [lookup_set]
    by_cases hj : j = k
    · subst hj; simp [h]
    · simp [hj]
  | none =>
    by_cases hj : j = k
    · subst hj; simp [h]
    · simp [hj]

@[simp] theorem keys_adjust (d : Dict K V) (k : K) (f : V → V) : (d.adjust k f).keys = d.keys := by
  unfold adjust
  cases h : d.lookup k with
  | some v => simp [keys_set, mem_of_lookup h]
  | none => rfl

/-- `adjust` at each key of a list, in order. -/
def adjustAll (d : Dict K V) (ks : List K) (f : V → V) : Dict K V := ks.foldl (fun d k => d.adjust k f) d

@[simp] theorem keys_adjustAll (d : Dict K V) (ks : List K) (f : V → V) : (d.adjustAll ks f).keys = d.keys := by
  unfold adjustAll
  induction ks generalizing d with
  | nil => rfl
  | cons k ks ih => rw [List.foldl_cons, ih, keys_adjust]

theorem lookup_adjustAll (d : Dict K V) {ks : List K} (hks : ks.Nodup) (f : V → V) (j : K) :
    (d.adjustAll ks f).lookup j = if j ∈ ks then (d.lookup j).map f else d.lookup j := by
  unfold adjustAll
  induction ks generalizing d with
  | nil => simp
  | cons k ks ih =>
    rw [List.nodup_cons] at hks
    rw [List.foldl_cons, ih _ hks.2, lookup_adjust]
    by_cases hj : j = k
    · subst hj; simp [hks.1]
    · simp [hj]

/-- `d[k] = f(d.get(k))`. -/
def upsert (d : Dict K V) (k : K) (f : Option V → V) : Dict K V := d.set k (f (d.lookup k))

theorem lookup_upsert (d : Dict K V) (k j : K) (f : Option V → V) :
    (d.upsert k f).lookup j = if j = k then some (f (d.lookup j)) else d.lookup j := by
  rw [upsert, lookup_set]
  split_ifs with h
  · rw [h]
  · rfl

@[simp] theorem mem_upsert (d : Dict K V) (k j : K) (f : Option V → V) : j ∈ d.upsert k f ↔ j = k ∨ j ∈ d :=
  mem_set d k j _

/-- `upsert` at each key of a list, in order. -/
def upsertAll (d : Dict K V) (ks : List K) (f : Option V → V) : Dict K V := ks.foldl (fun d k => d.upsert k f) d

theorem mem_upsertAll {d : Dict K V} {j : K} (h : j ∈ d) (ks : List K) (f : Option V → V) : j ∈ d.upsertAll ks f := by
  unfold upsertAll
  induction ks generalizing d with
  | nil => exact h
  | cons k ks ih => exact ih ((mem_upsert d k j f).mpr (Or.inr h))

theorem lookup_upsertAll (d : Dict K V) {ks : List K} (hks : ks.Nodup) (f : Option V → V) (j : K) :
    (d.upsertAll ks f).lookup j = if j ∈ ks then some (f (d.lookup j)) else d.lookup j := by
  unfold upsertAll
  induction ks generalizing d with
  | nil => simp
  | cons k ks ih =>
    rw [List.nodup_cons] at hks
    rw [List.foldl_cons, ih _ hks.2, lookup_upsert]
    by_cases hj : j = k
    · subst hj; simp [hks.1]
    · simp [hj]

end Adjust

/-! ## Rewriting the values -/

/-- Rewrite every value; keys and order stay. -/
def mapVals (d : Dict K V) (f : K → V → W) : Dict K W :=
  ⟨d.entries.map fun e => ⟨e.1, f e.1 e.2⟩, by
    have h := d.nodupKeys
    unfold List.NodupKeys List.keys at h ⊢
    simpa [List.map_map, Function.comp_def] using h⟩

theorem keys_mapVals (d : Dict K V) (f : K → V → W) : (d.mapVals f).keys = d.keys := by
  unfold mapVals AList.keys List.keys
  rw [List.map_map]
  rfl

theorem lookup_mapVals [DecidableEq K] (d : Dict K V) (f : K → V → W) (k : K) :
    (d.mapVals f).lookup k = (d.lookup k).map (f k) := by
  cases h : d.lookup k with
  | some v =>
    have hm := (lookup_eq_some_iff d k v).mp h
    exact (lookup_eq_some_iff _ _ _).mpr (List.mem_map.mpr ⟨_, hm, rfl⟩)
  | none =>
    refine AList.lookup_eq_none.mpr fun hk => AList.lookup_eq_none.mp h ?_
    rw [AList.mem_keys] at hk ⊢
    simpa [mapVals, AList.keys, List.keys, List.map_map, Function.comp_def] using hk

end Dict

end FairCache.Lib
