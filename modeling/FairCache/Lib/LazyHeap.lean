import FairCache.Lib.Dict
import Mathlib.Data.List.Induction
import Mathlib.Data.List.Sort
import Mathlib.Data.List.TakeWhile
import Mathlib.Data.Prod.Lex

/-!
# Groups of min-heaps with lazy deletion

* `MinHeap α` : a binary heap seen through what it answers, a sorted list;
* `MinHeap.drain` : pop while the top is stale;
* `HeapGroup L V K` : one heap of `(value, key)` records for each label `L`;
* `HeapGroup.search` : drain every heap and take the least top. `search_some` and `search_none` say what the answer
  is in terms of the live records, `mem_search_iff` that only stale records are lost, and `search_search` that an
  earlier search by a weaker staleness test changes no later answer;
* `rank` : the order of the records; `search_eq_some_iff` : a search answers the key of the least live one.
-/

namespace FairCache.Lib

variable {α L V K : Type}

/-! ## One heap -/

/-- A min-heap: its records in the order in which they would be popped. -/
structure MinHeap (α : Type) [LinearOrder α] where
  items : List α
  sorted : items.Pairwise (· ≤ ·)

namespace MinHeap

variable [LinearOrder α]

def empty : MinHeap α := ⟨[], List.Pairwise.nil⟩

/-- `heapq.heappush`. -/
def push (h : MinHeap α) (a : α) : MinHeap α :=
  ⟨h.items.orderedInsert (· ≤ ·) a, List.Pairwise.orderedInsert a h.items h.sorted⟩

/-- `heap[0]`, for a non-empty heap. -/
def top? (h : MinHeap α) : Option α := h.items.head?

/-- `heapq.heappop` while the top satisfies `p`. -/
def drain (p : α → Bool) (h : MinHeap α) : MinHeap α :=
  ⟨h.items.dropWhile p, h.sorted.sublist (List.dropWhile_sublist p)⟩

@[simp] theorem mem_push (h : MinHeap α) (a b : α) : b ∈ (h.push a).items ↔ b = a ∨ b ∈ h.items := by
  simp [push, List.mem_orderedInsert]

theorem top?_le {h : MinHeap α} {a : α} (ht : h.top? = some a) : ∀ b ∈ h.items, a ≤ b := by
  obtain ⟨items, sorted⟩ := h
  cases items with
  | nil => cases ht
  | cons c l =>
    cases ht
    intro b hb
    rcases List.mem_cons.mp hb with rfl | hb
    · exact le_rfl
    · exact (List.pairwise_cons.mp sorted).1 b hb

theorem top?_mem {h : MinHeap α} {a : α} (ht : h.top? = some a) : a ∈ h.items := List.mem_of_head? ht

theorem mem_drain_of_live {p : α → Bool} {h : MinHeap α} {a : α} (ha : a ∈ h.items) (hp : p a = false) :
    a ∈ (h.drain p).items := by
  have hsplit : a ∈ h.items.takeWhile p ++ h.items.dropWhile p := by rwa [List.takeWhile_append_dropWhile]
  rcases List.mem_append.mp hsplit with ht | hd
  · rw [List.mem_takeWhile_imp ht] at hp
    cases hp
  · exact hd

theorem mem_of_mem_drain {p : α → Bool} {h : MinHeap α} {a : α} (ha : a ∈ (h.drain p).items) : a ∈ h.items :=
  (List.dropWhile_sublist p).subset ha

theorem drain_top? {p : α → Bool} {h : MinHeap α} {a : α} (ht : (h.drain p).top? = some a) : p a = false := by
  have := List.head?_dropWhile_not p h.items
  simp only [drain, top?] at ht
  rw [ht] at this
  simpa using this

/-- Draining by a weaker test first changes nothing. -/
theorem drain_drain {p q : α → Bool} (hpq : ∀ a, p a = true → q a = true) (h : MinHeap α) :
    (h.drain p).drain q = h.drain q := by
  obtain ⟨items, sorted⟩ := h
  simp only [drain, mk.injEq]
  clear sorted
  induction items with
  | nil => rfl
  | cons a l ih =>
    by_cases ha : p a = true
    · simp [ha, hpq a ha, ih]
    · simp [ha]

end MinHeap

/-! ## Heaps by label -/

/-- A heap of `(value, key)` records for each label. -/
abbrev HeapGroup (L V K : Type) [LinearOrder V] [LinearOrder K] := Dict L (MinHeap (V ×ₗ K))

namespace HeapGroup

variable [DecidableEq L] [LinearOrder V] [LinearOrder K]

/-- Push `(v, k)` on the heap of label `l`, which is made when it is missing. -/
def push (hs : HeapGroup L V K) (l : L) (v : V) (k : K) : HeapGroup L V K :=
  hs.set l (((hs.lookup l).getD MinHeap.empty).push (toLex (v, k)))

/-- The record `(v, k)` is on the heap of label `l`. -/
def Holds (hs : HeapGroup L V K) (l : L) (v : V) (k : K) : Prop :=
  ∃ h, hs.lookup l = some h ∧ toLex (v, k) ∈ h.items

theorem holds_push_iff (hs : HeapGroup L V K) (l l' : L) (v v' : V) (k k' : K) :
    Holds (hs.push l v k) l' v' k' ↔ (l' = l ∧ v' = v ∧ k' = k) ∨ Holds hs l' v' k' := by
  unfold Holds push
  by_cases hl : l' = l
  · subst hl
    cases h : hs.lookup l' with
    | some heap => simp [Dict.lookup_set_self]
    | none => simp [Dict.lookup_set_self, MinHeap.empty]
  · simp [Dict.lookup_set_ne, hl]

theorem Holds.push {hs : HeapGroup L V K} {l : L} {v : V} {k : K} (h : Holds hs l v k) (l' : L) (v' : V) (k' : K) :
    Holds (hs.push l' v' k') l v k := (holds_push_iff ..).mpr (Or.inr h)

theorem holds_push_self (hs : HeapGroup L V K) (l : L) (v : V) (k : K) : Holds (hs.push l v k) l v k :=
  (holds_push_iff ..).mpr (Or.inl ⟨rfl, rfl, rfl⟩)

/-- The smaller of the best record so far and a heap's top; the earlier one on a tie. -/
def better (best : Option (V ×ₗ K)) (e : Sigma fun _ : L => MinHeap (V ×ₗ K)) : Option (V ×ₗ K) :=
  match e.2.top?, best with
  | none, _ => best
  | some r, none => some r
  | some r, some b => if (ofLex r).1 < (ofLex b).1 then some r else some b

/-- The least top over all heaps. -/
def best (hs : HeapGroup L V K) : Option (V ×ₗ K) := hs.entries.foldl better none

/-- Pop the stale records off the top of each heap. -/
def clean (stale : L → V ×ₗ K → Bool) (hs : HeapGroup L V K) : HeapGroup L V K :=
  hs.mapVals fun l h => h.drain (stale l)

/-- The key of the least live record, with the heaps as the search leaves them. -/
def search (stale : L → V ×ₗ K → Bool) (hs : HeapGroup L V K) : Option K × HeapGroup L V K :=
  let hs' := clean stale hs
  ((best hs').map fun r => (ofLex r).2, hs')

theorem lookup_clean (stale : L → V ×ₗ K → Bool) (hs : HeapGroup L V K) (l : L) :
    (clean stale hs).lookup l = (hs.lookup l).map fun h => h.drain (stale l) := Dict.lookup_mapVals hs _ l

omit [DecidableEq L] in
/-- A fold of `better` answers nothing only if there is no record. -/
theorem foldl_better_eq_none {es : List (Sigma fun _ : L => MinHeap (V ×ₗ K))} {b : Option (V ×ₗ K)}
    (h : es.foldl better b = none) : b = none ∧ ∀ e ∈ es, e.2.top? = none := by
  induction es generalizing b with
  | nil => exact ⟨h, fun e he => absurd he List.not_mem_nil⟩
  | cons e es ih =>
    rw [List.foldl_cons] at h
    obtain ⟨hbetter, hrest⟩ := ih h
    unfold better at hbetter
    cases ht : e.2.top? with
    | none =>
      rw [ht] at hbetter
      refine ⟨hbetter, fun e' he' => ?_⟩
      rcases List.mem_cons.mp he' with rfl | he'
      · exact ht
      · exact hrest e' he'
    | some t =>
      rw [ht] at hbetter
      cases b with
      | none => cases hbetter
      | some r =>
        dsimp only at hbetter
        split_ifs at hbetter

theorem holds_clean_iff {stale : L → V ×ₗ K → Bool} {hs : HeapGroup L V K} {l : L} {v : V} {k : K}
    (h : stale l (toLex (v, k)) = false) : Holds (clean stale hs) l v k ↔ Holds hs l v k := by
  unfold Holds
  rw [lookup_clean]
  cases hl : hs.lookup l with
  | none => simp
  | some heap =>
    simp only [Option.map_some, Option.some.injEq, exists_eq_left']
    exact ⟨MinHeap.mem_of_mem_drain, fun hm => MinHeap.mem_drain_of_live hm h⟩

/-- Only stale records are lost by a search. -/
theorem mem_search_iff {stale : L → V ×ₗ K → Bool} {hs : HeapGroup L V K} {l : L} {v : V} {k : K}
    (h : stale l (toLex (v, k)) = false) : Holds (search stale hs).2 l v k ↔ Holds hs l v k := holds_clean_iff h

/-- A search that answers nothing saw stale records only. -/
theorem search_none {stale : L → V ×ₗ K → Bool} {hs : HeapGroup L V K} (h : (search stale hs).1 = none)
    {l : L} {v : V} {k : K} (hh : Holds hs l v k) : stale l (toLex (v, k)) = true := by
  by_contra hlive
  have hb : best (clean stale hs) = none := Option.map_eq_none_iff.mp h
  have htop := (foldl_better_eq_none hb).2
  obtain ⟨heap, hl, hm⟩ := (holds_clean_iff (by simpa using hlive)).mpr hh
  have := htop ⟨l, heap⟩ ((Dict.lookup_eq_some_iff _ _ _).mp hl)
  rw [MinHeap.top?, List.head?_eq_none_iff] at this
  rw [this] at hm
  exact absurd hm List.not_mem_nil

omit [DecidableEq L] in
theorem clean_clean {p q : L → V ×ₗ K → Bool} (hpq : ∀ l r, p l r = true → q l r = true) (hs : HeapGroup L V K) :
    clean q (clean p hs) = clean q hs := by
  apply AList.ext
  simp only [clean, Dict.mapVals, List.map_map]
  refine List.map_congr_left fun e _ => ?_
  simp [MinHeap.drain_drain (hpq e.1)]

omit [DecidableEq L] in
/-- A search by a weaker test before changes no answer. -/
theorem search_search {p q : L → V ×ₗ K → Bool} (hpq : ∀ l r, p l r = true → q l r = true)
    (hs : HeapGroup L V K) : search q (search p hs).2 = search q hs := by
  simp [search, clean_clean hpq]

/-! ## The order of the records -/

/-- The top of the heap at a place. -/
def topAt (es : List (Sigma fun _ : L => MinHeap (V ×ₗ K))) (i : ℕ) : Option (V ×ₗ K) := es[i]?.bind fun e => e.2.top?

/-- The top at place `i` is `r`, and it is the first of the least tops. -/
structure FirstLeast (es : List (Sigma fun _ : L => MinHeap (V ×ₗ K))) (r : V ×ₗ K) (i : ℕ) : Prop where
  top : topAt es i = some r
  least : ∀ j r', topAt es j = some r' → (ofLex r).1 < (ofLex r').1 ∨ ((ofLex r).1 = (ofLex r').1 ∧ i ≤ j)

section FirstLeast
omit [DecidableEq L]
variable {es : List (Sigma fun _ : L => MinHeap (V ×ₗ K))} {e : Sigma fun _ : L => MinHeap (V ×ₗ K)} {r t : V ×ₗ K}
  {i j : ℕ}

theorem topAt_getElem (hj : j < es.length) : topAt es j = es[j].2.top? := by
  rw [topAt, List.getElem?_eq_getElem hj, Option.bind_some]

theorem lt_length_of_topAt (h : topAt es j = some r) : j < es.length := by
  by_contra hj
  rw [topAt, List.getElem?_eq_none (Nat.not_lt.mp hj)] at h
  cases h

theorem topAt_length : topAt (es ++ [e]) es.length = e.2.top? := by
  rw [topAt, List.getElem?_concat_length, Option.bind_some]

theorem topAt_append_of_lt (hj : j < es.length) : topAt (es ++ [e]) j = topAt es j := by
  rw [topAt, topAt, List.getElem?_append_left hj]

/-- One more heap at the end has its top at the last place. -/
theorem topAt_append (h : topAt (es ++ [e]) j = some r) :
    topAt es j = some r ∨ (j = es.length ∧ e.2.top? = some r) := by
  have hlt := lt_length_of_topAt h
  rw [List.length_append, List.length_singleton] at hlt
  rcases Nat.lt_or_ge j es.length with hj | hj
  · exact Or.inl (topAt_append_of_lt hj ▸ h)
  · obtain rfl : j = es.length := by omega
    exact Or.inr ⟨rfl, topAt_length.symm.trans h⟩

/-- A heap at the end whose top is not smaller changes nothing. -/
theorem FirstLeast.append (h : FirstLeast es r i) (he : ∀ t, e.2.top? = some t → (ofLex r).1 ≤ (ofLex t).1) :
    FirstLeast (es ++ [e]) r i := by
  have hi := lt_length_of_topAt h.top
  refine ⟨(topAt_append_of_lt hi).trans h.top, fun j r' hr' => ?_⟩
  rcases topAt_append hr' with hin | ⟨rfl, hlast⟩
  · exact h.least j r' hin
  · rcases lt_or_eq_of_le (he r' hlast) with hlt | heq
    · exact Or.inl hlt
    · exact Or.inr ⟨heq, hi.le⟩

/-- A heap at the end whose top is smaller than all is the first. -/
theorem firstLeast_length (he : e.2.top? = some t) (h : ∀ j r', topAt es j = some r' → (ofLex t).1 < (ofLex r').1) :
    FirstLeast (es ++ [e]) t es.length := by
  refine ⟨topAt_length.trans he, fun j r' hr' => ?_⟩
  rcases topAt_append hr' with hin | ⟨rfl, hlast⟩
  · exact Or.inl (h j r' hin)
  · cases he.symm.trans hlast
    exact Or.inr ⟨rfl, le_rfl⟩

/-- What a fold of `better` answers is the first of the least tops. -/
theorem foldl_better_first (h : es.foldl better none = some r) : ∃ i, FirstLeast es r i := by
  induction es using List.reverseRecOn generalizing r with
  | nil => cases h
  | append_singleton es e ih =>
    rw [List.foldl_append, List.foldl_cons, List.foldl_nil] at h
    cases hfold : es.foldl better none with
    | none =>
      obtain ⟨-, hnone⟩ := foldl_better_eq_none hfold
      rw [hfold] at h
      unfold better at h
      cases ht : e.2.top? with
      | none => rw [ht] at h; cases h
      | some t =>
        rw [ht] at h
        cases h
        refine ⟨_, firstLeast_length ht fun j r' hr' => ?_⟩
        have hj := lt_length_of_topAt hr'
        rw [topAt_getElem hj, hnone _ (List.getElem_mem hj)] at hr'
        cases hr'
    | some b =>
      obtain ⟨i, hfirst⟩ := ih hfold
      rw [hfold] at h
      unfold better at h
      cases ht : e.2.top? with
      | none =>
        rw [ht] at h
        cases h
        exact ⟨i, hfirst.append fun t' ht' => by rw [ht] at ht'; cases ht'⟩
      | some t =>
        rw [ht] at h
        dsimp only at h
        split_ifs at h with hlt
        · cases h
          refine ⟨_, firstLeast_length ht fun j r' hr' => ?_⟩
          rcases hfirst.least j r' hr' with h' | ⟨h', -⟩
          · exact hlt.trans h'
          · exact h' ▸ hlt
        · cases h
          refine ⟨i, hfirst.append fun t' ht' => ?_⟩
          cases ht.symm.trans ht'
          exact not_lt.mp hlt

end FirstLeast

/-- The order in which records are answered: by value, then by the place of their heap, then by key. -/
def rank (hs : HeapGroup L V K) (l : L) (v : V) (k : K) : V ×ₗ ℕ ×ₗ K := toLex (v, toLex (hs.keys.idxOf l, k))

/-- Records of different keys are in order. -/
theorem rank_inj {hs : HeapGroup L V K} {l l' : L} {v v' : V} {k k' : K} (h : rank hs l v k = rank hs l' v' k') :
    k = k' := by
  have hpair := congrArg (fun x => (ofLex (ofLex x).2).2) h
  exact hpair

/-- The keys stay in their order when the heaps are cleaned. -/
theorem idxOf_clean (stale : L → V ×ₗ K → Bool) (hs : HeapGroup L V K) {j : ℕ}
    (hj : j < (clean stale hs).entries.length) : hs.keys.idxOf (clean stale hs).entries[j].1 = j := by
  have hkeys : (clean stale hs).keys = hs.keys := Dict.keys_mapVals hs _
  have hj' : j < (clean stale hs).keys.length := by
    rw [Dict.length_keys]
    exact hj
  have hget : (clean stale hs).keys[j] = (clean stale hs).entries[j].1 := List.getElem_map _
  rw [← hget, ← hkeys]
  exact (clean stale hs).keys_nodup.idxOf_getElem j hj'

/-- A key the search answers has a live record that no live record comes before. -/
theorem search_least {stale : L → V ×ₗ K → Bool} {hs : HeapGroup L V K} {k : K} (h : (search stale hs).1 = some k) :
    ∃ l v, Holds hs l v k ∧ stale l (toLex (v, k)) = false ∧
      ∀ l' v' k', Holds hs l' v' k' → stale l' (toLex (v', k')) = false → rank hs l v k ≤ rank hs l' v' k' := by
  obtain ⟨r, hr, rfl⟩ := Option.map_eq_some_iff.mp h
  obtain ⟨i, hfirst⟩ := foldl_better_first hr
  have hi := lt_length_of_topAt hfirst.top
  have htop := (topAt_getElem hi).symm.trans hfirst.top
  have hentry : ∀ j (hj : j < (clean stale hs).entries.length),
      (clean stale hs).lookup (clean stale hs).entries[j].1 = some (clean stale hs).entries[j].2 :=
    fun j hj => (Dict.lookup_eq_some_iff _ _ _).mpr (List.getElem_mem hj)
  have hheap := hentry i hi
  rw [lookup_clean, Option.map_eq_some_iff] at hheap
  obtain ⟨heap, hlook, hdrain⟩ := hheap
  rw [← hdrain] at htop
  refine ⟨_, (ofLex r).1, ⟨heap, hlook, MinHeap.mem_of_mem_drain (MinHeap.top?_mem htop)⟩, MinHeap.drain_top? htop, ?_⟩
  intro l' v' k' hh hlive
  obtain ⟨heap', hl', hm'⟩ := (holds_clean_iff hlive).mpr hh
  obtain ⟨j, hj, hget⟩ := List.getElem_of_mem ((Dict.lookup_eq_some_iff _ _ _).mp hl')
  have hplace := idxOf_clean stale hs hj
  rw [hget] at hplace
  cases ht' : heap'.top? with
  | none =>
    rw [MinHeap.top?, List.head?_eq_none_iff] at ht'
    rw [ht'] at hm'
    exact absurd hm' List.not_mem_nil
  | some t =>
    have hle : t ≤ toLex (v', k') := MinHeap.top?_le ht' _ hm'
    have horder := hfirst.least j t (by rw [topAt_getElem hj, hget]; exact ht')
    unfold rank
    rw [idxOf_clean stale hs hi, hplace, Prod.Lex.toLex_le_toLex, Prod.Lex.toLex_le_toLex]
    rcases horder with hlt | ⟨heq, hij⟩
    · exact Or.inl (hlt.trans_le (Prod.Lex.monotone_fst _ _ hle))
    · rcases lt_or_eq_of_le (Prod.Lex.monotone_fst _ _ hle) with hlt' | heq'
      · exact Or.inl (heq.trans_lt hlt')
      · refine Or.inr ⟨heq.trans heq', ?_⟩
        rcases lt_or_eq_of_le hij with hij | rfl
        · exact Or.inl hij
        · have hsame : heap' = (clean stale hs).entries[i].2 := by rw [hget]
          rw [hsame, ← hdrain, htop] at ht'
          cases ht'
          refine Or.inr ⟨rfl, ?_⟩
          rcases Prod.Lex.le_iff.mp hle with hlt | ⟨-, hkey⟩
          · exact absurd heq' hlt.ne
          · exact hkey

/-- So no live record has a smaller value. -/
theorem search_some {stale : L → V ×ₗ K → Bool} {hs : HeapGroup L V K} {k : K} (h : (search stale hs).1 = some k) :
    ∃ l v, Holds hs l v k ∧ stale l (toLex (v, k)) = false ∧
      ∀ l' v' k', Holds hs l' v' k' → stale l' (toLex (v', k')) = false → v ≤ v' := by
  obtain ⟨l, v, hh, hlive, hleast⟩ := search_least h
  exact ⟨l, v, hh, hlive, fun l' v' k' hh' hlive' => Prod.Lex.monotone_fst _ _ (hleast l' v' k' hh' hlive')⟩

/-- **What a search answers** is the key of the least live record. -/
theorem search_eq_some_iff {stale : L → V ×ₗ K → Bool} {hs : HeapGroup L V K} {k : K} :
    (search stale hs).1 = some k ↔ ∃ l v, Holds hs l v k ∧ stale l (toLex (v, k)) = false ∧
      ∀ l' v' k', Holds hs l' v' k' → stale l' (toLex (v', k')) = false → rank hs l v k ≤ rank hs l' v' k' := by
  refine ⟨search_least, ?_⟩
  rintro ⟨l, v, hh, hlive, hmin⟩
  cases hs' : (search stale hs).1 with
  | none =>
    rw [search_none hs' hh] at hlive
    cases hlive
  | some k' =>
    obtain ⟨l', v', hh', hlive', hmin'⟩ := search_least hs'
    rw [rank_inj (le_antisymm (hmin l' v' k' hh' hlive') (hmin' l v k hh hlive))]

end HeapGroup

end FairCache.Lib
