import FairCache.Experimental.Representation
import FairCache.Experimental.RefCounts

/-!
# What `allocate` evicts

* `exists_le_addFreeBlock` : what is freed makes no free block smaller, so a request that is refused after some frees was
  refused before them;
* `Eviction` : a call that returned, with the lock released, freed as few entries as it took and left the others alone;
* `evicts_iff` : a call returns so exactly when what can be evicted is enough, or was all that there is. Otherwise the loop
  runs out of entries, which raises with the lock held.
-/

namespace FairCache

open Lib

/-! ## Frees make room -/

namespace TensorMemoryAllocator

variable {l : List FreeBlock} {b c : FreeBlock}

theorem mem_add {x : FreeBlock} : b ∈ SortedList.add Extent.start l x ↔ b = x ∨ b ∈ l := by
  rw [SortedList.add_eq, List.mem_append, List.mem_cons]
  nth_rewrite 3 [← SortedList.left_append_right Extent.start l x.start]
  rw [List.mem_append]
  tauto

theorem replace_cons_of_ne {p p' a : FreeBlock} (ha : p ≠ a) : (a :: l).replace p p' = a :: l.replace p p' := by
  rw [List.replace_cons, beq_false_of_ne ha]

theorem mem_replace_self {p p' : FreeBlock} (hp : p ∈ l) : p' ∈ l.replace p p' := by
  induction l with
  | nil => cases hp
  | cons a l ih =>
    by_cases ha : p = a
    · subst ha
      rw [List.replace_cons_self]
      exact List.mem_cons_self
    · rw [replace_cons_of_ne ha]
      exact List.mem_cons_of_mem _ (ih ((List.mem_cons.mp hp).resolve_left ha))

theorem mem_replace_of_ne {p p' : FreeBlock} (hb : b ∈ l) (hne : b ≠ p) : b ∈ l.replace p p' := by
  induction l with
  | nil => cases hb
  | cons a l ih =>
    by_cases ha : p = a
    · subst ha
      rw [List.replace_cons_self]
      exact List.mem_cons_of_mem _ ((List.mem_cons.mp hb).resolve_left hne)
    · rw [replace_cons_of_ne ha]
      rcases List.mem_cons.mp hb with rfl | hb
      · exact List.mem_cons_self
      · exact List.mem_cons_of_mem _ (ih hb)

/-- **What is freed makes no free block smaller.** -/
theorem exists_le_addFreeBlock (hb : b ∈ l) (c : FreeBlock) : ∃ d ∈ addFreeBlock l c, b.size ≤ d.size := by
  unfold addFreeBlock
  simp only [SortedList.getElem?_pred_bisectRight, SortedList.getElem?_bisectRight]
  unfold coalesce
  dsimp only
  cases hprev : (SortedList.left Extent.start l c.start).getLast?.filter (fun p => FreeBlock.canBeCoalesced p c) with
  | none =>
    cases hsucc : (SortedList.right Extent.start l c.start).head?.filter (fun s => c.canBeCoalesced s) with
    | none => exact ⟨b, mem_add.mpr (Or.inr hb), le_refl _⟩
    | some s =>
      by_cases hbs : b = s
      · subst hbs
        exact ⟨_, mem_add.mpr (Or.inl rfl), Nat.le_add_right _ _⟩
      · exact ⟨b, mem_add.mpr (Or.inr ((List.mem_erase_of_ne hbs).mpr hb)), le_refl _⟩
  | some p =>
    obtain ⟨hlast, htouch⟩ := Option.filter_eq_some_iff.mp hprev
    have hp : p ∈ SortedList.left Extent.start l c.start := List.mem_of_getLast? hlast
    have hpl : p ∈ l := by
      rw [← SortedList.left_append_right Extent.start l c.start]
      exact List.mem_append_left _ hp
    cases hsucc : (SortedList.right Extent.start l c.start).head?.filter (fun s => c.canBeCoalesced s) with
    | none =>
      by_cases hbp : b = p
      · subst hbp
        exact ⟨_, mem_replace_self hpl, Nat.le_add_right _ _⟩
      · exact ⟨b, mem_replace_of_ne hb hbp, le_refl _⟩
    | some s =>
      -- the merged block starts before the successor, so it is not the one that is removed
      have hstart : p.start < s.start := by
        obtain ⟨hhead, -⟩ := Option.filter_eq_some_iff.mp hsucc
        obtain ⟨right', hright⟩ := List.head?_eq_some_iff.mp hhead
        have hle : p.start ≤ c.start := SortedList.le_of_mem_left hp
        have hlt := List.head?_dropWhile_not (fun y : FreeBlock => decide (y.start ≤ c.start)) l
        unfold SortedList.right at hhead
        rw [hhead] at hlt
        exact hle.trans_lt (not_le.mp (of_decide_eq_false hlt))
      have hne : ({ p with size := p.size + (c.size + s.size) } : FreeBlock) ≠ s := fun h => by
        rw [← h] at hstart
        exact Nat.lt_irrefl _ hstart
      have hmerged := (List.mem_erase_of_ne hne).mpr (mem_replace_self hpl)
      by_cases hbp : b = p
      · subst hbp
        exact ⟨_, hmerged, Nat.le_add_right _ _⟩
      · by_cases hbs : b = s
        · subst hbs
          refine ⟨_, hmerged, ?_⟩
          dsimp only
          omega
        · exact ⟨b, (List.mem_erase_of_ne hbs).mpr (mem_replace_of_ne hb hbp), le_refl _⟩

end TensorMemoryAllocator

namespace StorageManager

variable {K : Type} {heap : Heap} {shape : List ℕ} {dtype : Dtype}

/-- A request is refused where every free block is too small. -/
theorem refuses_iff : Refuses heap shape dtype ↔
    ∀ b ∈ heap.allocator.explicitList,
      b.size < TensorMemoryAllocator.computeAlignedSize (TensorMemoryAllocator.computeRawSize shape dtype) := by
  have hnone : (heap.allocator.allocate shape dtype .kvBlob).1 = none ↔ _ := TensorMemoryAllocator.allocate_none_iff
  refine Iff.trans ?_ hnone
  unfold Refuses Heap.allocateObj
  rcases heap.allocator.allocate shape dtype .kvBlob with ⟨obj, a⟩
  cases obj with
  | none => exact iff_of_true rfl rfl
  | some o => exact iff_of_false (Option.some_ne_none _) (Option.some_ne_none _)

/-- What is refused after a reference was dropped was refused before, and no allocation is added. -/
theorem down_le (shape : List ℕ) (dtype : Dtype) (heap : Heap) (i : ℕ) : (Refuses (heap.down i) shape dtype → Refuses heap shape dtype) ∧
    (heap.down i).allocator.numActiveAllocations ≤ heap.allocator.numActiveAllocations := by
  rw [refuses_iff, refuses_iff]
  unfold Heap.down
  cases heap.objs[i]? with
  | none => exact ⟨id, le_refl _⟩
  | some o =>
    unfold TensorMemoryAllocator.refCountDown TensorMemoryAllocator.free
    dsimp only
    split_ifs
    · refine ⟨fun h b hb => ?_, Nat.sub_le _ _⟩
      obtain ⟨d, hd, hle⟩ := TensorMemoryAllocator.exists_le_addFreeBlock hb
        { o with metadata := { o.metadata with refCount := o.metadata.refCount - 1 } }.range
      exact hle.trans_lt (h d hd)
    · exact ⟨id, le_refl _⟩
    · exact ⟨id, le_refl _⟩

theorem freeAll_le (shape : List ℕ) (dtype : Dtype) (heap : Heap) (victims : List (Sigma fun _ : K => ℕ)) :
    (Refuses (freeAll heap victims) shape dtype → Refuses heap shape dtype) ∧
      (freeAll heap victims).allocator.numActiveAllocations ≤ heap.allocator.numActiveAllocations := by
  induction victims generalizing heap with
  | nil => exact ⟨id, le_refl _⟩
  | cons e victims ih =>
    obtain ⟨hrefuse, hactive⟩ := ih (heap.down e.2)
    obtain ⟨hrefuse', hactive'⟩ := down_le shape dtype heap e.2
    exact ⟨fun h => hrefuse' (hrefuse h), hactive.trans hactive'⟩

/-- What can be evicted is enough, or all that there is. -/
def Enough (heap : Heap) (vs : List (Sigma fun _ : K => ℕ)) (shape : List ℕ) (dtype : Dtype) : Prop :=
  ¬ Refuses (freeAll heap vs) shape dtype ∨ vs ≠ [] ∧ (freeAll heap vs).allocator.numActiveAllocations = 0

/-- **The loop ends before it runs out of entries exactly when these are enough.** -/
theorem evictAll_ok_iff {vs : List (Sigma fun _ : K => ℕ)} (hrefuse : Refuses heap shape dtype) :
    (∃ r, (evictAll shape dtype heap vs).1 = .ok r) ↔ Enough heap vs shape dtype := by
  induction vs generalizing heap with
  | nil =>
    refine iff_of_false ?_ ?_
    · rintro ⟨r, hr⟩
      cases hr
    · rintro (h | ⟨h, -⟩)
      · exact h hrefuse
      · exact h rfl
  | cons e vs ih =>
    rw [evictAll]
    rcases halloc : (heap.down e.2).allocateObj shape dtype with ⟨obj, heap'⟩
    have hle := freeAll_le shape dtype (heap.down e.2) vs
    cases obj with
    | some obj =>
      refine iff_of_true ⟨some obj, rfl⟩ (Or.inl fun h => ?_)
      have hnone := hle.1 h
      unfold Refuses at hnone
      rw [halloc] at hnone
      cases hnone
    | none =>
      obtain rfl := Heap.allocateObj_none halloc
      have hstill : Refuses (heap.down e.2) shape dtype := congrArg Prod.fst halloc
      have hfree : freeAll heap (e :: vs) = freeAll (heap.down e.2) vs := rfl
      unfold Enough
      rw [hfree]
      dsimp only
      split_ifs with hend
      · have hzero := hend.resolve_left (by decide)
        exact iff_of_true ⟨none, rfl⟩ (Or.inr ⟨List.cons_ne_nil _ _, by omega⟩)
      · rw [show (∃ r, (evictAll shape dtype (heap.down e.2) vs).1 = .ok r) ↔ _ from ih hstill]
        unfold Enough
        refine or_congr Iff.rfl (and_congr_left fun hzero => iff_of_true ?_ (List.cons_ne_nil _ _))
        rintro rfl
        exact hend (Or.inr hzero)

/-! ## What a call does -/

/-- **An allocation that returned** : the lock is free, the victims were held by the hot cache alone and are the first such
entries, each of them was needed, and the hot cache keeps everything else and nothing that was freed. -/
structure Eviction (s s' : StorageManager K) [DecidableEq K] (shape : List ℕ) (dtype : Dtype) (obj : Option ℕ)
    (victims : List (Sigma fun _ : K => ℕ)) : Prop where
  unlocked : s'.managerLock = false
  inOrder : victims <+: evictable s.heap s.hotCache.entries
  needed : ∀ shorter, shorter <+: victims → shorter ≠ victims → Refuses (freeAll s.heap shorter) shape dtype
  allocated : (freeAll s.heap victims).allocateObj shape dtype = (obj, s'.heap)
  kept : s'.hotCache.entries = s.hotCache.entries.filter fun e => e.1 ∉ victims.map (·.1)
  freed : ∀ e ∈ victims, s'.heap.isValid e.2 = false
  valid : ∀ e ∈ s'.hotCache.entries, s'.heap.isValid e.2 = true

/-- `allocate` returns an object or nothing, and evicts only what it must. -/
def Evicts [DecidableEq K] (s : StorageManager K) (shape : List ℕ) (dtype : Dtype) : Prop :=
  ∃ obj s' victims, s.allocate shape dtype = (.ok obj, s') ∧ s.Eviction s' shape dtype obj victims

variable {s s' : StorageManager K} {leaked : List ℕ}

/-- What is in the hot cache is valid. -/
theorem Accounted.valid_hot (ha : s.Accounted leaked) : ∀ e ∈ s.hotCache.entries, s.heap.isValid e.2 = true :=
  fun e he => (ha e.2).2.mpr (List.count_pos_iff.mpr (mem_refs_of_hot he))

variable [DecidableEq K]

/-- The only reference to a victim was that of its entry. -/
theorem Accounted.freed_victims (ha : s.Accounted leaked) {victims : List (Sigma fun _ : K => ℕ)}
    (hpre : victims <+: evictable s.heap s.hotCache.entries) {obj : Option ℕ} {heap' : Heap}
    (halloc : (freeAll s.heap victims).allocateObj shape dtype = (obj, heap')) :
    ∀ e ∈ victims, heap'.isValid e.2 = false := by
  intro e he
  have hsub := hpre.sublist.trans List.filter_sublist
  have hone : s.heap.refCount e.2 = 1 := of_decide_eq_true (List.mem_filter.mp (hpre.subset he)).2
  have hcount := (ha e.2).1
  have hevict := ha.evict hsub
  have hsplit := ((Dict.entries_perm_foldl_erase hsub).map (·.2)).count_eq e.2
  have hvictim : 0 < (victims.map (·.2)).count e.2 := List.count_pos_iff.mpr (List.mem_map_of_mem he)
  rw [List.map_append, List.count_append] at hsplit
  have hzero : ((s.refs ++ leaked).count e.2 : ℤ) = 1 := hcount.symm.trans hone
  have hgone : ((victims.map (·.1)).foldl Dict.erase s.hotCache).values.count e.2 + s.callers.count e.2 +
      (s.diskPuts.map (·.2)).count e.2 + (s.remotePuts.filterMap (·.2)).count e.2 + leaked.count e.2 = 0 := by
    simp only [List.count_append, count_refs] at hzero
    change s.hotCache.values.count e.2 =
      (victims.map (·.2)).count e.2 + ((victims.map (·.1)).foldl Dict.erase s.hotCache).values.count e.2 at hsplit
    omega
  have hfreed : (freeAll s.heap victims).isValid e.2 = false := by
    have hiff := (hevict e.2).2
    simp only [List.count_append, count_refs] at hiff
    rw [hgone] at hiff
    exact Bool.eq_false_iff.mpr fun h => absurd (hiff.mp h) (Nat.lt_irrefl 0)
  cases obj with
  | none =>
    obtain rfl := Heap.allocateObj_none halloc
    exact hfreed
  | some i =>
    -- the object that is returned has a new number
    obtain ⟨hc, -, rfl⟩ := Heap.Counts.allocateObj hevict halloc
    obtain ⟨o, ho, -⟩ := Heap.Counts.exists_of_mem ha (mem_refs_of_hot (hsub.subset he))
    have hlt : e.2 < (freeAll s.heap victims).objs.length := by
      rw [length_freeAll]
      exact Heap.lt_of_getElem? ho
    have hiff := (hc e.2).2
    rw [List.count_cons_of_ne (Nat.ne_of_gt hlt)] at hiff
    simp only [List.count_append, count_refs] at hiff
    rw [hgone] at hiff
    exact Bool.eq_false_iff.mpr fun h => absurd (hiff.mp h) (Nat.lt_irrefl 0)

/-- **A call evicts as it should exactly when what can be evicted is enough, or all that there is.** -/
theorem Accounted.evicts_iff_enough (ha : s.Accounted leaked) (shape : List ℕ) (dtype : Dtype) :
    s.Evicts shape dtype ↔ Enough s.heap (evictable s.heap s.hotCache.entries) shape dtype := by
  have hreturns : s.Evicts shape dtype ↔ ∃ obj s', s.allocate shape dtype = (.ok obj, s') := by
    constructor
    · rintro ⟨obj, s', -, hs, -⟩
      exact ⟨obj, s', hs⟩
    · rintro ⟨obj, s', hs⟩
      obtain ⟨victims, heap', hpre, hneeded, halloc, rfl⟩ := ha.allocate_ok hs
      exact ⟨obj, _, victims, hs, rfl, hpre, hneeded, halloc, Dict.entries_foldl_erase _ _,
        ha.freed_victims hpre halloc, (ha.allocate hs).valid_hot⟩
  rw [hreturns]
  unfold StorageManager.allocate
  dsimp only
  rcases halloc : s.heap.allocateObj shape dtype with ⟨obj, heap⟩
  cases obj with
  | some obj =>
    refine iff_of_true ⟨_, _, rfl⟩ (Or.inl fun h => ?_)
    have hnone := (freeAll_le shape dtype s.heap _).1 h
    unfold Refuses at hnone
    rw [halloc] at hnone
    cases hnone
  | none =>
    obtain rfl := Heap.allocateObj_none halloc
    rw [← evictAll_ok_iff (congrArg Prod.fst halloc)]
    dsimp only
    rw [ha.evictLoop_eq]
    rcases evictAll shape dtype s.heap (evictable s.heap s.hotCache.entries) with ⟨r, heap', keys⟩
    cases r with
    | error e =>
      refine iff_of_false ?_ ?_
      · rintro ⟨obj, s', h⟩
        cases h
      · rintro ⟨r, h⟩
        cases h
    | ok obj => exact iff_of_true ⟨_, _, rfl⟩ ⟨_, rfl⟩

/-- **In every state that is reached, a request of any shape is served as it should exactly when what can be evicted is
enough for it, or was all that is allocated.** -/
theorem evicts_iff {bufferSize : ℕ} {useHot : Bool} {maxDiskSize : Option ℕ} {serde : Option Serde} {ops : List (Op K)}
    (hheld : Along step Held (new K bufferSize useHot maxDiskSize serde) ops)
    (hrun : Reaches step (new K bufferSize useHot maxDiskSize serde) ops s) (shape : List ℕ) (dtype : Dtype) :
    s.Evicts shape dtype ↔ Enough s.heap (evictable s.heap s.hotCache.entries) shape dtype := by
  obtain ⟨leaked, ha⟩ := exists_accounted hheld hrun
  exact ha.evicts_iff_enough shape dtype

/-! ## Requests on concrete inputs -/

instance (heap : Heap) (shape : List ℕ) (dtype : Dtype) : Decidable (Refuses heap shape dtype) :=
  inferInstanceAs (Decidable (_ = _))

instance (heap : Heap) (vs : List (Sigma fun _ : K => ℕ)) (shape : List ℕ) (dtype : Dtype) :
    Decidable (Enough heap vs shape dtype) := inferInstanceAs (Decidable (_ ∨ _ ∧ _))

/-- Two objects fill the buffer, and a caller holds the first: the second makes room. -/
theorem evicts_second_entry : ∃ s, Reaches step (new ℕ 1024 true none none)
    [.allocate [512] ⟨1, by decide⟩, .put 1 0, .allocate [128] ⟨4, by decide⟩, .put 2 1, .get 1 none] s ∧
      s.Evicts [256] ⟨2, by decide⟩ := by
  have hrun : ∃ s, Reaches step (new ℕ 1024 true none none)
      [.allocate [512] ⟨1, by decide⟩, .put 1 0, .allocate [128] ⟨4, by decide⟩, .put 2 1, .get 1 none] s ∧
        Enough s.heap (evictable s.heap s.hotCache.entries) [256] ⟨2, by decide⟩ := by decide +kernel
  obtain ⟨s, hs, henough⟩ := hrun
  exact ⟨s, hs, (evicts_iff (by decide +kernel) hs _ _).mpr henough⟩

/-- A caller holds the only entry: the iterator runs out, and the lock stays held. -/
theorem pinned_entry_raises : ∃ s, Reaches step (new ℕ 512 true none none)
    [.allocate [512] ⟨1, by decide⟩, .put 1 0, .get 1 none] s ∧ ¬ s.Evicts [512] ⟨1, by decide⟩ ∧
      (s.allocate [512] ⟨1, by decide⟩).2.managerLock = true := by
  have hrun : ∃ s, Reaches step (new ℕ 512 true none none)
      [.allocate [512] ⟨1, by decide⟩, .put 1 0, .get 1 none] s ∧
        (s.allocate [512] ⟨1, by decide⟩).1.toOption = none ∧
        (s.allocate [512] ⟨1, by decide⟩).2.managerLock = true := by decide +kernel
  obtain ⟨s, hs, hraise, hlock⟩ := hrun
  refine ⟨s, hs, ?_, hlock⟩
  rintro ⟨obj, s', victims, hok, -⟩
  rw [hok] at hraise
  cases hraise

end StorageManager

end FairCache
