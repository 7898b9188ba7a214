import FairCache.Experimental.Allocator

/-!
# The representation invariant of the allocator

* `RepInvariant h` : the free blocks are in order, not empty, disjoint and coalesced, and with the live ranges they
  partition the buffer; the counter is right, and an allocation is refused only where nothing fits;
* `WF n h` : the invariant as the operations keep it;
* `addFreeBlock_eq` : what is freed is joined with the blocks around it, and `allocate_some` : what is allocated is cut off;
* `memcheck_of_wf` : the allocator's own check never complains;
* `everyState_repInvariant_iff` : every history keeps the invariant if the buffer is not empty.
-/

namespace FairCache

open Lib Extent

/-- **The representation invariant.** -/
structure Heap.RepInvariant (h : Heap) : Prop where
  sorted : h.allocator.explicitList.Pairwise fun b c => b.start < c.start
  nonempty : ∀ b ∈ h.allocator.explicitList, 0 < b.size
  disjoint : h.allocator.explicitList.Pairwise Apart
  coalesced : h.allocator.explicitList.Pairwise fun b c => b.stop ≠ c.start ∧ c.stop ≠ b.start
  partition : Tiles (h.allocator.explicitList ++ h.live.map TensorMemoryObj.range) h.allocator.bufferSize
  total : h.allocator.totalAllocatedSize = ((h.live.map fun o => o.metadata.phySize).sum : ℕ)
  raw : h.live.Pairwise fun o o' => o.rawData.Apart o'.rawData
  refuses : ∀ shape dtype fmt, (h.allocator.allocate shape dtype fmt).1 = none ↔
    ∀ b ∈ h.allocator.explicitList,
      b.size < TensorMemoryAllocator.computeAlignedSize (TensorMemoryAllocator.computeRawSize shape dtype)

/-! ## The free list -/

namespace TensorMemoryAllocator

variable {l : List FreeBlock} {c : FreeBlock}

/-- A free block is added between blocks that end before it and blocks that start after it. -/
theorem around_of_apart (hpos : ∀ b ∈ l, 0 < b.size) (hc : 0 < c.size) (hapart : ∀ b ∈ l, c.Apart b)
    (hl : Separated l) :
    (∀ b ∈ SortedList.left start l c.start, b.stop ≤ c.start) ∧
      ∀ b ∈ SortedList.right start l c.start, c.stop ≤ b.start := by
  have hmem := SortedList.left_append_right start l c.start
  constructor
  · intro b hb
    have hbl : b ∈ l := hmem ▸ List.mem_append_left _ hb
    have hle : b.start ≤ c.start := SortedList.le_of_mem_left hb
    have hb' := hpos b hbl
    rcases (hapart b hbl).le hc hb' with h | h
    · unfold stop at h
      omega
    · exact h
  · intro b hb
    have hbl : b ∈ l := hmem ▸ List.mem_append_right _ hb
    have hlt : c.start < b.start := SortedList.lt_of_mem_right hl.sorted hb
    have hb' := hpos b hbl
    rcases (hapart b hbl).le hc hb' with h | h
    · exact h
    · unfold stop at h
      omega

theorem canBeCoalesced_iff {b d : FreeBlock} : b.canBeCoalesced d = true ↔ b.stop = d.start := by
  unfold FreeBlock.canBeCoalesced stop
  exact beq_iff_eq

/-- The successor to merge with, and the join after it. -/
theorem mergeSucc_some {right : List FreeBlock} {s : FreeBlock}
    (h : right.head?.filter (fun s => c.canBeCoalesced s) = some s) :
    ∃ right', right = s :: right' ∧ c.stop = s.start ∧ joinHead c right = ⟨c.start, c.size + s.size⟩ :: right' := by
  obtain ⟨hhead, htouch⟩ := Option.filter_eq_some_iff.mp h
  obtain ⟨right', rfl⟩ := List.head?_eq_some_iff.mp hhead
  have hstop := canBeCoalesced_iff.mp htouch
  exact ⟨right', rfl, hstop, if_pos hstop⟩

theorem mergeSucc_none {right : List FreeBlock} (h : right.head?.filter (fun s => c.canBeCoalesced s) = none) :
    joinHead c right = c :: right := by
  cases right with
  | nil => rfl
  | cons s right =>
    have htouch := Option.filter_eq_none_iff.mp h s rfl
    exact if_neg fun hstop => htouch (canBeCoalesced_iff.mpr hstop)

/-- The predecessor to merge with, and the join before what starts where the freed block does. -/
theorem mergePrev_some {left : List FreeBlock} {p : FreeBlock}
    (h : left.getLast?.filter (fun p => FreeBlock.canBeCoalesced p c) = some p) :
    ∃ left', left = left' ++ [p] ∧ ∀ n right, joinSeam left (⟨c.start, n⟩ :: right) = left' ++ ⟨p.start, p.size + n⟩ :: right := by
  obtain ⟨hlast, htouch⟩ := Option.filter_eq_some_iff.mp h
  obtain ⟨left', rfl⟩ := List.getLast?_eq_some_iff.mp hlast
  have hstop := canBeCoalesced_iff.mp htouch
  refine ⟨left', rfl, fun n right => ?_⟩
  rw [joinSeam_concat, joinHead, if_pos hstop]

theorem mergePrev_none {left : List FreeBlock} (h : left.getLast?.filter (fun p => FreeBlock.canBeCoalesced p c) = none)
    (n : ℕ) (right : List FreeBlock) : joinSeam left (⟨c.start, n⟩ :: right) = left ++ ⟨c.start, n⟩ :: right := by
  rcases List.eq_nil_or_concat left with rfl | ⟨left', p, rfl⟩
  · rfl
  · rw [List.concat_eq_append] at h ⊢
    have htouch := Option.filter_eq_none_iff.mp h p (by rw [List.getLast?_concat])
    rw [joinSeam_concat, joinHead, if_neg fun hstop => htouch (canBeCoalesced_iff.mpr hstop), List.append_assoc]
    rfl

/-- **What is freed is joined with the blocks around it.** -/
theorem addFreeBlock_eq (hl : Separated l) (hc : 0 < c.size) (hpos : ∀ b ∈ l, 0 < b.size)
    (hapart : ∀ b ∈ l, c.Apart b) :
    addFreeBlock l c =
      joinSeam (SortedList.left start l c.start) (joinHead c (SortedList.right start l c.start)) := by
  obtain ⟨hleft, hright⟩ := around_of_apart hpos hc hapart hl
  have hadd : SortedList.add start l c = SortedList.left start l c.start ++ c :: SortedList.right start l c.start :=
    SortedList.add_eq l c
  unfold addFreeBlock
  simp only [SortedList.getElem?_pred_bisectRight, SortedList.getElem?_bisectRight]
  rw [hadd]
  have hsplit := SortedList.left_append_right start l c.start
  generalize SortedList.left start l c.start = left at *
  generalize SortedList.right start l c.start = right at *
  subst hsplit
  unfold coalesce
  dsimp only
  cases hprev : left.getLast?.filter (fun p => FreeBlock.canBeCoalesced p c) with
  | none =>
    have hjoin := mergePrev_none hprev
    cases hsucc : right.head?.filter (fun s => c.canBeCoalesced s) with
    | none =>
      rw [mergeSucc_none hsucc]
      exact (hjoin c.size right).symm
    | some s =>
      obtain ⟨right', rfl, hstop, hhead⟩ := mergeSucc_some hsucc
      obtain ⟨-, hsep, hbefore, hafter⟩ := separated_insert.mp hl
      have hs : s ∉ left := fun hmem => absurd (hbefore s hmem) (by unfold stop; omega)
      have hstart : s.start - c.size = c.start := by
        rw [← hstop]
        exact Nat.add_sub_cancel c.start c.size
      dsimp only
      rw [hhead, hjoin, List.erase_append_right _ hs, List.erase_cons_head, hstart, Nat.add_comm s.size]
      refine SortedList.add_append (fun b hb => ?_) (fun b hb => ?_)
      · have := hleft b hb
        unfold stop at this
        exact (Nat.le_add_right _ _).trans this
      · have := hafter b hb
        unfold stop at this hstop
        dsimp only
        omega
  | some p =>
    obtain ⟨left', rfl, hjoin⟩ := mergePrev_some hprev
    rw [List.append_assoc, List.singleton_append] at hl
    obtain ⟨-, -, hbefore, hafter⟩ := separated_insert.mp hl
    have hp : p ∉ left' := fun hmem => absurd (hbefore p hmem) (by unfold stop; omega)
    have hreplace : ∀ n, (left' ++ [p] ++ right).replace p ⟨p.start, n⟩ = left' ++ ⟨p.start, n⟩ :: right := by
      intro n
      rw [List.append_assoc, List.replace_append_right hp, List.singleton_append, List.replace_cons_self]
    cases hsucc : right.head?.filter (fun s => c.canBeCoalesced s) with
    | none =>
      dsimp only
      rw [mergeSucc_none hsucc, hreplace]
      exact (hjoin c.size right).symm
    | some s =>
      obtain ⟨right', rfl, hstop, hhead⟩ := mergeSucc_some hsucc
      have hps := hafter s List.mem_cons_self
      have hs : s ∉ left' := by
        intro hmem
        have := hbefore s hmem
        unfold stop at *
        omega
      have hne : (⟨p.start, p.size + (c.size + s.size)⟩ : Extent) ≠ s := by
        intro heq
        have := congrArg start heq
        unfold stop at hps
        dsimp only at this
        omega
      dsimp only
      rw [hhead, hjoin, hreplace, List.erase_append_right _ hs, List.erase_cons_tail (by simpa using hne),
        List.erase_cons_head]

/-- The free list covers what was freed as well. -/
theorem depth_addFreeBlock (hl : Separated l) (hc : 0 < c.size) (hpos : ∀ b ∈ l, 0 < b.size)
    (hapart : ∀ b ∈ l, c.Apart b) (x : ℕ) : depth (addFreeBlock l c) x = depth (c :: l) x := by
  have hsplit := SortedList.left_append_right start l c.start
  rw [addFreeBlock_eq hl hc hpos hapart, depth_joinSeam, depth_append, depth_joinHead, depth_cons, depth_cons]
  conv_rhs => rw [← hsplit, depth_append]
  exact (Nat.add_assoc _ _ _).symm

theorem separated_addFreeBlock (hl : Separated l) (hc : 0 < c.size) (hpos : ∀ b ∈ l, 0 < b.size)
    (hapart : ∀ b ∈ l, c.Apart b) : Separated (addFreeBlock l c) := by
  obtain ⟨hleft, hright⟩ := around_of_apart hpos hc hapart hl
  rw [addFreeBlock_eq hl hc hpos hapart]
  have hsep := hl
  rw [← SortedList.left_append_right start l c.start] at hsep
  obtain ⟨hsepLeft, hsepRight, -⟩ := List.pairwise_append.mp hsep
  refine separated_joinSeam hsepLeft (separated_joinHead hsepRight hright) fun b hb d hd => ?_
  obtain ⟨e, he, hstart⟩ := start_joinHead c _ d hd
  have hbc := hleft b hb
  rw [hstart]
  rcases List.mem_cons.mp he with rfl | he
  · exact hbc
  · have := hright e he
    unfold stop at *
    omega

theorem pos_addFreeBlock (hl : Separated l) (hc : 0 < c.size) (hpos : ∀ b ∈ l, 0 < b.size)
    (hapart : ∀ b ∈ l, c.Apart b) : ∀ b ∈ addFreeBlock l c, 0 < b.size := by
  rw [addFreeBlock_eq hl hc hpos hapart]
  apply pos_joinSeam
  rw [List.forall_mem_append]
  have hsplit := SortedList.left_append_right start l c.start
  rw [← hsplit, List.forall_mem_append] at hpos
  exact ⟨hpos.1, pos_joinHead (List.forall_mem_cons.mpr ⟨hc, hpos.2⟩)⟩

/-! ## Allocation -/

/-- The free list without the first `n` bytes of the block. -/
def cut (left right : List FreeBlock) (b : FreeBlock) (n : ℕ) : List FreeBlock :=
  left ++ if n < b.size then ⟨b.start + n, b.size - n⟩ :: right else right

/-- The object that is allocated at the start of the block. -/
def objAt (a : TensorMemoryAllocator) (b : FreeBlock) (shape : List ℕ) (dtype : Dtype) (fmt : MemoryFormat) :
    TensorMemoryObj :=
  { rawData := slice a.bufferSize b.start (b.start + computeRawSize shape dtype)
    metadata :=
      { shape := shape, dtype := dtype, address := b.start, phySize := computeAlignedSize (computeRawSize shape dtype)
        refCount := 1, fmt := fmt }
    valid := true }

variable {a : TensorMemoryAllocator} {shape : List ℕ} {dtype : Dtype} {fmt : MemoryFormat}

theorem allocate_none_iff : (a.allocate shape dtype fmt).1 = none ↔
    ∀ b ∈ a.explicitList, b.size < computeAlignedSize (computeRawSize shape dtype) := by
  unfold allocate
  dsimp only
  cases h : a.explicitList.find? fun block => computeAlignedSize (computeRawSize shape dtype) ≤ block.size with
  | none =>
    refine ⟨fun _ b hb => ?_, fun _ => rfl⟩
    have hfit := List.find?_eq_none.mp h b hb
    exact not_le.mp fun hle => hfit (decide_eq_true hle)
  | some b =>
    refine ⟨fun h' => absurd h' (Option.some_ne_none _), fun h' => ?_⟩
    have hfit := List.find?_some h
    have hlt := h' b (List.mem_of_find?_eq_some h)
    exact absurd (of_decide_eq_true hfit) (not_le.mpr hlt)

/-- **What is allocated is cut off the first block that it fits in.** -/
theorem allocate_cases (shape : List ℕ) (dtype : Dtype) (fmt : MemoryFormat) (hl : Separated a.explicitList) :
    (a.allocate shape dtype fmt = (none, a)) ∨
      ∃ left b right, a.explicitList = left ++ b :: right ∧ computeAlignedSize (computeRawSize shape dtype) ≤ b.size ∧
        a.allocate shape dtype fmt =
          (some (a.objAt b shape dtype fmt),
            { a with
              explicitList := cut left right b (computeAlignedSize (computeRawSize shape dtype))
              totalAllocatedSize := a.totalAllocatedSize + computeAlignedSize (computeRawSize shape dtype)
              numActiveAllocations := a.numActiveAllocations + 1 }) := by
  unfold allocate
  dsimp only
  generalize hn : computeAlignedSize (computeRawSize shape dtype) = n
  cases h : a.explicitList.find? fun block => n ≤ block.size with
  | none => exact Or.inl rfl
  | some b =>
    right
    obtain ⟨hfit, left, right, hlist, -⟩ := List.find?_eq_some_iff_append.mp h
    refine ⟨left, b, right, hlist, of_decide_eq_true hfit, ?_⟩
    rw [hlist] at hl
    obtain ⟨-, -, hbefore, hafter⟩ := separated_insert.mp hl
    have hb : b ∉ left := fun hmem => absurd (hbefore b hmem) (by unfold stop; omega)
    have herase : a.explicitList.erase b = left ++ right := by
      rw [hlist, List.erase_append_right _ hb, List.erase_cons_head]
    have hrest : (if n < b.size then SortedList.add start (left ++ right) ⟨b.start + n, b.size - n⟩ else left ++ right) =
        cut left right b n := by
      unfold cut
      split_ifs with hlt
      · refine SortedList.add_append (fun d hd => ?_) (fun d hd => ?_)
        · have := hbefore d hd
          unfold stop at this
          dsimp only
          omega
        · have := hafter d hd
          unfold stop at this
          dsimp only
          omega
      · rfl
    dsimp only
    rw [herase, hrest, objAt, hn]

variable {left right : List FreeBlock} {b : FreeBlock} {n : ℕ}

theorem separated_cut (h : Separated (left ++ b :: right)) : Separated (cut left right b n) := by
  obtain ⟨hleft, hright, hbefore, hafter⟩ := separated_insert.mp h
  unfold cut
  split_ifs with hlt
  · refine separated_insert.mpr ⟨hleft, hright, fun d hd => ?_, fun d hd => ?_⟩
    · have := hbefore d hd
      dsimp only
      omega
    · have := hafter d hd
      unfold stop at *
      dsimp only
      omega
  · refine List.pairwise_append.mpr ⟨hleft, hright, fun d hd e he => ?_⟩
    have := hbefore d hd
    have := hafter e he
    unfold stop at *
    omega

theorem pos_cut (h : ∀ d ∈ left ++ b :: right, 0 < d.size) : ∀ d ∈ cut left right b n, 0 < d.size := by
  obtain ⟨hleft, hb⟩ := List.forall_mem_append.mp h
  obtain ⟨-, hright⟩ := List.forall_mem_cons.mp hb
  unfold cut
  refine List.forall_mem_append.mpr ⟨hleft, ?_⟩
  split_ifs with hlt
  · exact List.forall_mem_cons.mpr ⟨Nat.sub_pos_of_lt hlt, hright⟩
  · exact hright

/-- The free list covers what was allocated no longer. -/
theorem depth_cut (left right : List FreeBlock) (h : n ≤ b.size) (x : ℕ) :
    depth (⟨b.start, n⟩ :: cut left right b n) x = depth (left ++ b :: right) x := by
  obtain ⟨m, k⟩ := b
  unfold cut
  split_ifs with hlt
  · obtain ⟨r, rfl⟩ := Nat.exists_eq_add_of_le h
    have hcut := depth_split m n r x
    simp only [depth_cons, depth_nil] at hcut
    simp only [depth_cons, depth_append, Nat.add_sub_cancel_left]
    omega
  · obtain rfl : n = k := le_antisymm h (not_lt.mp hlt)
    simp only [depth_cons, depth_append]
    omega

/-- What is allocated points into the bytes that were cut off. -/
theorem rawData_objAt {x : ℕ} (h : (a.objAt b shape dtype fmt).rawData.Contains x) :
    (a.objAt b shape dtype fmt).range.Contains x := by
  have hle := le_computeAlignedSize (computeRawSize shape dtype)
  unfold objAt slice TensorMemoryObj.range Contains at *
  dsimp only at *
  omega

end TensorMemoryAllocator

/-! ## The invariant -/

namespace Heap

open TensorMemoryAllocator

/-- An object that was allocated for some bytes and points into them. -/
structure Sound (o : TensorMemoryObj) : Prop where
  pos : 0 < o.metadata.phySize
  raw : ∀ x, o.rawData.Contains x → o.range.Contains x

/-- The invariant as the operations keep it. -/
structure WF (h : Heap) : Prop where
  separated : Separated h.allocator.explicitList
  pos : ∀ b ∈ h.allocator.explicitList, 0 < b.size
  tiles : Tiles (h.allocator.explicitList ++ h.live.map TensorMemoryObj.range) h.allocator.bufferSize
  total : h.allocator.totalAllocatedSize = ((h.live.map fun o => o.metadata.phySize).sum : ℕ)
  active : h.allocator.numActiveAllocations = h.live.length
  sound : ∀ o ∈ h.objs, Sound o

variable {h : Heap}

/-- The blocks of a tiling that are in order and do not touch. -/
theorem WF.repInvariant (hw : WF h) : h.RepInvariant := by
  refine ⟨hw.separated.sorted, hw.pos, ?_, ?_, hw.tiles, hw.total, ?_, fun _ _ _ => allocate_none_iff⟩
  · have hlist : Tiles (h.live.map TensorMemoryObj.range ++ h.allocator.explicitList) h.allocator.bufferSize :=
      (tiles_perm List.perm_append_comm).mp hw.tiles
    exact hlist.pairwise
  · have hsep := hw.separated
    unfold Separated at hsep
    apply hsep.imp
    intro b c hbc
    unfold stop at *
    omega
  · -- the ranges are apart, and the raw data is inside them
    have hranges := List.pairwise_map.mp hw.tiles.pairwise
    refine hranges.imp_of_mem fun {o o'} ho ho' hapart => ?_
    exact hapart.mono (hw.sound o (List.mem_of_mem_filter ho)).raw (hw.sound o' (List.mem_of_mem_filter ho')).raw

/-- The sizes of the free blocks and of what is allocated are the buffer's. -/
theorem WF.total_free (hw : WF h) :
    ((h.allocator.explicitList.map size).sum : ℤ) + h.allocator.totalAllocatedSize = h.allocator.bufferSize := by
  have hpos : ∀ b ∈ h.allocator.explicitList ++ h.live.map TensorMemoryObj.range, 0 < b.size := by
    refine List.forall_mem_append.mpr ⟨hw.pos, List.forall_mem_map.mpr fun o ho => ?_⟩
    exact (hw.sound o (List.mem_of_mem_filter ho)).pos
  have hsum := hw.tiles.sum_size hpos
  rw [List.map_append, List.sum_append, List.map_map] at hsum
  rw [hw.total]
  exact_mod_cast hsum

/-- **The allocator's own check never complains.** -/
theorem memcheck_of_wf (hw : WF h) : h.allocator.memcheck = true := by
  unfold memcheck
  dsimp only
  rw [Bool.and_eq_true, beq_iff_eq, List.all_eq_true]
  refine ⟨hw.total_free, ?_⟩
  have hsep := hw.separated
  generalize h.allocator.explicitList = l at hsep
  induction l with
  | nil => exact fun x hx => absurd hx List.not_mem_nil
  | cons b l ih =>
    obtain ⟨hb, hl⟩ := separated_cons.mp hsep
    cases l with
    | nil => exact fun x hx => absurd hx List.not_mem_nil
    | cons c l =>
      refine List.forall_mem_cons.mpr ⟨?_, ih hl⟩
      have hbc := hb c List.mem_cons_self
      rw [Bool.not_eq_true', ← Bool.not_eq_true, canBeCoalesced_iff]
      exact hbc.ne

theorem wf_new {n : ℕ} (hn : 0 < n) : WF (new n) :=
  { separated := List.pairwise_singleton _ _
    pos := List.forall_mem_singleton.mpr hn
    tiles := tiles_singleton n
    total := rfl
    active := rfl
    sound := fun _ ho => absurd ho List.not_mem_nil }

/-- An object in the history, and what is around it. -/
theorem split_objs {objs : List TensorMemoryObj} {i : ℕ} {o : TensorMemoryObj} (hi : objs[i]? = some o) :
    ∃ before after, objs = before ++ o :: after ∧ ∀ o', objs.set i o' = before ++ o' :: after := by
  obtain ⟨hlt, hget⟩ := List.getElem?_eq_some_iff.mp hi
  refine ⟨objs.take i, objs.drop (i + 1), ?_, fun o' => ?_⟩
  · rw [← hget, ← List.drop_eq_getElem_cons hlt, List.take_append_drop]
  · rw [List.set_eq_take_append_cons_drop, if_pos hlt]

/-- A change of the reference count does not matter. -/
theorem WF.setObj (hw : WF h) {i : ℕ} {o : TensorMemoryObj} (o' : TensorMemoryObj) (hi : h.objs[i]? = some o) (hvalid : o'.valid = o.valid)
    (hrange : o'.range = o.range) (hraw : o'.rawData = o.rawData) : WF { h with objs := h.objs.set i o' } := by
  obtain ⟨before, after, hobjs, hset⟩ := split_objs hi
  have hphy : o'.metadata.phySize = o.metadata.phySize := congrArg size hrange
  have hmap : ∀ {β : Type} (f : TensorMemoryObj → β), f o' = f o →
      ((h.objs.set i o').filter TensorMemoryObj.valid).map f = (h.objs.filter TensorMemoryObj.valid).map f := by
    intro β f hf
    rw [hset, hobjs, List.filter_append, List.filter_append, List.filter_cons, List.filter_cons, hvalid]
    split_ifs <;> simp [hf]
  refine ⟨hw.separated, hw.pos, ?_, ?_, ?_, ?_⟩
  · unfold live
    dsimp only
    rw [hmap _ hrange]
    exact hw.tiles
  · unfold live
    dsimp only
    rw [hmap _ hphy]
    exact hw.total
  · have hlen := congrArg List.length (hmap (fun _ => ()) rfl)
    rw [List.length_map, List.length_map] at hlen
    exact hw.active.trans hlen.symm
  · intro p hp
    dsimp only at hp
    rw [hset] at hp
    have hsound := hw.sound
    rw [hobjs] at hsound
    rcases List.mem_append.mp hp with hp | hp
    · exact hsound p (List.mem_append_left _ hp)
    · rcases List.mem_cons.mp hp with rfl | hp
      · have ho := hsound o (List.mem_append_right _ List.mem_cons_self)
        exact ⟨hphy ▸ ho.pos, fun x hx => hrange ▸ ho.raw x (hraw ▸ hx)⟩
      · exact hsound p (List.mem_append_right _ (List.mem_cons_of_mem _ hp))

/-- **A free puts the bytes back**; of an object that was freed already it does nothing. -/
theorem WF.free (hw : WF h) {i : ℕ} {o : TensorMemoryObj} (hi : h.objs[i]? = some o) :
    WF { allocator := (h.allocator.free o).1, objs := h.objs.set i (h.allocator.free o).2 } := by
  obtain ⟨before, after, hobjs, hset⟩ := split_objs hi
  have ho : Sound o := hw.sound o (List.mem_of_getElem? hi)
  unfold TensorMemoryAllocator.free
  by_cases hvalid : o.valid = true
  swap
  · rw [if_neg hvalid]
    exact hw.setObj _ hi rfl rfl rfl
  rw [if_pos hvalid, hset]
  have hlive : h.live.Perm (o :: (before ++ after).filter TensorMemoryObj.valid) := by
    unfold live
    rw [hobjs, List.filter_append, List.filter_append, List.filter_cons, if_pos hvalid]
    exact List.perm_middle
  have hlive' : (before ++ { o with valid := false } :: after).filter TensorMemoryObj.valid =
      (before ++ after).filter TensorMemoryObj.valid := by
    rw [List.filter_append, List.filter_append, List.filter_cons]
    rfl
  generalize hrest : (before ++ after).filter TensorMemoryObj.valid = rest at hlive hlive'
  -- the object is one of the tiles, so it is apart from every free block
  have htiles : Tiles (o.range :: (h.allocator.explicitList ++ rest.map TensorMemoryObj.range)) h.allocator.bufferSize :=
    (tiles_perm ((hlive.map TensorMemoryObj.range).append_left _ |>.trans List.perm_middle)).mp hw.tiles
  have hapart : ∀ b ∈ h.allocator.explicitList, o.range.Apart b := fun b hb =>
    htiles.apart (List.mem_append_left _ hb)
  have hpos : 0 < o.range.size := ho.pos
  refine ⟨separated_addFreeBlock hw.separated hpos hw.pos hapart, pos_addFreeBlock hw.separated hpos hw.pos hapart,
    ?_, ?_, ?_, ?_⟩
  · unfold live
    dsimp only
    rw [hlive']
    intro x
    rw [depth_append, depth_addFreeBlock hw.separated hpos hw.pos hapart, ← depth_append]
    exact htiles x
  · unfold live
    dsimp only
    rw [hlive', hw.total, (hlive.map _).sum_eq, List.map_cons, List.sum_cons]
    omega
  · unfold live
    dsimp only
    rw [hlive', hw.active, hlive.length_eq, List.length_cons]
    rfl
  · intro p hp
    have hsound := hw.sound
    rw [hobjs] at hsound
    rcases List.mem_append.mp hp with hp | hp
    · exact hsound p (List.mem_append_left _ hp)
    · rcases List.mem_cons.mp hp with rfl | hp
      · exact ⟨ho.pos, ho.raw⟩
      · exact hsound p (List.mem_append_right _ (List.mem_cons_of_mem _ hp))

/-- **An allocation takes its bytes from one free block.** -/
theorem WF.allocate (hw : WF h) {shape : List ℕ} {dtype : Dtype} {fmt : MemoryFormat} (hshape : 0 < shape.prod) :
    WF { allocator := (h.allocator.allocate shape dtype fmt).2,
         objs := h.objs ++ (h.allocator.allocate shape dtype fmt).1.toList } := by
  rcases allocate_cases shape dtype fmt hw.separated with heq | ⟨left, b, right, hlist, hfit, heq⟩
  · rw [heq]
    simpa using hw
  · rw [heq]
    dsimp only [Option.toList]
    have hsep := hw.separated
    have hpos := hw.pos
    have htiles := hw.tiles
    rw [hlist] at hsep hpos htiles
    have hlive : (h.objs ++ [h.allocator.objAt b shape dtype fmt]).filter TensorMemoryObj.valid =
        h.live ++ [h.allocator.objAt b shape dtype fmt] := by
      rw [List.filter_append]
      rfl
    refine ⟨separated_cut hsep, pos_cut hpos, ?_, ?_, ?_, ?_⟩
    · unfold live
      dsimp only
      rw [hlive]
      intro x
      have hx := htiles x
      have hcut := depth_cut left right hfit x
      rw [depth_cons] at hcut
      rw [List.map_append, depth_append, depth_append, List.map_singleton, depth_cons, depth_nil]
      rw [depth_append, ← hcut] at hx
      have hrange : (h.allocator.objAt b shape dtype fmt).range =
          ⟨b.start, computeAlignedSize (computeRawSize shape dtype)⟩ := rfl
      rw [hrange]
      omega
    · unfold live
      dsimp only
      rw [hlive, hw.total, List.map_append, List.sum_append]
      simp [objAt]
    · unfold live
      dsimp only
      rw [hlive, hw.active, List.length_append]
      rfl
    · intro p hp
      rcases List.mem_append.mp hp with hp | hp
      · exact hw.sound p hp
      · obtain rfl := List.mem_singleton.mp hp
        refine ⟨computeAlignedSize_pos ?_, fun x hx => rawData_objAt hx⟩
        exact Nat.mul_pos hshape dtype.itemsize_pos

/-- An allocation of a shape with elements, or any other operation. -/
def Op.NonZero : Op → Prop
  | .allocate shape _ _ => 0 < shape.prod
  | .free _ => True
  | .refCountUp _ => True
  | .refCountDown _ => True

/-- **Every operation keeps the invariant.** -/
theorem WF.step (hw : WF h) {op : Op} {h' : Heap} (hop : op.NonZero) (hs : h.step op = .ok h') : WF h' := by
  cases op with
  | allocate shape dtype fmt =>
    cases hs
    exact hw.allocate hop
  | free i =>
    unfold Heap.step at hs
    dsimp only at hs
    cases hi : h.objs[i]? with
    | none => rw [hi] at hs; cases hs
    | some o =>
      rw [hi] at hs
      cases hs
      exact hw.free hi
  | refCountUp i =>
    unfold Heap.step at hs
    dsimp only at hs
    cases hi : h.objs[i]? with
    | none => rw [hi] at hs; cases hs
    | some o =>
      rw [hi] at hs
      cases hs
      exact hw.setObj _ hi rfl rfl rfl
  | refCountDown i =>
    unfold Heap.step at hs
    dsimp only at hs
    cases hi : h.objs[i]? with
    | none => rw [hi] at hs; cases hs
    | some o =>
      rw [hi] at hs
      cases hs
      unfold TensorMemoryAllocator.refCountDown
      dsimp only
      split_ifs with hzero
      · -- the count is written first, and then the object is freed
        have hdown := hw.setObj { o with metadata := { o.metadata with refCount := o.metadata.refCount - 1 } } hi
          rfl rfl rfl
        have hi' := List.getElem?_set_self (l := h.objs) (List.getElem?_eq_some_iff.mp hi).1
          (a := { o with metadata := { o.metadata with refCount := o.metadata.refCount - 1 } })
        have hfree := hdown.free hi'
        rwa [List.set_set] at hfree
      · exact hw.setObj _ hi rfl rfl rfl

/-- **Every history of an allocator keeps the representation invariant exactly when its buffer is not empty.** -/
theorem everyState_repInvariant_iff {n : ℕ} {ops : List Op} {t : Heap} (hops : ∀ op ∈ ops, op.NonZero)
    (hrun : Reaches Heap.step (new n) ops t) : EveryState Heap.step RepInvariant (new n) ops ↔ 0 < n := by
  constructor
  · intro he
    have hinit : (new n).RepInvariant := by
      cases ops with
      | nil => exact he
      | cons _ _ => exact he.1
    exact hinit.nonempty ⟨0, n⟩ (List.mem_singleton_self _)
  · intro hn
    have hwf := everyState_of_along (fun s op s' hw hop hs => WF.step hw hop hs) (wf_new hn)
      (along_of_forall (fun _ op hop => hops op hop) _) hrun
    exact hwf.imp fun s hw => hw.repInvariant

/-! ## Histories on concrete inputs -/

/-- A `torch.half` and a `torch.float` tensor; the first is freed twice, and the second by its last reference. -/
theorem everyState_repInvariant_two_objects :
    EveryState Heap.step RepInvariant (new 2048)
      [.allocate [3, 5, 7] ⟨2, by decide⟩ .kvBlob, .allocate [10] ⟨4, by decide⟩ .kvBlob, .free 0, .refCountUp 1,
        .free 0, .refCountDown 1, .refCountDown 1] := by
  have hrun : ∃ t, Reaches Heap.step (new 2048)
      [.allocate [3, 5, 7] ⟨2, by decide⟩ .kvBlob, .allocate [10] ⟨4, by decide⟩ .kvBlob, .free 0, .refCountUp 1,
        .free 0, .refCountDown 1, .refCountDown 1] t ∧ t.allocator.explicitList = [⟨0, 2048⟩] := by decide +kernel
  obtain ⟨t, ht, -⟩ := hrun
  refine (everyState_repInvariant_iff ?_ ht).mpr (by decide)
  simp [Op.NonZero]

/-- An empty buffer starts with an empty free block. -/
theorem empty_buffer_empty_block : ¬ EveryState Heap.step RepInvariant (new 0) [] :=
  fun he => absurd (he.nonempty ⟨0, 0⟩ (List.mem_singleton_self _)) (by decide)

end Heap

end FairCache
