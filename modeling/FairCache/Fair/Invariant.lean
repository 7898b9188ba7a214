import FairCache.Fair.Backend
import FairCache.Fair.Passes

/-!
# What every operation of the fair backend keeps

* `putSections_tooLarge`, `putSections_illegal`, `putSections_legal` : what a put does, by its outcome;
* `WF` : every block is charged a whole chunk, and the slots of the blocks and the free slots are the pool;
* `WF.step` : every operation keeps it.
-/

namespace FairCache.LMCLocalFairBackend

open Lib FairEvictor

variable {md : LMCacheMemPoolMetadata} {K F R : Type} [LinearOrder K] [LinearOrder F] [Field F]

/-! ## Removals -/

theorem lookup_remove (b : LMCLocalFairBackend md K F R) (k j : K) :
    (b.remove k).dict.lookup j = if j = k then none else b.dict.lookup j := by
  unfold remove
  cases h : b.dict.lookup k with
  | none =>
    by_cases hj : j = k
    · rw [if_pos hj, hj, h]
    · rw [if_neg hj]
  | some e =>
    by_cases hj : j = k
    · rw [if_pos hj, hj, AList.lookup_erase]
    · rw [if_neg hj, AList.lookup_erase_ne hj]

@[simp] theorem currentCacheSize_remove (b : LMCLocalFairBackend md K F R) (k : K) :
    (b.remove k).evictor.currentCacheSize = b.evictor.currentCacheSize := by
  unfold remove; split <;> rfl

theorem lookup_foldl_remove (ks : List K) (b : LMCLocalFairBackend md K F R) (j : K) :
    (ks.foldl remove b).dict.lookup j = if j ∈ ks then none else b.dict.lookup j := by
  induction ks generalizing b with
  | nil => simp
  | cons k ks ih =>
    rw [List.foldl_cons, ih, lookup_remove]
    by_cases hk : j = k <;> by_cases hks : j ∈ ks <;> simp [hk, hks]

@[simp] theorem currentCacheSize_foldl_remove (ks : List K) (b : LMCLocalFairBackend md K F R) :
    (ks.foldl remove b).evictor.currentCacheSize = b.evictor.currentCacheSize := by
  induction ks generalizing b with
  | nil => rfl
  | cons k ks ih => rw [List.foldl_cons, ih, currentCacheSize_remove]

theorem size_remove {b : LMCLocalFairBackend md K F R} {k : K} (hk : k ∈ b.dict) :
    (b.remove k).dict.size + 1 = b.dict.size := by
  obtain ⟨e, he⟩ := (Dict.mem_iff_lookup _ _).mp hk
  unfold remove
  rw [he]
  exact Dict.size_erase hk

theorem size_foldl_remove {ks : List K} {b : LMCLocalFairBackend md K F R} (hks : ks.Nodup)
    (hmem : ∀ k ∈ ks, k ∈ b.dict) : (ks.foldl remove b).dict.size + ks.length = b.dict.size := by
  induction ks generalizing b with
  | nil => rfl
  | cons k ks ih =>
    rw [List.nodup_cons] at hks
    have hrest : ∀ j ∈ ks, j ∈ (b.remove k).dict := by
      intro j hj
      have hjk : j ≠ k := fun h => hks.1 (h ▸ hj)
      rw [Dict.mem_iff_lookup, lookup_remove, if_neg hjk, ← Dict.mem_iff_lookup]
      exact hmem j (List.mem_cons_of_mem _ hj)
    have hone := size_remove (hmem k List.mem_cons_self)
    have := ih hks.2 hrest
    rw [List.foldl_cons, List.length_cons]
    omega

omit [Field F] in
@[simp] theorem dict_addCacheSize (b : LMCLocalFairBackend md K F R) (n : ℤ) : (b.addCacheSize n).dict = b.dict := rfl

omit [Field F] in
@[simp] theorem currentCacheSize_addCacheSize (b : LMCLocalFairBackend md K F R) (n : ℤ) :
    (b.addCacheSize n).evictor.currentCacheSize = b.evictor.currentCacheSize + n := rfl

theorem lookup_dropOld (b : LMCLocalFairBackend md K F R) (k j : K) :
    (b.dropOld k).2.dict.lookup j = if j = k then none else b.dict.lookup j := by
  unfold dropOld
  cases h : b.dict.lookup k with
  | none =>
    by_cases hj : j = k
    · rw [if_pos hj, hj, h]
    · rw [if_neg hj]
  | some e => exact lookup_remove b k j

theorem dropOld_of_notMem {b : LMCLocalFairBackend md K F R} {k : K} (h : k ∉ b.dict) : b.dropOld k = (0, b) := by
  unfold dropOld
  rw [AList.lookup_eq_none.mpr h]

theorem dropOld_of_lookup {b : LMCLocalFairBackend md K F R} {k : K} {e : CacheEntry F}
    (h : b.dict.lookup k = some e) : b.dropOld k = (e.kvObj.size, (b.remove k).addCacheSize (-e.kvObj.size)) := by
  unfold dropOld
  rw [h]

/-- What leaves the ledger with the old block is what a refused put gives back. -/
theorem currentCacheSize_dropOld (b : LMCLocalFairBackend md K F R) (k : K) :
    (b.dropOld k).2.evictor.currentCacheSize = b.evictor.currentCacheSize - (b.dropOld k).1 := by
  unfold dropOld
  cases b.dict.lookup k with
  | none => simp
  | some e => simp [sub_eq_add_neg]

/-! ## The outcomes of a put -/

section Put
variable [FloatMath F] {b : LMCLocalFairBackend md K F R} {a : PutArgs K F R}

/-- The victims of a put, chosen once its old block is gone. -/
def victims (b : LMCLocalFairBackend md K F R) (a : PutArgs K F R) :
    FairEvictor md K F × Option ClientId × List K × PutStatus :=
  (b.dropOld a.key).2.evictor.chooseVictims (b.dropOld a.key).2.dict (chunkBytes md a) a.retrievedKeys a.now

theorem victims_of_notMem (h : a.key ∉ b.dict) :
    b.victims a = b.evictor.chooseVictims b.dict (chunkBytes md a) a.retrievedKeys a.now := by
  rw [victims, dropOld_of_notMem h]

/-- The state of a refused put whose evictor ends as `ev`. -/
def refused (b : LMCLocalFairBackend md K F R) (a : PutArgs K F R) (ev : FairEvictor md K F) :
    LMCLocalFairBackend md K F R :=
  addCacheSize { (b.dropOld a.key).2 with evictor := ev } (b.dropOld a.key).1

/-- The state in which an accepted put takes its slot: the victims `ks` are gone and the evictor ended as `ev`. -/
def evicted (b : LMCLocalFairBackend md K F R) (a : PutArgs K F R) (ev : FairEvictor md K F) (ks : List K) :
    LMCLocalFairBackend md K F R :=
  ks.foldl remove
    { (b.dropOld a.key).2 with evictor := { ev with currentCacheSize := ev.currentCacheSize + chunkBytes md a } }

omit [Field F] [FloatMath F] in
theorem addCacheSize_if (b : LMCLocalFairBackend md K F R) (n : ℕ) :
    (if 0 < n then b.addCacheSize n else b) = b.addCacheSize n := by
  split_ifs with h
  · rfl
  · obtain rfl : n = 0 := by omega
    simp [addCacheSize]

theorem putReserve_tooLarge (h : md.maxBytes < chunkBytes md a) :
    b.putReserve a = .ok (none, b.refused a (b.dropOld a.key).2.evictor) := by
  unfold putReserve
  simp only [updateOnPut_tooLarge h, addCacheSize_if]
  rfl

theorem putReserve_illegal (h : chunkBytes md a ≤ md.maxBytes) {ev : FairEvictor md K F} {who : Option ClientId}
    {ks : List K} (hv : b.victims a = (ev, who, ks, .illegal)) : b.putReserve a = .ok (none, b.refused a ev) := by
  unfold putReserve
  simp only [updateOnPut_illegal h hv, addCacheSize_if]
  rfl

theorem putReserve_legal (h : chunkBytes md a ≤ md.maxBytes) {ev : FairEvictor md K F} {who : Option ClientId}
    {ks : List K} (hv : b.victims a = (ev, who, ks, .legal)) :
    b.putReserve a = match (b.evicted a ev ks).mpool.allocate a.kvChunk with
      | .error e => .error e
      | .ok (o, p) => .ok (some o, { b.evicted a ev ks with mpool := p }) := by
  unfold putReserve
  simp only [updateOnPut_legal h hv]
  rfl

theorem putSections_tooLarge (h : md.maxBytes < chunkBytes md a) :
    b.putSections a = .ok (b.refused a (b.dropOld a.key).2.evictor) := by
  rw [putSections, putReserve_tooLarge h]

theorem putSections_illegal (h : chunkBytes md a ≤ md.maxBytes) {ev : FairEvictor md K F} {who : Option ClientId}
    {ks : List K} (hv : b.victims a = (ev, who, ks, .illegal)) : b.putSections a = .ok (b.refused a ev) := by
  rw [putSections, putReserve_illegal h hv]

theorem putSections_legal (h : chunkBytes md a ≤ md.maxBytes) {ev : FairEvictor md K F} {who : Option ClientId}
    {ks : List K} (hv : b.victims a = (ev, who, ks, .legal)) :
    b.putSections a = match (b.evicted a ev ks).mpool.allocate a.kvChunk with
      | .error e => .error e
      | .ok (o, p) => .ok (putInsert { b.evicted a ev ks with mpool := p } a o) := by
  rw [putSections, putReserve_legal h hv]
  cases (b.evicted a ev ks).mpool.allocate a.kvChunk <;> rfl

/-- What a put that returns does. -/
theorem putSections_cases {b' : LMCLocalFairBackend md K F R} (h : b.putSections a = .ok b') :
    (∃ ev : FairEvictor md K F, b' = b.refused a ev) ∨
    (∃ (ev : FairEvictor md K F) (who : Option ClientId) (ks : List K) (o : KVObj) (p : LocalPool md R),
      chunkBytes md a ≤ md.maxBytes ∧ b.victims a = (ev, who, ks, .legal) ∧
      (b.evicted a ev ks).mpool.allocate a.kvChunk = .ok (o, p) ∧
      b' = putInsert { b.evicted a ev ks with mpool := p } a o) := by
  by_cases hbig : md.maxBytes < chunkBytes md a
  · rw [putSections_tooLarge hbig] at h
    exact Or.inl ⟨_, (Except.ok.inj h).symm⟩
  · have hle := not_lt.mp hbig
    cases hv : b.victims a with
    | mk ev rest =>
      obtain ⟨who, ks, st⟩ := rest
      cases st with
      | illegal =>
        rw [putSections_illegal hle hv] at h
        exact Or.inl ⟨_, (Except.ok.inj h).symm⟩
      | legal =>
        rw [putSections_legal hle hv] at h
        cases ha : (b.evicted a ev ks).mpool.allocate a.kvChunk with
        | error e => rw [ha] at h; cases h
        | ok op =>
          obtain ⟨o, p⟩ := op
          rw [ha] at h
          exact Or.inr ⟨ev, who, ks, o, p, hle, rfl, ha, (Except.ok.inj h).symm⟩

end Put

/-- What every recorded access keeps, `update_after_get` keeps. -/
theorem updateAfterGet_rule [FloatMath F] {P : LMCLocalFairBackend md K F R → Prop} {ctx : Option ClientId}
    {ks : List K} {clock : ℕ → F}
    (hstep : ∀ b k c now, activeClient ctx = some c → k ∈ ks → P b → P (b.updateOnGet k c now))
    {b : LMCLocalFairBackend md K F R} (h : P b) : P (b.updateAfterGet ctx ks clock) := by
  unfold updateAfterGet
  cases hc : activeClient ctx with
  | none => exact h
  | some c =>
    refine List.foldlRecOn _ _ h fun b hb op hop => ?_
    have hk : op.1 ∈ ks.reverse := by
      have := List.mem_map_of_mem (f := Prod.fst) hop
      rwa [List.zipIdx_map_fst] at this
    exact hstep b op.1 c _ hc (List.mem_reverse.mp hk) hb

/-- An access changes no key. -/
@[simp] theorem mem_updateOnGet [FloatMath F] (b : LMCLocalFairBackend md K F R) (key : K) (c : ClientId) (now : F) (k : K) :
    k ∈ (b.updateOnGet key c now).dict ↔ k ∈ b.dict := by
  unfold updateOnGet FairEvictor.updateOnGet
  cases hkey : b.dict.lookup key with
  | none => exact Iff.rfl
  | some e =>
    refine (Dict.mem_set _ _ _ _).trans (or_iff_right_of_imp ?_)
    rintro rfl
    exact Dict.mem_of_lookup hkey

theorem mem_updateAfterGet [FloatMath F] (b : LMCLocalFairBackend md K F R) (ctx : Option ClientId) (ks : List K)
    (clock : ℕ → F) (k : K) : k ∈ (b.updateAfterGet ctx ks clock).dict ↔ k ∈ b.dict :=
  updateAfterGet_rule (P := fun b' => k ∈ b'.dict ↔ k ∈ b.dict)
    (fun b' j c now _ _ h => (mem_updateOnGet b' j c now k).trans h) Iff.rfl

/-! ## Slots -/

/-- The slots of the resident blocks. -/
def slots (b : LMCLocalFairBackend md K F R) : List ℕ := b.dict.entries.map (·.2.kvObj.chunkIdx)

/-- The slots of the blocks and the free slots. -/
def pool (b : LMCLocalFairBackend md K F R) : List ℕ := b.slots ++ b.mpool.freePool

/-- A removal moves the block's slot to the free slots. -/
theorem pool_remove (b : LMCLocalFairBackend md K F R) (k : K) : (b.remove k).pool.Perm b.pool := by
  unfold remove
  cases hk : b.dict.lookup k with
  | none => exact List.Perm.refl _
  | some e =>
    have hperm := (Dict.entries_perm_erase hk).map fun e => e.2.kvObj.chunkIdx
    refine List.Perm.trans ?_ (hperm.symm.append_right _)
    simp only [pool, slots, LocalPool.free, List.map_cons, List.cons_append, ← List.append_assoc]
    exact List.perm_append_singleton _ _

theorem pool_foldl_remove (ks : List K) (b : LMCLocalFairBackend md K F R) : (ks.foldl remove b).pool.Perm b.pool := by
  induction ks generalizing b with
  | nil => exact List.Perm.refl _
  | cons k ks ih => exact (ih (b.remove k)).trans (pool_remove b k)

theorem pool_dropOld (b : LMCLocalFairBackend md K F R) (k : K) : (b.dropOld k).2.pool.Perm b.pool := by
  unfold dropOld
  cases b.dict.lookup k with
  | none => exact List.Perm.refl _
  | some e => exact pool_remove b k

theorem pool_evicted [FloatMath F] (b : LMCLocalFairBackend md K F R) (a : PutArgs K F R) (ev : FairEvictor md K F)
    (ks : List K) : (b.evicted a ev ks).pool.Perm b.pool := (pool_foldl_remove ks _).trans (pool_dropOld b a.key)

theorem pool_updateOnGet [FloatMath F] (b : LMCLocalFairBackend md K F R) (k : K) (c : ClientId) (now : F) :
    (b.updateOnGet k c now).pool.Perm b.pool := by
  unfold updateOnGet FairEvictor.updateOnGet
  cases hk : b.dict.lookup k with
  | none => exact List.Perm.refl _
  | some e =>
    have hset := (Dict.set_perm b.dict k (e.updateAccessTime c now).updateValue).map fun e => e.2.kvObj.chunkIdx
    have hold := (Dict.entries_perm_erase hk).map fun e => e.2.kvObj.chunkIdx
    exact (hset.trans hold.symm).append_right _

/-- The slot `o` becomes the new block's, if its key is not there. -/
theorem slots_putInsert [FloatMath F] {b : LMCLocalFairBackend md K F R} {a : PutArgs K F R} (h : a.key ∉ b.dict)
    (o : KVObj) : (b.putInsert a o).slots.Perm (o.chunkIdx :: b.slots) := by
  have hperm := (Dict.set_perm b.dict a.key
    (b.evictor.registerNewCache a.key
      { kvObj := o, lastAccessTime := a.storedAt, accessMap := ∅, lambdaVal := a.lambdaVal, value := 0 }
      a.clientId a.storedAt).2).map fun e => e.2.kvObj.chunkIdx
  rw [Dict.erase_of_notMem h] at hperm
  exact hperm

/-- Every block is charged a whole chunk, and the slots of the blocks and the free slots make up the pool. -/
structure WF (b : LMCLocalFairBackend md K F R) : Prop where
  size : ∀ k e, b.dict.lookup k = some e → e.kvObj.size = md.sizePerChunk
  slots : (b.slots ++ b.mpool.freePool).Perm (List.range md.maxChunkNum)

omit [Field F] in
theorem wf_new : (new md K F R).WF :=
  ⟨fun _ _ h => (by cases h), List.Perm.refl _⟩

namespace WF

variable {b : LMCLocalFairBackend md K F R}

omit [Field F] in
/-- The free slots are what the blocks leave of the pool. -/
theorem length_freePool (h : b.WF) : b.dict.size + b.mpool.freePool.length = md.maxChunkNum := by
  have := h.slots.length_eq
  simpa [LMCLocalFairBackend.slots, Dict.size] using this

omit [Field F] in
theorem congr {b' : LMCLocalFairBackend md K F R} (h : b.WF) (hd : b'.dict = b.dict) (hp : b'.mpool = b.mpool) :
    b'.WF := by
  obtain ⟨hsize, hslots⟩ := h
  refine ⟨by rwa [hd], ?_⟩
  rwa [LMCLocalFairBackend.slots, hd, hp]

theorem remove (h : b.WF) (k : K) : (b.remove k).WF := by
  refine ⟨fun j e hj => ?_, ?_⟩
  · rw [lookup_remove] at hj
    split_ifs at hj
    exact h.size j e hj
  · exact (pool_remove b k).trans h.slots

theorem foldl_remove (ks : List K) (h : b.WF) : (ks.foldl LMCLocalFairBackend.remove b).WF := by
  induction ks generalizing b with
  | nil => exact h
  | cons k ks ih => exact ih (h.remove k)

theorem dropOld (h : b.WF) (k : K) : (b.dropOld k).2.WF := by
  unfold LMCLocalFairBackend.dropOld
  cases b.dict.lookup k with
  | none => exact h
  | some e => exact (h.remove k).congr rfl rfl

theorem refused (h : b.WF) (a : PutArgs K F R) (ev : FairEvictor md K F) : (b.refused a ev).WF :=
  (h.dropOld a.key).congr rfl rfl

theorem evicted (h : b.WF) (a : PutArgs K F R) (ev : FairEvictor md K F) (ks : List K) : (b.evicted a ev ks).WF :=
  foldl_remove ks ((h.dropOld a.key).congr rfl rfl)

variable [FloatMath F] {a : PutArgs K F R}

/-- The slot that `allocate` took becomes the new block's. -/
theorem putInsert (h : b.WF) (hkey : a.key ∉ b.dict) {o : KVObj} {p : LocalPool md R}
    (ha : b.mpool.allocate a.kvChunk = .ok (o, p)) : (putInsert { b with mpool := p } a o).WF := by
  obtain ⟨-, hsize, -, hfree, -⟩ := LocalPool.allocate_ok ha
  refine ⟨?_, ?_⟩
  · exact Dict.forall_lookup_set hsize fun j e _ hj => h.size j e hj
  · refine ((slots_putInsert (b := { b with mpool := p }) hkey o).append_right _).trans (List.Perm.trans ?_ h.slots)
    rw [hfree, ← List.append_assoc]
    exact (List.perm_append_singleton _ _).symm

theorem updateOnGet (h : b.WF) (k : K) (c : ClientId) (now : F) : (b.updateOnGet k c now).WF := by
  refine ⟨?_, (pool_updateOnGet b k c now).trans h.slots⟩
  unfold LMCLocalFairBackend.updateOnGet FairEvictor.updateOnGet
  cases hk : b.dict.lookup k with
  | none => exact h.size
  | some e => exact Dict.forall_lookup_set (h.size k e hk) fun j e _ hj => h.size j e hj

theorem updateAfterGet (h : b.WF) (c : Option ClientId) (ks : List K) (clock : ℕ → F) :
    (b.updateAfterGet c ks clock).WF := updateAfterGet_rule (fun _ k c now _ _ h => h.updateOnGet k c now) h

end WF

theorem size_updateOnGet [FloatMath F] (b : LMCLocalFairBackend md K F R) (k : K) (c : ClientId) (now : F) :
    (b.updateOnGet k c now).evictor.currentCacheSize = b.evictor.currentCacheSize ∧
      (b.updateOnGet k c now).dict.size = b.dict.size := by
  unfold LMCLocalFairBackend.updateOnGet FairEvictor.updateOnGet
  cases hk : b.dict.lookup k with
  | none => exact ⟨rfl, rfl⟩
  | some e => exact ⟨currentCacheSize_recordValue .., Dict.size_set_of_mem _ (Dict.mem_of_lookup hk)⟩

/-- The key of an accepted put is not resident when its slot is taken. -/
theorem notMem_evicted [FloatMath F] (b : LMCLocalFairBackend md K F R) (a : PutArgs K F R) (ev : FairEvictor md K F)
    (ks : List K) : a.key ∉ (b.evicted a ev ks).dict := by
  rw [← AList.lookup_eq_none, evicted, lookup_foldl_remove]
  split_ifs
  · rfl
  · exact (lookup_dropOld b a.key a.key).trans (if_pos rfl)

@[simp] theorem currentCacheSize_evicted [FloatMath F] (b : LMCLocalFairBackend md K F R) (a : PutArgs K F R)
    (ev : FairEvictor md K F) (ks : List K) :
    (b.evicted a ev ks).evictor.currentCacheSize = ev.currentCacheSize + chunkBytes md a := by
  rw [evicted, currentCacheSize_foldl_remove]

@[simp] theorem currentCacheSize_putInsert [FloatMath F] (b : LMCLocalFairBackend md K F R) (a : PutArgs K F R)
    (o : KVObj) : (b.putInsert a o).evictor.currentCacheSize = b.evictor.currentCacheSize :=
  currentCacheSize_recordValue ..

theorem size_putInsert [FloatMath F] {b : LMCLocalFairBackend md K F R} {a : PutArgs K F R} (h : a.key ∉ b.dict)
    (o : KVObj) (p : LocalPool md R) : (putInsert { b with mpool := p } a o).dict.size = b.dict.size + 1 :=
  Dict.size_set_of_notMem _ h

theorem WF.putSections [FloatMath F] {b b' : LMCLocalFairBackend md K F R} {a : PutArgs K F R} (h : b.WF)
    (hput : b.putSections a = .ok b') : b'.WF := by
  rcases putSections_cases hput with ⟨ev, rfl⟩ | ⟨ev, who, ks, o, p, -, -, ha, rfl⟩
  · exact h.refused a ev
  · exact (h.evicted a ev ks).putInsert (notMem_evicted b a ev ks) ha

/-- **Every operation keeps the slots.** -/
theorem WF.step [FloatMath F] {b b' : LMCLocalFairBackend md K F R} {op : Op K F R} (h : b.WF)
    (hstep : b.step op = .ok b') : b'.WF := by
  cases op with
  | putBlocking a => exact h.putSections hstep
  | putNonblocking a => exact h.putSections hstep
  | get c k => exact Except.ok.inj hstep ▸ h
  | updateAfterGet c ks clock => exact Except.ok.inj hstep ▸ h.updateAfterGet c ks clock

end FairCache.LMCLocalFairBackend
