import FairCache.Fair.Invariant

/-!
# What the fair backend holds

Seen from outside the backend is a map from keys to rows that forgets: `Holds m b` says that every resident block
has the rows that `m` has under its key. A put writes the map, a removal and an access leave it alone, so what is
resident is what was put there last.
-/

namespace FairCache.LMCLocalFairBackend

open Lib

variable {md : LMCacheMemPoolMetadata} {K F R : Type} [LinearOrder K] [LinearOrder F]

/-- Every resident block has the rows that `m` has under its key. -/
structure Holds (m : K → Option (List R)) (b : LMCLocalFairBackend md K F R) : Prop where
  wf : b.WF
  rows : ∀ k e, b.dict.lookup k = some e → m k = some (b.mpool.data e.kvObj)

variable {m : K → Option (List R)} {b : LMCLocalFairBackend md K F R}

theorem holds_new (m : K → Option (List R)) : (new md K F R).Holds m := ⟨wf_new, fun _ _ h => by cases h⟩

/-! ## The pool's buffers -/

/-- The slot that `allocate` takes is no resident block's. -/
theorem WF.chunkIdx_ne {o : KVObj} {p : LocalPool md R} {c : List R} (h : b.WF)
    (ha : b.mpool.allocate c = .ok (o, p)) {k : K} {e : CacheEntry F} (hk : b.dict.lookup k = some e) :
    e.kvObj.chunkIdx ≠ o.chunkIdx := by
  obtain ⟨-, -, -, hfree, -⟩ := LocalPool.allocate_ok ha
  have hnodup : (b.slots ++ b.mpool.freePool).Nodup := h.slots.nodup_iff.mpr List.nodup_range
  have hslot : e.kvObj.chunkIdx ∈ b.slots :=
    List.mem_map_of_mem (f := fun e => e.2.kvObj.chunkIdx) ((Dict.lookup_eq_some_iff _ _ _).mp hk)
  have hpool : o.chunkIdx ∈ b.mpool.freePool := by simp [hfree]
  exact fun heq => List.disjoint_of_nodup_append hnodup hslot (heq ▸ hpool)

variable [Field F]

@[simp] theorem memPool_remove (b : LMCLocalFairBackend md K F R) (k : K) :
    (b.remove k).mpool.memPool = b.mpool.memPool := by
  unfold remove; split <;> rfl

theorem memPool_foldl_remove (ks : List K) (b : LMCLocalFairBackend md K F R) :
    (ks.foldl remove b).mpool.memPool = b.mpool.memPool := by
  induction ks generalizing b with
  | nil => rfl
  | cons k ks ih => rw [List.foldl_cons, ih, memPool_remove]

theorem memPool_dropOld (b : LMCLocalFairBackend md K F R) (k : K) :
    (b.dropOld k).2.mpool.memPool = b.mpool.memPool := by
  unfold dropOld
  cases b.dict.lookup k with
  | none => rfl
  | some e => exact memPool_remove b k

/-! ## Operations -/

namespace Holds

omit [Field F] in
/-- What only loses blocks holds what it held. -/
theorem mono (h : b.Holds m) {b' : LMCLocalFairBackend md K F R} (hwf : b'.WF)
    (hdict : ∀ k e, b'.dict.lookup k = some e → b.dict.lookup k = some e)
    (hpool : b'.mpool.memPool = b.mpool.memPool) : b'.Holds m := by
  refine ⟨hwf, fun k e hk => ?_⟩
  rw [h.rows k e (hdict k e hk), LocalPool.data, LocalPool.data, hpool]

theorem remove (h : b.Holds m) (k : K) : (b.remove k).Holds m := by
  refine h.mono (h.wf.remove k) (fun j e hj => ?_) (memPool_remove b k)
  rw [lookup_remove] at hj
  split_ifs at hj
  exact hj

theorem dropOld (h : b.Holds m) (k : K) : (b.dropOld k).2.Holds m := by
  refine h.mono (h.wf.dropOld k) (fun j e hj => ?_) (memPool_dropOld b k)
  rw [lookup_dropOld] at hj
  split_ifs at hj
  exact hj

omit [Field F] in
/-- The map may be written at a key that is not resident. -/
theorem update (h : b.Holds m) {k : K} (hk : b.dict.lookup k = none) (c : Option (List R)) :
    b.Holds (Function.update m k c) := by
  refine ⟨h.wf, fun j e hj => ?_⟩
  have hne : j ≠ k := fun heq => by rw [heq, hk] at hj; cases hj
  rw [Function.update_of_ne hne]
  exact h.rows j e hj

section
variable [FloatMath F] {a : PutArgs K F R}

theorem updateOnGet (h : b.Holds m) (k : K) (c : ClientId) (now : F) : (b.updateOnGet k c now).Holds m := by
  refine ⟨h.wf.updateOnGet k c now, fun j e hj => ?_⟩
  unfold LMCLocalFairBackend.updateOnGet FairEvictor.updateOnGet at hj ⊢
  cases hk : b.dict.lookup k with
  | none => rw [hk] at hj; exact h.rows j e hj
  | some old =>
    simp only [hk, Dict.lookup_set] at hj ⊢
    split_ifs at hj with hjk
    · cases hj
      exact hjk ▸ h.rows k old hk
    · exact h.rows j e hj

/-- An access leaves the rows alone. -/
theorem updateAfterGet (h : b.Holds m) (c : Option ClientId) (ks : List K) (clock : ℕ → F) :
    (b.updateAfterGet c ks clock).Holds m := updateAfterGet_rule (fun _ k c now _ _ h => h.updateOnGet k c now) h

/-- The rows that `putInsert` copies are the new block's; the others' stay. -/
theorem putInsert (h : b.Holds m) (hkey : a.key ∉ b.dict) {o : KVObj} {p : LocalPool md R}
    (ha : b.mpool.allocate a.kvChunk = .ok (o, p)) :
    (LMCLocalFairBackend.putInsert { b with mpool := p } a o).Holds (Function.update m a.key (some a.kvChunk)) := by
  obtain ⟨-, -, hnum, -, hpool⟩ := LocalPool.allocate_ok ha
  refine ⟨h.wf.putInsert hkey ha, Dict.forall_lookup_set ?_ fun j e hj he => ?_⟩
  · rw [Function.update_self]
    exact congrArg some (LocalPool.data_copy_self p hnum).symm
  · rw [Function.update_of_ne hj, h.rows j e he]
    refine congrArg some ?_
    change _ = (p.copy o a.kvChunk).data e.kvObj
    rw [LocalPool.data_copy_ne p a.kvChunk (h.wf.chunkIdx_ne ha he), LocalPool.data, LocalPool.data, hpool]

/-- **A put writes the map.** A refused one leaves no block under its key. -/
theorem putSections (h : b.Holds m) {b' : LMCLocalFairBackend md K F R} (hput : b.putSections a = .ok b') :
    b'.Holds (Function.update m a.key (some a.kvChunk)) := by
  have hgone : (b.dropOld a.key).2.dict.lookup a.key = none := (lookup_dropOld b a.key a.key).trans (if_pos rfl)
  rcases putSections_cases hput with ⟨ev, rfl⟩ | ⟨ev, who, ks, o, p, -, -, ha, rfl⟩
  · exact ((h.dropOld a.key).update hgone _).mono (h.wf.refused a ev) (fun _ _ hj => hj) rfl
  · refine Holds.putInsert ?_ (notMem_evicted b a ev ks) ha
    refine (h.dropOld a.key).mono (h.wf.evicted a ev ks) (fun j e hj => ?_) (memPool_foldl_remove ks _)
    rw [LMCLocalFairBackend.evicted, lookup_foldl_remove] at hj
    split_ifs at hj
    exact hj

theorem put (h : b.Holds m) {b' : LMCLocalFairBackend md K F R} {ctx : Option ClientId} {c : ClientId}
    (hc : activeClient ctx = some c) {req : Option String} {k : K} {rows : List R} {blocking : Bool} {r : List K}
    {lambda : Option F} {now storedAt : F} (hput : b.put ctx req k rows blocking r lambda now storedAt = .ok b') :
    b'.Holds (Function.update m k (some rows)) := by
  unfold LMCLocalFairBackend.put at hput
  rw [hc] at hput
  cases blocking with
  | true => exact h.putSections hput
  | false => exact h.putSections hput

end

omit [Field F] in
/-- **What `get` answers is what the map has.** -/
theorem get_eq (h : b.Holds m) {ctx : Option ClientId} {k : K} {rows : List R} (hget : b.get ctx k = some rows) :
    m k = some rows := by
  unfold LMCLocalFairBackend.get at hget
  cases hc : activeClient ctx with
  | none => rw [hc] at hget; cases hget
  | some c =>
    rw [hc] at hget
    obtain ⟨e, he, rfl⟩ := Option.map_eq_some_iff.mp hget
    exact h.rows k e he

end Holds

end FairCache.LMCLocalFairBackend
