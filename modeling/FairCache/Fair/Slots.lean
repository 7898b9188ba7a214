import FairCache.Fair.Ledger

/-!
# The slots under interleaved puts

A put drops `update_lock` between the section in which it takes its slot and the section in which it inserts its entry.
The worker puts, the caller puts and reads, and their sections interleave.

* `Threads` : the backend and the puts between their two sections; `enter` : one section, whole;
* `Partitioned` : each slot is free once, or one block's, or one such put's;
* `partitioned_reserve`, `partitioned_insert_iff` : the first section keeps that, the second if it overwrites nothing;
* `everyState_partitioned_iff` : what a schedule has to meet.
-/

namespace FairCache.LMCLocalFairBackend

open Lib FairEvictor

variable {md : LMCacheMemPoolMetadata} {K F R : Type} [LinearOrder K] [LinearOrder F]

/-- The worker executes the puts that do not block, the caller everything else. -/
inductive Thread
  | worker
  | caller
  deriving DecidableEq

/-- The threads between two sections. -/
structure Threads (md : LMCacheMemPoolMetadata) (K F R : Type) [LinearOrder K] [LinearOrder F] where
  backend : LMCLocalFairBackend md K F R
  /-- The put of a thread that took its slot and did not insert its entry. -/
  reserved : Thread → Option (PutArgs K F R × KVObj)
  /-- An exception left a section without its release. -/
  lockHeld : Bool

/-- A fresh backend. -/
def Threads.new (md : LMCacheMemPoolMetadata) (K F R : Type) [LinearOrder K] [LinearOrder F] : Threads md K F R :=
  { backend := LMCLocalFairBackend.new md K F R, reserved := fun _ => none, lockHeld := false }

/-- What a thread does under `update_lock`. -/
inductive LockedSection (K F R : Type)
  | reserve (t : Thread) (a : PutArgs K F R)
  | insert (t : Thread)
  | get (clientIdCtx : Option ClientId) (key : K)
  | updateAfterGet (clientIdCtx : Option ClientId) (retrievedKeys : List K) (clock : ℕ → F)

namespace Threads

variable [Field F] [FloatMath F]

/-- The first section of a put. Where it raises, its victims are gone and the lock stays held. -/
def reserve (s : Threads md K F R) (t : Thread) (a : PutArgs K F R) : Threads md K F R :=
  match s.backend.putReserve a with
  | .error _ =>
    { s with backend := s.backend.evicted a (s.backend.victims a).1 (s.backend.victims a).2.2.1, lockHeld := true }
  | .ok (none, b) => { s with backend := b }
  | .ok (some kvObj, b) => { s with backend := b, reserved := Function.update s.reserved t (some (a, kvObj)) }

/-- A section, if its thread is there and the lock is free. -/
def enter (s : Threads md K F R) (l : LockedSection K F R) : Except Unit (Threads md K F R) :=
  if s.lockHeld then .error ()
  else
    match l with
    | .reserve t a => if (s.reserved t).isSome then .error () else .ok (s.reserve t a)
    | .insert t =>
      match s.reserved t with
      | none => .error ()
      | some (a, kvObj) =>
        .ok { s with backend := s.backend.putInsert a kvObj, reserved := Function.update s.reserved t none }
    | .get _ _ => if (s.reserved .caller).isSome then .error () else .ok s
    | .updateAfterGet clientIdCtx retrievedKeys clock =>
      if (s.reserved .caller).isSome then .error ()
      else .ok { s with backend := s.backend.updateAfterGet clientIdCtx retrievedKeys clock }

end Threads

/-! ## Where the slots are -/

/-- The slots of the puts between their sections. -/
def inFlight (reserved : Thread → Option (PutArgs K F R × KVObj)) : List ℕ :=
  [Thread.worker, Thread.caller].filterMap fun t => (reserved t).map fun x => x.2.chunkIdx

/-- **Each slot is in one place**: it is free, or a block's, or taken by a put that has not inserted its entry. -/
def Partitioned (s : Threads md K F R) : Prop :=
  (s.backend.slots ++ inFlight s.reserved ++ s.backend.mpool.freePool).Perm (List.range md.maxChunkNum)

instance (s : Threads md K F R) : Decidable (Partitioned s) := inferInstanceAs (Decidable (List.Perm _ _))

omit [LinearOrder K] [LinearOrder F] in
theorem inFlight_take {reserved : Thread → Option (PutArgs K F R × KVObj)} {t : Thread} (h : reserved t = none)
    (a : PutArgs K F R) (o : KVObj) :
    (inFlight (Function.update reserved t (some (a, o)))).Perm (o.chunkIdx :: inFlight reserved) := by
  cases t with
  | worker =>
    unfold inFlight
    simp only [List.filterMap_cons, List.filterMap_nil, h, Function.update_self, ne_eq, reduceCtorEq,
      not_false_eq_true, Function.update_of_ne, Option.map_some, Option.map_none]
    cases reserved .caller with
    | none => exact List.Perm.refl _
    | some x => exact List.Perm.refl _
  | caller =>
    unfold inFlight
    simp only [List.filterMap_cons, List.filterMap_nil, h, Function.update_self, ne_eq, reduceCtorEq,
      not_false_eq_true, Function.update_of_ne, Option.map_some, Option.map_none]
    cases reserved .worker with
    | none => exact List.Perm.refl _
    | some x => exact List.Perm.swap _ _ _

omit [LinearOrder K] [LinearOrder F] in
theorem inFlight_drop {reserved : Thread → Option (PutArgs K F R × KVObj)} {t : Thread} {a : PutArgs K F R} {o : KVObj}
    (h : reserved t = some (a, o)) :
    (inFlight reserved).Perm (o.chunkIdx :: inFlight (Function.update reserved t none)) := by
  have htake := inFlight_take (Function.update_self t none reserved) a o
  rwa [Function.update_idem, ← h, Function.update_eq_self] at htake

/-- The blocks and the free slots of `b'` are those of `b`. -/
theorem perm_of_pool {b b' : LMCLocalFairBackend md K F R} (h : b'.pool.Perm b.pool) (l : List ℕ) :
    (b'.slots ++ l ++ b'.mpool.freePool).Perm (b.slots ++ l ++ b.mpool.freePool) := by
  have hmove : ∀ c : LMCLocalFairBackend md K F R, (c.slots ++ l ++ c.mpool.freePool).Perm (c.pool ++ l) := by
    intro c
    rw [pool, List.append_assoc, List.append_assoc]
    exact List.perm_append_comm.append_left _
  exact (hmove b').trans ((h.append_right l).trans (hmove b).symm)

theorem partitioned_new : Partitioned (Threads.new md K F R) := List.Perm.refl _

variable [Field F] [FloatMath F] {s s' : Threads md K F R}

/-- **The first section of a put keeps the slots.** -/
theorem partitioned_reserve (h : Partitioned s) {t : Thread} (ht : s.reserved t = none) (a : PutArgs K F R) :
    Partitioned (s.reserve t a) := by
  have hpool : ∀ ev ks, (s.backend.evicted a ev ks).pool.Perm s.backend.pool := fun ev ks =>
    pool_evicted s.backend a ev ks
  have hrefused : ∀ ev, (s.backend.refused a ev).pool.Perm s.backend.pool := fun ev => pool_dropOld s.backend a.key
  unfold Threads.reserve
  by_cases hbig : md.maxBytes < chunkBytes md a
  · rw [putReserve_tooLarge hbig]
    exact (perm_of_pool (hrefused _) _).trans h
  · cases hv : s.backend.victims a with
    | mk ev rest =>
      obtain ⟨who, ks, st⟩ := rest
      cases st with
      | illegal =>
        rw [putReserve_illegal (not_lt.mp hbig) hv]
        exact (perm_of_pool (hrefused ev) _).trans h
      | legal =>
        rw [putReserve_legal (not_lt.mp hbig) hv]
        have hevicted := (perm_of_pool (hpool ev ks) (inFlight s.reserved)).trans h
        cases ha : (s.backend.evicted a ev ks).mpool.allocate a.kvChunk with
        | error e => exact hevicted
        | ok op =>
          obtain ⟨o, p⟩ := op
          obtain ⟨-, -, -, hfree, -⟩ := LocalPool.allocate_ok ha
          rw [hfree] at hevicted
          -- the top free slot is now in flight
          refine List.Perm.trans ?_ hevicted
          have hslots : (s.backend.evicted a ev ks).slots =
              slots { s.backend.evicted a ev ks with mpool := p } := rfl
          show ((slots { s.backend.evicted a ev ks with mpool := p }) ++ inFlight _ ++ p.freePool).Perm _
          rw [← hslots, List.append_assoc, List.append_assoc]
          refine List.Perm.append_left _ ?_
          refine ((inFlight_take ht a o).append_right _).trans ?_
          rw [← List.append_assoc]
          exact (List.perm_append_singleton _ _).symm

/-- **The second section keeps them exactly when it overwrites no entry.** -/
theorem partitioned_insert_iff (h : Partitioned s) {t : Thread} {a : PutArgs K F R} {o : KVObj}
    (ht : s.reserved t = some (a, o)) :
    Partitioned { s with backend := s.backend.putInsert a o, reserved := Function.update s.reserved t none } ↔
      a.key ∉ s.backend.dict := by
  have hdrop := inFlight_drop ht
  constructor
  · intro h' hmem
    -- one slot is missing: the entry's that was overwritten
    have hlen := h.length_eq.trans h'.length_eq.symm
    have hsize : (s.backend.putInsert a o).slots.length = s.backend.slots.length := by
      have hset : (s.backend.putInsert a o).dict.size = s.backend.dict.size := Dict.size_set_of_mem _ hmem
      simpa [slots, Dict.size] using hset
    have hfree : (s.backend.putInsert a o).mpool.freePool = s.backend.mpool.freePool := rfl
    simp only [List.length_append, hsize, hfree, hdrop.length_eq, List.length_cons] at hlen
    omega
  · intro hkey
    refine List.Perm.trans ?_ h
    show ((s.backend.putInsert a o).slots ++ inFlight _ ++ s.backend.mpool.freePool).Perm _
    refine List.Perm.append_right _ ?_
    refine ((slots_putInsert hkey o).append_right _).trans ?_
    refine List.Perm.trans ?_ (hdrop.append_left _).symm
    exact List.perm_middle.symm

/-! ## Schedules -/

/-- What a section has to meet: an entry is not inserted over another. -/
def InsertsFresh (s : Threads md K F R) : LockedSection K F R → Prop
  | .reserve _ _ => True
  | .insert t => ∀ x, s.reserved t = some x → x.1.key ∉ s.backend.dict
  | .get _ _ => True
  | .updateAfterGet _ _ _ => True

instance (s : Threads md K F R) : ∀ l, Decidable (InsertsFresh s l)
  | .reserve _ _ => .isTrue trivial
  | .insert t =>
    match h : s.reserved t with
    | none => .isTrue fun _ hx => by rw [h] at hx; cases hx
    | some x =>
      decidable_of_iff (x.1.key ∉ s.backend.dict)
        ⟨fun hk _ hy => Option.some.inj (h.symm.trans hy) ▸ hk, fun hk => hk x h⟩
  | .get _ _ => .isTrue trivial
  | .updateAfterGet _ _ _ => .isTrue trivial

theorem insertsFresh_iff {l : LockedSection K F R} (h : Partitioned s) (hs : s.enter l = .ok s') :
    InsertsFresh s l ↔ Partitioned s' := by
  unfold Threads.enter at hs
  have hheld : ¬ s.lockHeld := by
    intro hheld
    rw [if_pos hheld] at hs
    cases hs
  rw [if_neg hheld] at hs
  cases l with
  | reserve t a =>
    dsimp only at hs
    split_ifs at hs with hbusy
    cases hs
    exact ⟨fun _ => partitioned_reserve h (Option.not_isSome_iff_eq_none.mp hbusy) a, fun _ => trivial⟩
  | insert t =>
    dsimp only at hs
    cases ht : s.reserved t with
    | none => rw [ht] at hs; cases hs
    | some x =>
      obtain ⟨a, o⟩ := x
      rw [ht] at hs
      cases hs
      rw [partitioned_insert_iff h ht]
      unfold InsertsFresh
      simp [ht]
  | get c k =>
    dsimp only at hs
    split_ifs at hs with hbusy
    cases hs
    exact ⟨fun _ => h, fun _ => trivial⟩
  | updateAfterGet c ks clock =>
    dsimp only at hs
    split_ifs at hs with hbusy
    cases hs
    refine ⟨fun _ => ?_, fun _ => trivial⟩
    have hpool : (s.backend.updateAfterGet c ks clock).pool.Perm s.backend.pool :=
      updateAfterGet_rule (P := fun b => b.pool.Perm s.backend.pool)
        (fun b k c now _ _ hb => (pool_updateOnGet b k c now).trans hb) (List.Perm.refl _)
    exact (perm_of_pool hpool _).trans h

/-- **In every state of an interleaving each slot is in one place exactly when no put inserts its entry over another
that came between its sections.** -/
theorem everyState_partitioned_iff {schedule : List (LockedSection K F R)} {t : Threads md K F R}
    (hrun : Reaches Threads.enter (.new md K F R) schedule t) :
    EveryState Threads.enter Partitioned (.new md K F R) schedule ↔
      Along Threads.enter InsertsFresh (.new md K F R) schedule :=
  (along_iff_everyState_of_reaches (fun _ h => h)
    (fun _ _ _ h hs => ⟨insertsFresh_iff h hs, (insertsFresh_iff h hs).mp⟩) partitioned_new hrun).symm

/-! ## Schedules on concrete inputs -/

/-- The worker and the caller put chunks of their own, each between the other's sections. -/
theorem everyState_partitioned_two_keys :
    EveryState Threads.enter Partitioned (.new .threeChunks ℕ ℚ Unit)
      [.reserve .worker (argsOf 0 2 []), .reserve .caller (argsOf 1 2 []), .insert .worker, .insert .caller] := by
  have hrun : ∃ t, Reaches Threads.enter (.new .threeChunks ℕ ℚ Unit)
      [.reserve .worker (argsOf 0 2 []), .reserve .caller (argsOf 1 2 []), .insert .worker, .insert .caller] t ∧
        t.lockHeld = false := by decide +kernel
  obtain ⟨t, ht, -⟩ := hrun
  refine (everyState_partitioned_iff ht).mpr ?_
  decide +kernel

/-- Both put the same chunk: neither finds the other's entry to drop, and the second insert loses a slot. -/
theorem concurrent_puts_lose_slot :
    ∃ t, Reaches Threads.enter (.new .threeChunks ℕ ℚ Unit)
      [.reserve .worker (argsOf 0 2 []), .reserve .caller (argsOf 0 2 []), .insert .worker, .insert .caller] t ∧
        ¬ Partitioned t := by decide +kernel

end FairCache.LMCLocalFairBackend
