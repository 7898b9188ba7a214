import FairCache.Local.Backend
import Mathlib.Tactic.Linarith

/-!
# What every operation of the local backend keeps

* `WF` : the slots of the chunks and the free slots are the pool, and the ledger covers the chunks within the limit;
* `updateOnPut_eq` : a put has at most one victim, the least recent chunk;
* `PutReturns` : when a put returns; `putBlocking_error`, `putBlocking_spec` : what it does;
* `WF.step` : every operation keeps the invariant.
-/

namespace FairCache.LMCLocalBackend

open Lib

variable {md : LMCacheMemPoolMetadata} {K R : Type} [DecidableEq K]

/-! ## Slots -/

/-- The slots of the chunks. -/
def slots (b : LMCLocalBackend md K R) : List ℕ := b.dict.entries.map (·.2.chunkIdx)

/-- Every chunk is charged as a whole one, and the slots of the chunks and the free slots make up the pool. -/
structure SlotsWF (b : LMCLocalBackend md K R) : Prop where
  size : ∀ k o, b.dict.lookup k = some o → o.size = md.sizePerChunk
  slots : (b.slots ++ b.mpool.freePool).Perm (List.range md.maxChunkNum)

/-- A key's chunk leaves, if there is one. -/
def drop (b : LMCLocalBackend md K R) (key : K) : LMCLocalBackend md K R :=
  match b.dict.lookup key with
  | none => b
  | some kvObj => { b with dict := b.dict.erase key, mpool := b.mpool.free kvObj }

theorem remove_of_mem {b : LMCLocalBackend md K R} {key : K} (h : key ∈ b.dict) : b.remove key = .ok (b.drop key) := by
  obtain ⟨o, ho⟩ := (Dict.mem_iff_lookup _ _).mp h
  unfold remove drop
  rw [ho]

theorem remove_of_notMem {b : LMCLocalBackend md K R} {key : K} (h : key ∉ b.dict) :
    b.remove key = .error .keyError := by
  unfold remove
  rw [AList.lookup_eq_none.mpr h]

theorem lookup_drop (b : LMCLocalBackend md K R) (key j : K) :
    (b.drop key).dict.lookup j = if j = key then none else b.dict.lookup j := by
  unfold drop
  cases h : b.dict.lookup key with
  | none =>
    by_cases hj : j = key
    · rw [if_pos hj, hj, h]
    · rw [if_neg hj]
  | some o =>
    by_cases hj : j = key
    · rw [if_pos hj, hj, AList.lookup_erase]
    · rw [if_neg hj, AList.lookup_erase_ne hj]

theorem notMem_drop (b : LMCLocalBackend md K R) (key : K) : key ∉ (b.drop key).dict := by
  rw [← AList.lookup_eq_none, lookup_drop, if_pos rfl]

theorem mem_drop {b : LMCLocalBackend md K R} {key j : K} (h : j ≠ key) : j ∈ (b.drop key).dict ↔ j ∈ b.dict := by
  rw [Dict.mem_iff_lookup, lookup_drop, if_neg h, ← Dict.mem_iff_lookup]

@[simp] theorem currentCacheSize_drop (b : LMCLocalBackend md K R) (key : K) :
    (b.drop key).currentCacheSize = b.currentCacheSize := by
  unfold drop; split <;> rfl

theorem find_drop (b : LMCLocalBackend md K R) (key j : K) :
    (b.drop key).find j = if j = key then none else b.find j := by
  unfold find
  rw [lookup_drop]
  split_ifs
  · rfl
  · unfold drop
    cases b.dict.lookup key <;> rfl

theorem size_drop_le (b : LMCLocalBackend md K R) (key : K) : (b.drop key).dict.size ≤ b.dict.size := by
  unfold drop
  cases h : b.dict.lookup key with
  | none => exact le_rfl
  | some o =>
    have := Dict.size_erase (Dict.mem_of_lookup h)
    show (b.dict.erase key).size ≤ b.dict.size
    omega

theorem size_drop {b : LMCLocalBackend md K R} {key : K} (h : key ∈ b.dict) :
    (b.drop key).dict.size + 1 = b.dict.size := by
  obtain ⟨o, ho⟩ := (Dict.mem_iff_lookup _ _).mp h
  unfold drop
  rw [ho]
  exact Dict.size_erase h

namespace SlotsWF

variable {b : LMCLocalBackend md K R}

theorem length_freePool (h : b.SlotsWF) : b.dict.size + b.mpool.freePool.length = md.maxChunkNum := by
  have := h.slots.length_eq
  simpa [LMCLocalBackend.slots, Dict.size] using this

theorem drop (h : b.SlotsWF) (key : K) : (b.drop key).SlotsWF := by
  refine ⟨fun j o hj => ?_, ?_⟩
  · rw [lookup_drop] at hj
    split_ifs at hj
    exact h.size j o hj
  · unfold LMCLocalBackend.drop
    cases hk : b.dict.lookup key with
    | none => exact h.slots
    | some o =>
      -- the chunk's slot moves from the chunks to the free slots
      have hperm := (Dict.entries_perm_erase hk).map fun e => e.2.chunkIdx
      refine List.Perm.trans ?_ h.slots
      refine List.Perm.trans ?_ (hperm.symm.append_right _)
      simp only [LMCLocalBackend.slots, LocalPool.free, List.map_cons, List.cons_append, ← List.append_assoc]
      exact List.perm_append_singleton _ _

variable {key : K} {kvChunk : List R} {b' : LMCLocalBackend md K R}

/-- What `store` does with a key that is not there: only its own chunk changes. -/
theorem store_ok (h : b.SlotsWF) (hkey : key ∉ b.dict) (hstore : b.store key kvChunk = .ok b') :
    b'.SlotsWF ∧ b'.dict.size = b.dict.size + 1 ∧ b'.currentCacheSize = b.currentCacheSize ∧ b'.dict ≠ ∅ ∧
      ∀ j, b'.find j = if j = key then some kvChunk else b.find j := by
  unfold store at hstore
  cases ha : b.mpool.allocate kvChunk with
  | error e => rw [ha] at hstore; cases hstore
  | ok op =>
    obtain ⟨o, p⟩ := op
    rw [ha] at hstore
    cases hstore
    obtain ⟨-, hsize, hnum, hfree, hpool⟩ := LocalPool.allocate_ok ha
    refine ⟨⟨Dict.forall_lookup_set hsize fun j e _ hj => h.size j e hj, ?_⟩, Dict.size_set_of_notMem _ hkey, rfl, ?_,
      fun j => ?_⟩
    · have hperm := (Dict.set_perm b.dict key o).map fun e => e.2.chunkIdx
      rw [Dict.erase_of_notMem hkey] at hperm
      refine (hperm.append_right _).trans (List.Perm.trans ?_ h.slots)
      rw [hfree, ← List.append_assoc]
      exact (List.perm_append_singleton _ _).symm
    · intro hempty
      have hmem : key ∈ b.dict.set key o := (Dict.mem_set _ _ _ _).mpr (Or.inl rfl)
      rw [show b.dict.set key o = ∅ from hempty] at hmem
      exact AList.notMem_empty key hmem
    · unfold find
      simp only [Dict.lookup_set]
      split_ifs with hj
      · rw [Option.map_some, LocalPool.data_copy_self p hnum]
      · cases hl : b.dict.lookup j with
        | none => rfl
        | some o' =>
          have hne : o'.chunkIdx ≠ o.chunkIdx := by
            have hnodup : (b.slots ++ b.mpool.freePool).Nodup := h.slots.nodup_iff.mpr List.nodup_range
            have hmem : o'.chunkIdx ∈ b.slots := List.mem_map_of_mem ((Dict.lookup_eq_some_iff _ j o').mp hl)
            refine (List.nodup_append.mp hnodup).2.2 _ hmem _ ?_
            rw [hfree]
            simp
          rw [Option.map_some, Option.map_some, LocalPool.data_copy_ne p kvChunk hne]
          unfold LocalPool.data
          rw [hpool]

/-- `store` returns when the chunk fits a slot and one is free. -/
theorem store_returns_iff (h : b.SlotsWF) (hfree : b.dict.size < md.maxChunkNum) :
    (∃ b', b.store key kvChunk = .ok b') ↔ kvChunk.length ≤ md.chunkSize := by
  unfold store
  constructor
  · rintro ⟨b', hb'⟩
    cases ha : b.mpool.allocate kvChunk with
    | error e => rw [ha] at hb'; cases hb'
    | ok op => exact (LocalPool.allocate_ok ha).1
  · intro hlength
    have hne : b.mpool.freePool ≠ [] := by
      intro hnil
      have := h.length_freePool
      rw [hnil, List.length_nil] at this
      omega
    obtain ⟨o, p, ha⟩ := LocalPool.exists_allocate hlength hne
    rw [ha]
    exact ⟨_, rfl⟩

end SlotsWF

/-! ## The invariant -/

/-- The slots are in order, and the ledger covers the chunks within the limit. It can exceed them: a put over a chunk
of the same key leaves the old size in it. -/
structure WF (b : LMCLocalBackend md K R) : Prop extends b.SlotsWF where
  covers : (md.sizePerChunk * b.dict.size : ℤ) ≤ b.currentCacheSize
  limit : b.currentCacheSize ≤ md.maxBytes
  empty : b.dict = ∅ → b.currentCacheSize = 0

theorem wf_new : (new md K R).WF where
  size k o h := by cases h
  slots := List.Perm.refl _
  covers := by simp [new]
  limit := Int.natCast_nonneg _
  empty _ := rfl

/-! ## Victims -/

/-- A put of a chunk finds no room. -/
def Full (b : LMCLocalBackend md K R) : Prop := (md.maxBytes : ℤ) < md.sizePerChunk + b.currentCacheSize

instance (b : LMCLocalBackend md K R) : Decidable b.Full := inferInstanceAs (Decidable (_ < _))

/-- The chunk a put evicts: the least recent one, when there is no room. -/
def victim (b : LMCLocalBackend md K R) : Option K := if b.Full then b.dict.keys.head? else none

/-- The ledger after a put. -/
def chargedSize (b : LMCLocalBackend md K R) : ℤ :=
  if b.Full then b.currentCacheSize else b.currentCacheSize + md.sizePerChunk

omit [DecidableEq K] in
theorem evictLoop_room {limit size : ℕ} {cur : ℤ} (h : ¬ (limit : ℤ) < size + cur)
    (l : List (Sigma fun _ : K => KVObj)) : evictLoop limit size cur l = .ok ([], cur) := by
  cases l <;> simp [evictLoop, h]

/-- A put has at most one victim. -/
theorem updateOnPut_eq {b : LMCLocalBackend md K R} (h : b.WF) (hfit : md.sizePerChunk ≤ md.maxBytes) :
    b.updateOnPut md.sizePerChunk = .ok (some (b.victim.toList, b.chargedSize)) := by
  unfold updateOnPut victim chargedSize
  rw [if_neg (not_lt.mpr hfit)]
  by_cases hfull : b.Full
  · rw [if_pos hfull, if_pos hfull]
    cases hentries : b.dict.entries with
    | nil =>
      have hzero := h.empty ((Dict.eq_empty_iff _).mpr hentries)
      unfold Full at hfull
      omega
    | cons e l =>
      have hsize : e.2.size = md.sizePerChunk :=
        h.size e.1 e.2 ((Dict.lookup_eq_some_iff _ _ _).mpr (hentries ▸ List.mem_cons_self))
      have hlimit := h.limit
      have hkeys : b.dict.keys.head? = some e.1 := by simp [AList.keys, hentries]
      have hcur : ¬ (md.maxBytes : ℤ) < md.sizePerChunk + (b.currentCacheSize - md.sizePerChunk) := by omega
      have hroom := evictLoop_room hcur l
      unfold Full at hfull
      simp [evictLoop, hfull, hroom, hkeys, Except.map, hsize]
  · rw [if_neg hfull, if_neg hfull, evictLoop_room hfull]
    rfl

theorem victim_mem {b : LMCLocalBackend md K R} {v : K} (h : b.victim = some v) : b.Full ∧ v ∈ b.dict := by
  unfold victim at h
  split_ifs at h with hfull
  exact ⟨hfull, AList.mem_keys.mpr (List.mem_of_mem_head? h)⟩

theorem WF.victim_none {b : LMCLocalBackend md K R} (h : b.WF) (hfit : md.sizePerChunk ≤ md.maxBytes)
    (hv : b.victim = none) : ¬ b.Full := by
  intro hfull
  unfold victim at hv
  rw [if_pos hfull, List.head?_eq_none_iff, AList.keys, List.keys, List.map_eq_nil_iff] at hv
  have hzero := h.empty ((Dict.eq_empty_iff _).mpr hv)
  unfold Full at hfull
  omega

/-! ## Puts -/

section Put
variable {b : LMCLocalBackend md K R} {key : K} {kvChunk : List R}

/-- The state once the old chunk under the key is gone. -/
def charged (b : LMCLocalBackend md K R) (key : K) : LMCLocalBackend md K R :=
  drop { b with currentCacheSize := b.chargedSize } key

/-- The state in which a put takes its slot: the old chunk and the victim are gone. -/
def evicted (b : LMCLocalBackend md K R) (key : K) : LMCLocalBackend md K R :=
  b.victim.elim (b.charged key) (b.charged key).drop

/-- A put returns: it is refused, or its chunk fits a slot and its key is not the victim. -/
def PutReturns (b : LMCLocalBackend md K R) (key : K) (kvChunk : List R) : Prop :=
  md.maxBytes < md.sizePerChunk ∨ (kvChunk.length ≤ md.chunkSize ∧ b.victim ≠ some key)

instance : Decidable (b.PutReturns key kvChunk) := inferInstanceAs (Decidable (_ ∨ _))

theorem putBlocking_refused (h : md.maxBytes < md.sizePerChunk) : b.putBlocking key kvChunk = .ok b := by
  unfold putBlocking updateOnPut
  rw [if_pos h]
  rfl

theorem removeOld_eq (b : LMCLocalBackend md K R) (key : K) : b.removeOld key = .ok (b.drop key) := by
  unfold removeOld contains
  by_cases hkey : key ∈ b.dict
  · rw [if_pos (decide_eq_true hkey)]
    exact remove_of_mem hkey
  · rw [if_neg (by simpa using hkey), drop, AList.lookup_eq_none.mpr hkey]

theorem putBlocking_eq (h : b.WF) (hfit : md.sizePerChunk ≤ md.maxBytes) :
    b.putBlocking key kvChunk =
      b.victim.toList.foldlM remove (b.charged key) >>= fun b => b.store key kvChunk := by
  unfold putBlocking
  rw [updateOnPut_eq h hfit]
  show (removeOld { b with currentCacheSize := b.chargedSize } key >>= _) = _
  rw [removeOld_eq]
  rfl

/-- A put whose key is its own victim raises: the key is gone when it is evicted. -/
theorem putBlocking_victim (h : b.WF) (hfit : md.sizePerChunk ≤ md.maxBytes) (hv : b.victim = some key) :
    b.putBlocking key kvChunk = .error .keyError := by
  rw [putBlocking_eq h hfit, hv]
  have hgone : remove (b.charged key) key = .error .keyError := remove_of_notMem (notMem_drop _ _)
  show (remove (b.charged key) key >>= _) >>= _ = _
  rw [hgone]
  rfl

theorem putBlocking_of_ne (h : b.WF) (hfit : md.sizePerChunk ≤ md.maxBytes) (hv : b.victim ≠ some key) :
    b.putBlocking key kvChunk = (b.evicted key).store key kvChunk := by
  rw [putBlocking_eq h hfit]
  unfold evicted
  cases hvictim : b.victim with
  | none => rfl
  | some v =>
    have hmem : v ∈ (b.charged key).dict :=
      (mem_drop fun heq => hv (hvictim.trans (congrArg some heq))).mpr (victim_mem hvictim).2
    show (remove (b.charged key) v >>= _) >>= _ = _
    rw [remove_of_mem hmem]
    rfl

/-- What the state in which a put takes its slot keeps. -/
theorem evicted_spec (h : b.WF) (hfit : md.sizePerChunk ≤ md.maxBytes) (hv : b.victim ≠ some key) :
    (b.evicted key).SlotsWF ∧ key ∉ (b.evicted key).dict ∧
      (md.sizePerChunk * ((b.evicted key).dict.size + 1) : ℤ) ≤ (b.evicted key).currentCacheSize ∧
      (b.evicted key).currentCacheSize ≤ md.maxBytes ∧
      ∀ j v, (b.evicted key).find j = some v → b.find j = some v := by
  have hslots : (b.charged key).SlotsWF :=
    SlotsWF.drop (b := { b with currentCacheSize := b.chargedSize }) ⟨h.size, h.slots⟩ key
  have hsize : (b.charged key).dict.size ≤ b.dict.size := size_drop_le _ _
  have hcur : (b.charged key).currentCacheSize = b.chargedSize := currentCacheSize_drop _ _
  have hfind : ∀ j v, (b.charged key).find j = some v → b.find j = some v := by
    intro j v hj
    rw [charged, find_drop] at hj
    split_ifs at hj
    exact hj
  have hcovers := h.covers
  have hlimit := h.limit
  unfold evicted
  cases hvictim : b.victim with
  | none =>
    have hfull := h.victim_none hfit hvictim
    unfold Full at hfull
    have hcharged : b.chargedSize = b.currentCacheSize + md.sizePerChunk := if_neg hfull
    refine ⟨hslots, notMem_drop _ _, ?_, ?_, hfind⟩
    · show (_ * ((b.charged key).dict.size + 1) : ℤ) ≤ (b.charged key).currentCacheSize
      have hmul := mul_le_mul_of_nonneg_left (Int.ofNat_le.mpr hsize) (Int.natCast_nonneg md.sizePerChunk)
      rw [hcur, hcharged, mul_add, mul_one]
      linarith
    · show (b.charged key).currentCacheSize ≤ _
      rw [hcur, hcharged]
      omega
  | some v =>
    obtain ⟨hfull, hmem⟩ := victim_mem hvictim
    have hvkey : v ≠ key := fun heq => hv (hvictim.trans (congrArg some heq))
    have hcharged : b.chargedSize = b.currentCacheSize := if_pos hfull
    have hdrop : ((b.charged key).drop v).dict.size + 1 = (b.charged key).dict.size := size_drop ((mem_drop hvkey).mpr hmem)
    refine ⟨hslots.drop v, ?_, ?_, ?_, fun j w hj => ?_⟩
    · show key ∉ ((b.charged key).drop v).dict
      rw [mem_drop hvkey.symm]
      exact notMem_drop _ _
    · show (_ * (((b.charged key).drop v).dict.size + 1) : ℤ) ≤ ((b.charged key).drop v).currentCacheSize
      have hmul := mul_le_mul_of_nonneg_left (Int.ofNat_le.mpr hsize) (Int.natCast_nonneg md.sizePerChunk)
      have hone : (((b.charged key).drop v).dict.size + 1 : ℤ) = (b.charged key).dict.size := by exact_mod_cast hdrop
      rw [currentCacheSize_drop, hcur, hcharged, hone]
      linarith
    · show ((b.charged key).drop v).currentCacheSize ≤ _
      rw [currentCacheSize_drop, hcur, hcharged]
      exact hlimit
    · replace hj : ((b.charged key).drop v).find j = some w := hj
      rw [find_drop] at hj
      split_ifs at hj
      exact hfind j w hj

/-- **When a put returns.** -/
theorem putBlocking_returns_iff (h : b.WF) :
    (∃ b', b.putBlocking key kvChunk = .ok b') ↔ b.PutReturns key kvChunk := by
  unfold PutReturns
  by_cases hfit : md.sizePerChunk ≤ md.maxBytes
  · rw [or_iff_right (not_lt.mpr hfit)]
    by_cases hv : b.victim = some key
    · rw [putBlocking_victim h hfit hv]
      simp [hv]
    · obtain ⟨hslots, -, hcovers, hlimit, -⟩ := evicted_spec h hfit hv
      rw [putBlocking_of_ne h hfit hv, hslots.store_returns_iff ?_]
      · simp [hv]
      · refine Nat.lt_of_succ_lt (md.lt_maxChunkNum ?_)
        exact_mod_cast hcovers.trans hlimit
  · rw [putBlocking_refused (not_le.mp hfit)]
    simp [not_le.mp hfit]

/-- **What a put that returns does**: the state stays, or the key has the chunk, no other chunk changes, and the
invariant holds. -/
theorem putBlocking_ok {b' : LMCLocalBackend md K R} (h : b.WF) (hput : b.putBlocking key kvChunk = .ok b') :
    b'.WF ∧ ∀ j v, b'.find j = some v → (j = key ∧ v = kvChunk) ∨ b.find j = some v := by
  by_cases hfit : md.sizePerChunk ≤ md.maxBytes
  · have hv : b.victim ≠ some key := by
      rcases (putBlocking_returns_iff h).mp ⟨b', hput⟩ with hbig | ⟨-, hv⟩
      · exact absurd hfit (not_le.mpr hbig)
      · exact hv
    rw [putBlocking_of_ne h hfit hv] at hput
    obtain ⟨hslots, hkey, hcovers, hlimit, hfind⟩ := evicted_spec h hfit hv
    obtain ⟨hslots', hsize, hcur, hne, hfind'⟩ := hslots.store_ok hkey hput
    refine ⟨⟨hslots', ?_, ?_, fun hempty => absurd hempty hne⟩, fun j v hj => ?_⟩
    · rw [hsize, hcur]
      exact_mod_cast hcovers
    · rw [hcur]
      exact hlimit
    · rw [hfind'] at hj
      split_ifs at hj with hjk
      · exact Or.inl ⟨hjk, (Option.some.inj hj).symm⟩
      · exact Or.inr (hfind j v hj)
  · rw [putBlocking_refused (not_le.mp hfit)] at hput
    cases hput
    exact ⟨h, fun j v hj => Or.inr hj⟩

end Put

/-! ## Reads and runs -/

section Get
variable (b : LMCLocalBackend md K R) (key : K)

@[simp] theorem get_fst : (b.get key).1 = b.find key := by
  unfold get find
  cases b.dict.lookup key <;> rfl

@[simp] theorem find_get (j : K) : (b.get key).2.find j = b.find j := by
  unfold get
  cases b.dict.lookup key with
  | none => rfl
  | some o =>
    show ((b.dict.moveToEnd key).lookup j).map b.mpool.data = _
    rw [Dict.lookup_moveToEnd]
    rfl

variable {b}

theorem WF.get (h : b.WF) : (b.get key).2.WF := by
  unfold LMCLocalBackend.get
  cases hk : b.dict.lookup key with
  | none => exact h
  | some o =>
    have hperm := b.dict.moveToEnd_perm key
    refine ⟨⟨fun j o' hj => h.size j o' ?_, ?_⟩, ?_, h.limit, fun hempty => h.empty ?_⟩
    · rwa [Dict.lookup_moveToEnd] at hj
    · exact ((hperm.map fun e => e.2.chunkIdx).append_right _).trans h.slots
    · rw [show (b.dict.moveToEnd key).size = b.dict.size from hperm.length_eq]
      exact h.covers
    · rw [Dict.eq_empty_iff] at hempty ⊢
      exact List.Perm.eq_nil (hempty ▸ hperm.symm)

end Get

/-- **Every operation keeps the invariant.** -/
theorem WF.step {b b' : LMCLocalBackend md K R} {op : Op K R} (h : b.WF) (hstep : b.step op = .ok b') : b'.WF := by
  cases op with
  | putBlocking key kvChunk => exact (putBlocking_ok h hstep).1
  | get key => exact Except.ok.inj hstep ▸ h.get key

/-- So it holds in every state a fresh backend reaches. -/
theorem wf_of_reaches {b : LMCLocalBackend md K R} {ops : List (Op K R)} (h : Reaches step (new md K R) ops b) : b.WF :=
  reaches_kept (fun _ _ _ hw hs => hw.step hs) wf_new h

end FairCache.LMCLocalBackend
