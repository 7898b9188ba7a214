import FairCache.Fair.Invariant

/-!
# The capacity ledger

`current_cache_size` should be the size of the resident objects and stay within `MAX_CACHE_SIZE`. A put charges it the
bytes of its chunk, while the object it inserts is charged a whole chunk.

* `Ledger` : the ledger is right;
* `ledger_putSections_legal` : an accepted put keeps it right exactly when its chunk is full;
* `KeepsLedger` : what a step has to meet, and `everyState_ledger_iff` : it is what runs have to meet.
-/

namespace FairCache.LMCLocalFairBackend

open Lib FairEvictor

variable {md : LMCacheMemPoolMetadata} {K F R : Type} [LinearOrder K] [LinearOrder F]

/-- The sum of the sizes of the resident objects. -/
def residentSize (b : LMCLocalFairBackend md K F R) : ℕ := Dict.sumBy (fun _ e => e.kvObj.size) b.dict

/-- **The capacity ledger**: `current_cache_size` is the size of the resident objects and within the limit. -/
structure Ledger (b : LMCLocalFairBackend md K F R) : Prop where
  exact : b.evictor.currentCacheSize = b.residentSize
  bounded : b.evictor.currentCacheSize ≤ b.evictor.maxCacheSize

instance (b : LMCLocalFairBackend md K F R) : Decidable b.Ledger :=
  decidable_of_iff (b.evictor.currentCacheSize = b.residentSize ∧ b.evictor.currentCacheSize ≤ b.evictor.maxCacheSize)
    ⟨fun h => ⟨h.1, h.2⟩, fun h => ⟨h.exact, h.bounded⟩⟩

/-- A put whose chunk has between 1 and `chunk_size` tokens. -/
def ValidPut (md : LMCacheMemPoolMetadata) (op : Op K F R) : Prop :=
  ∀ a, op.put? = some a → 1 ≤ a.kvChunk.length ∧ a.kvChunk.length ≤ md.chunkSize

theorem ledger_new : (new md K F R).Ledger := ⟨rfl, Int.natCast_nonneg _⟩

theorem residentSize_eq {b : LMCLocalFairBackend md K F R} (hw : b.WF) :
    b.residentSize = md.sizePerChunk * b.dict.size := by
  rw [residentSize, Dict.sumBy_congr (hw.size), Dict.sumBy_const]

theorem sum_blockSize {b : LMCLocalFairBackend md K F R} (hw : b.WF) {ks : List K} (hks : ∀ k ∈ ks, k ∈ b.dict) :
    (ks.map (blockSize b.dict)).sum = md.sizePerChunk * ks.length := by
  have hconst : ks.map (blockSize b.dict) = ks.map fun _ => md.sizePerChunk := by
    refine List.map_congr_left fun k hk => ?_
    obtain ⟨e, he⟩ := (Dict.mem_iff_lookup _ _).mp (hks k hk)
    rw [blockSize, he, Option.map_some, Option.getD_some, hw.size k e he]
  rw [hconst, List.map_const', List.sum_replicate_nat, Nat.mul_comm]

namespace Ledger

variable {b : LMCLocalFairBackend md K F R}

/-- The ledger in chunks. -/
theorem current_eq (h : b.Ledger) (hw : b.WF) :
    b.evictor.currentCacheSize = (md.sizePerChunk * b.dict.size : ℕ) := by rw [h.exact, residentSize_eq hw]

theorem size_le (h : b.Ledger) (hw : b.WF) : md.sizePerChunk * b.dict.size ≤ md.maxBytes := by
  have := h.bounded
  rw [h.current_eq hw, maxCacheSize] at this
  exact_mod_cast this

/-- There is a free slot whenever the ledger is right. -/
theorem size_lt_maxChunkNum (h : b.Ledger) (hw : b.WF) : b.dict.size < md.maxChunkNum :=
  md.lt_maxChunkNum (h.size_le hw)

variable [Field F]

/-- The old block of a put leaves the ledger right. -/
theorem dropOld (h : b.Ledger) (hw : b.WF) (k : K) : (b.dropOld k).2.Ledger := by
  cases hk : b.dict.lookup k with
  | none => rwa [dropOld_of_notMem (AList.lookup_eq_none.mp hk)]
  | some e =>
    have hw' := hw.dropOld k
    have hcur := currentCacheSize_dropOld b k
    have hsize : (b.dropOld k).2.dict.size + 1 = b.dict.size := by
      rw [dropOld_of_lookup hk]
      exact size_remove (Dict.mem_of_lookup hk)
    rw [dropOld_of_lookup hk, ← dropOld_of_lookup hk, h.current_eq hw, ← hsize] at hcur
    have hold : (b.dropOld k).1 = md.sizePerChunk := by rw [dropOld_of_lookup hk, hw.size k e hk]
    have hexact : (b.dropOld k).2.evictor.currentCacheSize = (md.sizePerChunk * (b.dropOld k).2.dict.size : ℕ) := by
      rw [hcur, hold]
      push_cast
      ring
    refine ⟨by rw [hexact, residentSize_eq hw'], ?_⟩
    have hle := h.size_le hw
    rw [← hsize, Nat.mul_add] at hle
    rw [hexact, maxCacheSize]
    exact_mod_cast (Nat.le_add_right _ _).trans hle

end Ledger

/-! ## One put -/

section Put
variable [Field F] [FloatMath F] {b : LMCLocalFairBackend md K F R} {a : PutArgs K F R}

/-- **An accepted put returns, and it leaves the ledger right exactly when its chunk is full**: the ledger grows by
the chunk's bytes, the resident size by a whole chunk. -/
theorem ledger_putSections_legal (hw : b.WF) (h : b.Ledger) (hlen : a.kvChunk.length ≤ md.chunkSize)
    (hle : chunkBytes md a ≤ md.maxBytes) {ev : FairEvictor md K F} {who : Option ClientId} {ks : List K}
    (hv : b.victims a = (ev, who, ks, .legal)) :
    ∃ b', b.putSections a = .ok b' ∧ (b'.Ledger ↔ a.kvChunk.length = md.chunkSize) := by
  obtain ⟨hchosen, hroom, -⟩ := chosen_chooseVictims hv
  have hw₁ := hw.dropOld a.key
  have h₁ := h.dropOld hw a.key
  have hwe := hw.evicted a ev ks
  have hsize : (b.evicted a ev ks).dict.size + ks.length = (b.dropOld a.key).2.dict.size :=
    size_foldl_remove (b := { (b.dropOld a.key).2 with
      evictor := { ev with currentCacheSize := ev.currentCacheSize + chunkBytes md a } }) hchosen.nodup hchosen.resident
  -- the pool has a slot left
  have hfree : (b.evicted a ev ks).mpool.freePool ≠ [] := by
    have hlt := h₁.size_lt_maxChunkNum hw₁
    have := hwe.length_freePool
    refine fun hnil => ?_
    rw [hnil, List.length_nil] at this
    omega
  obtain ⟨o, p, ha⟩ := LocalPool.exists_allocate hlen hfree
  refine ⟨_, by rw [putSections_legal hle hv, ha], ?_⟩
  have hnot := notMem_evicted b a ev ks
  have hw' := hwe.putInsert hnot ha
  have hcur : (putInsert { b.evicted a ev ks with mpool := p } a o).evictor.currentCacheSize =
      (md.sizePerChunk * (b.evicted a ev ks).dict.size : ℕ) + chunkBytes md a := by
    have hledger := hchosen.ledger
    rw [h₁.current_eq hw₁, sum_blockSize hw₁ hchosen.resident, ← hsize] at hledger
    rw [currentCacheSize_putInsert, currentCacheSize_evicted, hledger]
    push_cast
    ring
  have hres : (putInsert { b.evicted a ev ks with mpool := p } a o).residentSize =
      md.sizePerChunk * (b.evicted a ev ks).dict.size + md.sizePerChunk := by
    rw [residentSize_eq hw', size_putInsert hnot, Nat.mul_add, Nat.mul_one]
  constructor
  · intro hl
    have heq := hl.exact
    rw [hcur, hres] at heq
    refine md.kvBytes_eq_sizePerChunk.mp ?_
    rw [chunkBytes] at heq
    push_cast at heq
    omega
  · intro hfull
    have hbytes : chunkBytes md a = md.sizePerChunk := md.kvBytes_eq_sizePerChunk.mpr hfull
    refine ⟨by rw [hcur, hres, hbytes]; push_cast; ring, ?_⟩
    have := hroom rfl
    rw [hasRoom_iff, hchosen.ledger, h₁.current_eq hw₁, sum_blockSize hw₁ hchosen.resident, ← hsize] at this
    rw [hcur, maxCacheSize]
    push_cast at this ⊢
    linarith

/-- A refused put has found its key absent and neither room nor a victim, as one victim makes room. -/
theorem refuses_of_illegal (hw : b.WF) (h : b.Ledger) (hlen : a.kvChunk.length ≤ md.chunkSize)
    {ev : FairEvictor md K F} {who : Option ClientId} {ks : List K}
    (hv : b.victims a = (ev, who, ks, .illegal)) :
    a.key ∉ b.dict ∧ b.evictor.Refuses b.dict (chunkBytes md a) a.retrievedKeys a.now := by
  obtain ⟨hchosen, -, hill⟩ := chosen_chooseVictims hv
  have hw₁ := hw.dropOld a.key
  have h₁ := h.dropOld hw a.key
  have hbytes : chunkBytes md a ≤ md.sizePerChunk := md.kvBytes_le hlen
  have hroom := (hill rfl).1
  rw [hasRoom_iff, hchosen.ledger, h₁.current_eq hw₁, sum_blockSize hw₁ hchosen.resident] at hroom
  have hle₁ := h₁.size_le hw₁
  have hkey : a.key ∉ b.dict := by
    intro hmem
    obtain ⟨e, he⟩ := (Dict.mem_iff_lookup _ _).mp hmem
    have hsize : (b.dropOld a.key).2.dict.size + 1 = b.dict.size := by
      rw [dropOld_of_lookup he]
      exact size_remove hmem
    have := h.size_le hw
    rw [← hsize, Nat.mul_add] at this
    push_cast at hroom
    nlinarith [Nat.zero_le (md.sizePerChunk * ks.length)]
  refine ⟨hkey, ?_⟩
  have hnil : ks = [] := by
    rcases ks with _ | ⟨k, ks⟩
    · rfl
    · rw [List.length_cons, Nat.mul_add] at hroom
      push_cast at hroom
      nlinarith [Nat.zero_le (md.sizePerChunk * ks.length)]
  subst hnil
  rw [victims_of_notMem hkey] at hv
  exact refuses_of_chooseVictims hv

omit [FloatMath F] in
/-- A put refused without a choice leaves the ledger alone. -/
theorem ledger_refused (h : b.Ledger) (hkey : a.key ∉ b.dict) {ev : FairEvictor md K F}
    (hcur : ev.currentCacheSize = b.evictor.currentCacheSize) : (b.refused a ev).Ledger := by
  have hb : b.dropOld a.key = (0, b) := dropOld_of_notMem hkey
  rw [refused, hb]
  refine ⟨?_, ?_⟩
  · rw [currentCacheSize_addCacheSize]
    simpa [hcur, residentSize] using h.exact
  · rw [currentCacheSize_addCacheSize]
    simpa [hcur, maxCacheSize] using h.bounded

/-- What a put has to meet to leave the ledger right: its chunk is full, or it is refused with nothing changed because
its key is absent and the chunk is too large or there is neither room nor a victim. -/
def KeepsLedgerPut (b : LMCLocalFairBackend md K F R) (a : PutArgs K F R) : Prop :=
  a.kvChunk.length = md.chunkSize ∨
    (a.key ∉ b.dict ∧ (md.maxBytes < chunkBytes md a ∨
      b.evictor.Refuses b.dict (chunkBytes md a) a.retrievedKeys a.now))

/-- The condition is exact for one put. -/
theorem keepsLedgerPut_iff (hw : b.WF) (h : b.Ledger) (hlen : a.kvChunk.length ≤ md.chunkSize) :
    b.KeepsLedgerPut a ↔ ∃ b', b.putSections a = .ok b' ∧ b'.Ledger := by
  by_cases hbig : md.maxBytes < chunkBytes md a
  · have hkey : a.key ∉ b.dict := by
      intro hmem
      have hpos : 0 < b.dict.size := by
        have := Dict.size_erase hmem
        omega
      have hle := (Nat.le_mul_of_pos_right _ hpos).trans (h.size_le hw)
      exact absurd (hbig.trans_le (md.kvBytes_le hlen)) (not_lt.mpr hle)
    refine ⟨fun _ => ⟨_, putSections_tooLarge hbig, ledger_refused h hkey ?_⟩, fun _ => Or.inr ⟨hkey, Or.inl hbig⟩⟩
    rw [dropOld_of_notMem hkey]
  · have hle := not_lt.mp hbig
    cases hv : b.victims a with
    | mk ev rest =>
      obtain ⟨who, ks, st⟩ := rest
      cases st with
      | legal =>
        obtain ⟨b', hput, hiff⟩ := ledger_putSections_legal hw h hlen hle hv
        constructor
        · rintro (hfull | ⟨hkey, hlarge | href⟩)
          · exact ⟨b', hput, hiff.mpr hfull⟩
          · exact absurd hlarge hbig
          · obtain ⟨ev', who', hill, -⟩ := chooseVictims_of_refuses href
            rw [victims_of_notMem hkey, hill] at hv
            cases hv
        · rintro ⟨b'', hput', hl⟩
          obtain rfl : b' = b'' := Except.ok.inj (hput.symm.trans hput')
          exact Or.inl (hiff.mp hl)
      | illegal =>
        obtain ⟨hkey, href⟩ := refuses_of_illegal hw h hlen hv
        refine ⟨fun _ => ⟨_, putSections_illegal hle hv, ledger_refused h hkey ?_⟩, fun _ => Or.inr ⟨hkey, Or.inr href⟩⟩
        obtain ⟨ev', who', hill, hcur⟩ := chooseVictims_of_refuses href
        rw [victims_of_notMem hkey, hill] at hv
        cases hv
        exact hcur

end Put

/-! ## Runs -/

section Runs
variable [Field F] [FloatMath F]

/-- `KeepsLedgerPut` at the puts of a run. -/
def KeepsLedger (b : LMCLocalFairBackend md K F R) (op : Op K F R) : Prop :=
  ∀ a, op.put? = some a → b.KeepsLedgerPut a

/-- Reads change neither the ledger nor the sizes. -/
theorem ledger_updateAfterGet {b : LMCLocalFairBackend md K F R} (hw : b.WF) (h : b.Ledger) (c : Option ClientId)
    (ks : List K) (clock : ℕ → F) : (b.updateAfterGet c ks clock).Ledger := by
  refine (updateAfterGet_rule (P := fun b => b.WF ∧ b.Ledger) (fun b k c now _ _ ⟨hw, h⟩ => ?_) ⟨hw, h⟩).2
  have hw' := hw.updateOnGet k c now
  obtain ⟨hcur, hsize⟩ := size_updateOnGet b k c now
  refine ⟨hw', ?_, ?_⟩
  · rw [hcur, residentSize_eq hw', hsize, h.current_eq hw]
  · rw [hcur]; exact h.bounded

theorem keepsLedger_iff {b : LMCLocalFairBackend md K F R} {op : Op K F R} (hv : ValidPut md op) (hw : b.WF)
    (h : b.Ledger) : b.KeepsLedger op ↔ ∃ b', b.step op = .ok b' ∧ b'.Ledger := by
  cases op with
  | putBlocking a =>
    exact ⟨fun hk => (keepsLedgerPut_iff hw h (hv a rfl).2).mp (hk a rfl),
      fun hk a' ha' => Option.some.inj ha' ▸ (keepsLedgerPut_iff hw h (hv a rfl).2).mpr hk⟩
  | putNonblocking a =>
    exact ⟨fun hk => (keepsLedgerPut_iff hw h (hv a rfl).2).mp (hk a rfl),
      fun hk a' ha' => Option.some.inj ha' ▸ (keepsLedgerPut_iff hw h (hv a rfl).2).mpr hk⟩
  | get c k => exact ⟨fun _ => ⟨b, rfl, h⟩, fun _ a ha => by cases ha⟩
  | updateAfterGet c ks clock =>
    exact ⟨fun _ => ⟨_, rfl, ledger_updateAfterGet hw h c ks clock⟩, fun _ a ha => by cases ha⟩

/-- **The ledger over runs.** Every operation of a run returns, so that no allocation fails, and the ledger is right
after each of them, if and only if every put meets `KeepsLedgerPut` in the state it is executed in. -/
theorem everyState_ledger_iff (ops : List (Op K F R)) (hops : ∀ op ∈ ops, ValidPut md op) :
    EveryState step Ledger (new md K F R) ops ↔ Along step KeepsLedger (new md K F R) ops :=
  (along_iff_everyState (fun _ _ _ _ hw hs => hw.step hs) (fun _ _ hv hw h => keepsLedger_iff hv hw h) hops wf_new
    ledger_new).symm

end Runs

/-! ## Runs on concrete inputs -/

/-- Client 1 puts `n` tokens under the key `k` while the keys `r` are protected. -/
def argsOf (k n : ℕ) (r : List ℕ) : PutArgs ℕ ℚ Unit :=
  { clientId := 1, key := k, kvChunk := List.replicate n (), retrievedKeys := r, lambdaVal := 1, now := 0, storedAt := 0 }

/-- The put of `n` tokens under the key `k`. -/
def putOf (k n : ℕ) : Op ℕ ℚ Unit := .putBlocking (argsOf k n [])

theorem validPut_putOf (k : ℕ) {n : ℕ} (h : 1 ≤ n ∧ n ≤ 2) : ValidPut .threeChunks (putOf k n) := by
  rintro a ⟨⟩
  rwa [argsOf, List.length_replicate]

/-- Full chunks keep the ledger, here when the fourth of them evicts the first. -/
theorem everyState_ledger_full :
    EveryState step Ledger (new .threeChunks ℕ ℚ Unit) ((List.range 4).map (putOf · 2)) := by
  refine (everyState_ledger_iff _ ?_).mpr (along_of_forall (fun b op hop => ?_) _)
  · exact List.forall_mem_map.mpr fun k _ => validPut_putOf k (by decide)
  · obtain ⟨k, -, rfl⟩ := List.mem_map.mp hop
    rintro a ⟨⟩
    exact Or.inl rfl

/-- One put of a single token breaks the ledger, and the fifth of them finds the pool empty. -/
theorem partial_chunks_break_ledger :
    (∀ k, ValidPut .threeChunks (putOf k 1)) ∧
      ¬ EveryState step Ledger (new .threeChunks ℕ ℚ Unit) [putOf 0 1] ∧
      raised? step (new .threeChunks ℕ ℚ Unit) ((List.range 5).map (putOf · 1)) =
        some (.exception "Mempool allocation failed") :=
  ⟨fun k => validPut_putOf k (by decide), by decide +kernel, by decide +kernel⟩

end FairCache.LMCLocalFairBackend
