import FairCache.Fair.Ledger

/-!
# Failed puts

A put that `update_on_put` refuses should leave no trace. It does leave some: the old block under the key is not put
back, and what the passes took off the ledger and the usage table stays off.

* `Unchanged` : what later operations see is the same;
* `failedPut_unchanged_iff` : when a refused put leaves no trace.
-/

namespace FairCache.LMCLocalFairBackend

open Lib FairEvictor

variable {md : LMCacheMemPoolMetadata} {K F R : Type} [LinearOrder K] [LinearOrder F]

/-- Later operations see in `b'` what they see in `b`: the resident blocks, the free slots, the ledger, the usage and
sharer tables and every answer of the two victim searches. -/
structure Unchanged (b b' : LMCLocalFairBackend md K F R) : Prop where
  dict : b'.dict = b.dict
  mpool : b'.mpool = b.mpool
  currentCacheSize : b'.evictor.currentCacheSize = b.evictor.currentCacheSize
  clientCacheSizes : b'.evictor.clientCacheSizes = b.evictor.clientCacheSizes
  keyToClients : b'.evictor.keyToClients = b.evictor.keyToClients
  minValueKey : ∀ excluded,
    (b'.evictor.getMinValueKey b'.dict excluded).1 = (b.evictor.getMinValueKey b.dict excluded).1
  minValueKeyForClient : ∀ clientId excluded,
    (b'.evictor.getMinValueKeyForClient clientId b'.dict excluded).1 =
      (b.evictor.getMinValueKeyForClient clientId b.dict excluded).1

variable [Field F] [FloatMath F]

/-- What `update_on_put` answers in a put. -/
def putStatus (b : LMCLocalFairBackend md K F R) (a : PutArgs K F R) : PutStatus :=
  ((b.dropOld a.key).2.evictor.updateOnPut (b.dropOld a.key).2.dict (chunkBytes md a) a.retrievedKeys a.now).2.2.2

/-- A refused put leaves no trace: its key is not resident, and either the chunk is larger than the whole cache or
there is no client and no low block to start with. -/
def FailsCleanly (b : LMCLocalFairBackend md K F R) (a : PutArgs K F R) : Prop :=
  a.key ∉ b.dict ∧ (md.maxBytes < chunkBytes md a ∨
    (b.evictor.clientCacheSizes = ∅ ∧ b.evictor.NoLowVictim b.dict a.retrievedKeys a.now []))

variable {b : LMCLocalFairBackend md K F R} {a : PutArgs K F R}

/-- What a refused put does: nothing after the old block is gone, or both passes without room in the end. -/
theorem putSections_of_illegal (h : b.putStatus a = .illegal) :
    (md.maxBytes < chunkBytes md a ∧ b.putSections a = .ok (b.refused a (b.dropOld a.key).2.evictor)) ∨
      (chunkBytes md a ≤ md.maxBytes ∧ ∃ ev who ks, b.victims a = (ev, who, ks, .illegal) ∧
        b.putSections a = .ok (b.refused a ev)) := by
  by_cases hbig : md.maxBytes < chunkBytes md a
  · exact Or.inl ⟨hbig, putSections_tooLarge hbig⟩
  · have hle := not_lt.mp hbig
    refine Or.inr ⟨hle, ?_⟩
    cases hv : b.victims a with
    | mk ev rest =>
      obtain ⟨who, ks, st⟩ := rest
      cases st with
      | illegal => exact ⟨ev, who, ks, rfl, putSections_illegal hle hv⟩
      | legal =>
        rw [putStatus, updateOnPut_legal hle hv] at h
        cases h

omit [FloatMath F] in
/-- An old block is not put back. -/
theorem notMem_of_unchanged_refused {ev : FairEvictor md K F} (h : Unchanged b (b.refused a ev)) : a.key ∉ b.dict := by
  rw [← AList.lookup_eq_none, ← h.dict]
  exact (lookup_dropOld b a.key a.key).trans (if_pos rfl)

omit [FloatMath F] in
theorem refused_of_notMem (hkey : a.key ∉ b.dict) (ev : FairEvictor md K F) :
    b.refused a ev = { b with evictor := ev } := by
  rw [refused, dropOld_of_notMem hkey]
  simp [addCacheSize]

theorem unchanged_refused_iff (hw : b.WF) (hle : chunkBytes md a ≤ md.maxBytes) {ev : FairEvictor md K F}
    {who : Option ClientId} {ks : List K} (hv : b.victims a = (ev, who, ks, .illegal)) :
    Unchanged b (b.refused a ev) ↔ b.FailsCleanly a := by
  constructor
  · intro h
    have hkey := notMem_of_unchanged_refused h
    refine ⟨hkey, Or.inr ?_⟩
    rw [refused_of_notMem hkey] at h
    rw [victims_of_notMem hkey] at hv
    obtain ⟨hchosen, -, hill⟩ := chosen_chooseVictims hv
    -- a victim would have left the ledger
    have hnil : ks = [] := by
      have hledger := hchosen.ledger
      rw [show ev.currentCacheSize = b.evictor.currentCacheSize from h.currentCacheSize,
        sum_blockSize hw hchosen.resident] at hledger
      have hzero : md.sizePerChunk * ks.length = 0 := by omega
      exact List.length_eq_zero_iff.mp ((Nat.mul_eq_zero.mp hzero).resolve_left md.sizePerChunk_pos.ne')
    subst hnil
    exact ⟨h.clientCacheSizes.symm.trans (hill rfl).2, (refuses_of_chooseVictims hv).noLowVictim⟩
  · rintro ⟨hkey, hcond⟩
    obtain ⟨hno, hlow⟩ := hcond.resolve_left (not_lt.mpr hle)
    rw [refused_of_notMem hkey]
    rw [victims_of_notMem hkey] at hv
    have hroom : ¬ b.evictor.HasRoom (chunkBytes md a) := by
      intro hroom
      rw [chooseVictims_of_room hroom] at hv
      cases hv
    rw [chooseVictims_of_no_clients hroom hlow hno] at hv
    cases hv
    exact ⟨rfl, rfl, rfl, rfl, rfl, fun x => getMinValueKey_getMinValueKey _ _ (by simp),
      fun c x => getMinValueKeyForClient_congr (by rfl) _ _⟩

/-- **A refused put leaves no trace exactly when it fails cleanly.** -/
theorem failedPut_unchanged_iff {ops : List (Op K F R)} (hb : Reaches step (new md K F R) ops b) {op : Op K F R}
    (hop : op.put? = some a) (hill : b.putStatus a = .illegal) :
    (∃ b', b.step op = .ok b' ∧ Unchanged b b') ↔ b.FailsCleanly a := by
  have hw : b.WF := reaches_kept (fun _ _ _ hw hs => hw.step hs) wf_new hb
  have hstep : b.step op = b.putSections a := by
    cases op with
    | putBlocking a' => cases hop; rfl
    | putNonblocking a' => cases hop; rfl
    | get c k => cases hop
    | updateAfterGet c ks clock => cases hop
  rw [hstep]
  rcases putSections_of_illegal hill with ⟨hbig, hput⟩ | ⟨hle, ev, who, ks, hv, hput⟩
  · rw [hput]
    constructor
    · rintro ⟨b', hb', h⟩
      cases hb'
      exact ⟨notMem_of_unchanged_refused h, Or.inl hbig⟩
    · rintro ⟨hkey, -⟩
      refine ⟨_, rfl, ?_⟩
      rw [refused_of_notMem hkey, dropOld_of_notMem hkey]
      exact ⟨rfl, rfl, rfl, rfl, rfl, fun _ => rfl, fun _ _ => rfl⟩
  · rw [hput, ← unchanged_refused_iff hw hle hv]
    exact ⟨fun ⟨b', hb', h⟩ => Except.ok.inj hb' ▸ h, fun h => ⟨_, rfl, h⟩⟩

/-! ## Runs on concrete inputs -/

/-- A chunk larger than the cache is refused without a trace. -/
theorem failedPut_unchanged_tooLarge :
    ∃ b', step (new .threeChunks ℕ ℚ Unit) (putOf 0 7) = .ok b' ∧ Unchanged (new .threeChunks ℕ ℚ Unit) b' :=
  (failedPut_unchanged_iff (reaches_nil.mpr rfl) rfl (by decide +kernel)).mpr ⟨AList.notMem_empty _, Or.inl (by decide +kernel)⟩

/-- Three blocks fill the cache and are all protected: a fourth put is refused, and the client's usage is lost. -/
theorem failed_put_drops_client :
    ∃ b b', Reaches step (new .threeChunks ℕ ℚ Unit) ((List.range 3).map (putOf · 2)) b ∧
      b.putStatus (argsOf 3 2 [0, 1, 2]) = .illegal ∧
      b.step (.putBlocking (argsOf 3 2 [0, 1, 2])) = .ok b' ∧ ¬ Unchanged b b' := by
  have hrun : ∃ b, Reaches step (new .threeChunks ℕ ℚ Unit) ((List.range 3).map (putOf · 2)) b ∧
      b.putStatus (argsOf 3 2 [0, 1, 2]) = .illegal ∧
      ∃ b', Reaches step b [.putBlocking (argsOf 3 2 [0, 1, 2])] b' ∧
        b.evictor.clientCacheSizes.keys = [1] ∧ b'.evictor.clientCacheSizes.keys = [] := by decide +kernel
  obtain ⟨b, hb, hill, b', hb', hkeys, hkeys'⟩ := hrun
  obtain ⟨b'', hstep, hnil⟩ := reaches_cons.mp hb'
  refine ⟨b, b', hb, hill, reaches_nil.mp hnil ▸ hstep, fun h => ?_⟩
  rw [h.clientCacheSizes, hkeys] at hkeys'
  cases hkeys'

end FairCache.LMCLocalFairBackend
