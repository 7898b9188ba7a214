import FairCache.Local.Invariant

/-!
# The capacity ledger of the local backend

`current_cache_size` should be the size of the chunks and stay within `MAX_CACHE_SIZE`. A put charges its chunk, and
only what `update_on_put` evicts leaves the ledger: the old chunk under the put's key stays in it.

* `Ledger` : the ledger is right;
* `putNonblocking_eq`, `putNonblocking_ok` : what a put of the worker does;
* `size_evicted`, `size_vacated` : how many chunks are left when the two kinds of puts take their slots;
* `KeepsLedger` : what a call has to meet, and `everyState_ledger_iff` : it is what runs have to meet.
-/

namespace FairCache.LMCLocalBackend

open Lib

variable {md : LMCacheMemPoolMetadata} {K R : Type} [DecidableEq K]

/-- The sum of the sizes of the chunks. -/
def residentSize (b : LMCLocalBackend md K R) : ℕ := Dict.sumBy (fun _ o => o.size) b.dict

/-- **The capacity ledger**: `current_cache_size` is the size of the chunks and within the limit, and a slot is
free. -/
structure Ledger (b : LMCLocalBackend md K R) : Prop where
  exact : b.currentCacheSize = b.residentSize
  bounded : b.currentCacheSize ≤ md.maxBytes
  free : b.mpool.freePool ≠ []

instance (b : LMCLocalBackend md K R) : Decidable b.Ledger :=
  decidable_of_iff (b.currentCacheSize = b.residentSize ∧ b.currentCacheSize ≤ md.maxBytes ∧ b.mpool.freePool ≠ [])
    ⟨fun h => ⟨h.1, h.2.1, h.2.2⟩, fun h => ⟨h.exact, h.bounded, h.free⟩⟩

theorem residentSize_eq {b : LMCLocalBackend md K R} (h : b.SlotsWF) :
    b.residentSize = md.sizePerChunk * b.dict.size := by
  rw [residentSize, Dict.sumBy_congr h.size, Dict.sumBy_const]

/-- The ledger in chunks. -/
theorem ledger_iff {b : LMCLocalBackend md K R} (h : b.WF) :
    b.Ledger ↔ b.currentCacheSize = md.sizePerChunk * b.dict.size := by
  have hsize := residentSize_eq h.toSlotsWF
  constructor
  · intro hl
    rw [hl.exact, hsize]
    push_cast
    rfl
  · intro hcur
    refine ⟨by rw [hcur, hsize]; push_cast; rfl, h.limit, fun hnil => ?_⟩
    have hlt : b.dict.size < md.maxChunkNum := by
      apply md.lt_maxChunkNum
      have hcovers := h.covers.trans h.limit
      exact_mod_cast hcovers
    have hlen := h.length_freePool
    rw [hnil, List.length_nil] at hlen
    omega

theorem ledger_new : (new md K R).Ledger := (ledger_iff wf_new).mpr (by simp [new])

/-! ## Puts of the worker -/

section Put
variable {b : LMCLocalBackend md K R} {key : K} {kvChunk : List R}

/-- The state in which a put of the worker takes its slot: the victim and then the old chunk are gone. -/
def vacated (b : LMCLocalBackend md K R) (key : K) : LMCLocalBackend md K R :=
  let b' := { b with currentCacheSize := b.chargedSize }
  (b.victim.elim b' b'.drop).drop key

theorem putNonblocking_refused (h : md.maxBytes < md.sizePerChunk) : b.putNonblocking key kvChunk = .ok b := by
  unfold putNonblocking updateOnPut
  rw [if_pos h]
  rfl

theorem putNonblocking_eq (h : b.WF) (hfit : md.sizePerChunk ≤ md.maxBytes) :
    b.putNonblocking key kvChunk = (b.vacated key).store key kvChunk := by
  unfold putNonblocking vacated
  rw [updateOnPut_eq h hfit]
  cases hv : b.victim with
  | none =>
    show (removeOld { b with currentCacheSize := b.chargedSize } key >>= _) = _
    rw [removeOld_eq]
    rfl
  | some v =>
    have hmem : v ∈ ({ b with currentCacheSize := b.chargedSize } : LMCLocalBackend md K R).dict := (victim_mem hv).2
    show ((remove { b with currentCacheSize := b.chargedSize } v >>= _) >>= _) = _
    rw [remove_of_mem hmem]
    show (removeOld (drop { b with currentCacheSize := b.chargedSize } v) key >>= _) = _
    rw [removeOld_eq]
    rfl

theorem slotsWF_vacated (h : b.WF) : (b.vacated key).SlotsWF ∧ key ∉ (b.vacated key).dict := by
  have hb : SlotsWF { b with currentCacheSize := b.chargedSize } := ⟨h.size, h.slots⟩
  unfold vacated
  refine ⟨SlotsWF.drop ?_ key, notMem_drop _ _⟩
  cases b.victim with
  | none => exact hb
  | some v => exact hb.drop v

@[simp] theorem currentCacheSize_vacated : (b.vacated key).currentCacheSize = b.chargedSize := by
  unfold vacated
  cases b.victim <;> simp

@[simp] theorem currentCacheSize_evicted : (b.evicted key).currentCacheSize = b.chargedSize := by
  unfold evicted charged
  cases b.victim <;> simp

/-! ## What is left -/

theorem size_drop_if (b : LMCLocalBackend md K R) (key : K) :
    (b.drop key).dict.size + (if key ∈ b.dict then 1 else 0) = b.dict.size := by
  split_ifs with h
  · exact size_drop h
  · rw [drop, AList.lookup_eq_none.mpr h]
    rfl

/-- How many chunks are left when `put_blocking` takes its slot. -/
theorem size_evicted (hv : b.victim ≠ some key) :
    (b.evicted key).dict.size + (if key ∈ b.dict then 1 else 0) + b.victim.toList.length = b.dict.size := by
  have hold : (b.charged key).dict.size + (if key ∈ b.dict then 1 else 0) = b.dict.size :=
    size_drop_if { b with currentCacheSize := b.chargedSize } key
  unfold evicted
  cases hvictim : b.victim with
  | none => exact hold
  | some v =>
    have hvkey : v ≠ key := fun heq => hv (hvictim.trans (congrArg some heq))
    have hmem : v ∈ (b.charged key).dict := (mem_drop hvkey).mpr (victim_mem hvictim).2
    have hone := size_drop hmem
    show ((b.charged key).drop v).dict.size + _ + 1 = _
    omega

/-- How many are left when `put_nonblocking` does: a victim that is the old chunk leaves once. -/
theorem size_vacated :
    (b.vacated key).dict.size + (if key ∈ b.dict ∧ b.victim ≠ some key then 1 else 0) + b.victim.toList.length =
      b.dict.size := by
  unfold vacated
  cases hvictim : b.victim with
  | none =>
    have hold := size_drop_if { b with currentCacheSize := b.chargedSize } key
    simpa using hold
  | some v =>
    have hmem : v ∈ b.dict := (victim_mem hvictim).2
    have hone : (drop { b with currentCacheSize := b.chargedSize } v).dict.size + 1 = b.dict.size := size_drop hmem
    have hold := size_drop_if (drop { b with currentCacheSize := b.chargedSize } v) key
    have hiff : key ∈ (drop { b with currentCacheSize := b.chargedSize } v).dict ↔
        key ∈ b.dict ∧ some v ≠ some key := by
      by_cases hkv : key = v
      · subst hkv
        simp [notMem_drop]
      · rw [mem_drop hkv]
        have hne : some v ≠ some key := fun heq => hkv (Option.some.inj heq).symm
        simp [hne]
    have hif := if_congr hiff (rfl : 1 = 1) (rfl : 0 = 0)
    rw [hif] at hold
    show ((drop { b with currentCacheSize := b.chargedSize } v).drop key).dict.size + _ + 1 = _
    omega

/-- What the charge of a put adds to the ledger. -/
theorem chargedSize_eq (h : b.WF) (hfit : md.sizePerChunk ≤ md.maxBytes) :
    b.chargedSize + md.sizePerChunk * b.victim.toList.length = b.currentCacheSize + md.sizePerChunk := by
  unfold chargedSize
  cases hvictim : b.victim with
  | none =>
    rw [if_neg (h.victim_none hfit hvictim)]
    simp
  | some v =>
    rw [if_pos (victim_mem hvictim).1]
    simp

/-- A put that takes its slot in `m` and leaves the chunk of `key` there. -/
theorem store_of_room {m b' : LMCLocalBackend md K R} {old : ℕ} (h : b.WF) (hfit : md.sizePerChunk ≤ md.maxBytes)
    (hm : m.SlotsWF ∧ key ∉ m.dict) (hcur : m.currentCacheSize = b.chargedSize)
    (hsize : m.dict.size + old + b.victim.toList.length = b.dict.size) (hstore : m.store key kvChunk = .ok b') :
    b'.WF ∧ b'.currentCacheSize - md.sizePerChunk * b'.dict.size =
      b.currentCacheSize - md.sizePerChunk * b.dict.size + md.sizePerChunk * old := by
  obtain ⟨hslots, hsize', hcur', hne, -⟩ := hm.1.store_ok hm.2 hstore
  have hcharged := chargedSize_eq h hfit
  have hbound : b.chargedSize ≤ md.maxBytes := by
    unfold chargedSize
    split_ifs with hfull
    · exact h.limit
    · unfold Full at hfull
      omega
  have hcast : ((m.dict.size : ℤ) + old + b.victim.toList.length) = b.dict.size := by exact_mod_cast hsize
  have hgap : b'.currentCacheSize - md.sizePerChunk * b'.dict.size =
      b.currentCacheSize - md.sizePerChunk * b.dict.size + md.sizePerChunk * old := by
    rw [hcur', hcur, hsize', ← hcast]
    push_cast
    linarith
  refine ⟨⟨hslots, ?_, ?_, fun hempty => absurd hempty hne⟩, hgap⟩
  · have hcovers := h.covers
    have hold : (0 : ℤ) ≤ md.sizePerChunk * old := by exact_mod_cast Nat.zero_le _
    linarith
  · rw [hcur', hcur]
    exact hbound

/-- A put that takes its slot in `m` returns, and it leaves the ledger right exactly when no old chunk stayed in it. -/
theorem ledger_store_iff {m : LMCLocalBackend md K R} {old : ℕ} (h : b.WF) (hl : b.Ledger)
    (hfit : md.sizePerChunk ≤ md.maxBytes) (hlen : kvChunk.length ≤ md.chunkSize) (hm : m.SlotsWF ∧ key ∉ m.dict)
    (hcur : m.currentCacheSize = b.chargedSize) (hsize : m.dict.size + old + b.victim.toList.length = b.dict.size) :
    (∃ b', m.store key kvChunk = .ok b' ∧ b'.Ledger) ↔ old = 0 := by
  have hfree : m.dict.size < md.maxChunkNum := by
    have hlt : b.dict.size < md.maxChunkNum := by
      apply md.lt_maxChunkNum
      have hcovers := h.covers.trans h.limit
      exact_mod_cast hcovers
    omega
  obtain ⟨b', hb'⟩ := (hm.1.store_returns_iff hfree).mpr hlen
  obtain ⟨hw', hgap⟩ := store_of_room h hfit hm hcur hsize hb'
  have hledger : b'.Ledger ↔ old = 0 := by
    have hpos : (0 : ℤ) < md.sizePerChunk := by exact_mod_cast md.sizePerChunk_pos
    rw [ledger_iff hw', ← sub_eq_zero, hgap, (ledger_iff h).mp hl, sub_self, zero_add, mul_eq_zero]
    constructor
    · rintro (h0 | h0)
      · omega
      · exact_mod_cast h0
    · rintro rfl
      exact Or.inr rfl
  rw [hb']
  constructor
  · rintro ⟨b'', hok, hl'⟩
    exact hledger.mp (Except.ok.inj hok ▸ hl')
  · intro hold
    exact ⟨b', rfl, hledger.mpr hold⟩

end Put

/-! ## Runs -/

/-- The chunk a call puts, if it puts one. -/
def Call.kvChunk? : Call K R → Option (List R)
  | .op (.putBlocking _ kvChunk) => some kvChunk
  | .op (.get _) => none
  | .putNonblocking _ kvChunk => some kvChunk

/-- A put chunk fits a slot. -/
def ValidCall (md : LMCacheMemPoolMetadata) (c : Call K R) : Prop :=
  ∀ kvChunk, c.kvChunk? = some kvChunk → kvChunk.length ≤ md.chunkSize

/-- What a call has to meet: a put is refused, or its key is not there, or the worker's put evicts its own key. -/
def KeepsLedger (b : LMCLocalBackend md K R) : Call K R → Prop
  | .op (.putBlocking key _) => md.maxBytes < md.sizePerChunk ∨ key ∉ b.dict
  | .op (.get _) => True
  | .putNonblocking key _ => md.maxBytes < md.sizePerChunk ∨ key ∉ b.dict ∨ b.victim = some key

instance (b : LMCLocalBackend md K R) : ∀ c, Decidable (KeepsLedger b c)
  | .op (.putBlocking _ _) => inferInstanceAs (Decidable (_ ∨ _))
  | .op (.get _) => .isTrue trivial
  | .putNonblocking _ _ => inferInstanceAs (Decidable (_ ∨ _ ∨ _))

section Runs
variable {b b' : LMCLocalBackend md K R} {c : Call K R}

theorem putNonblocking_wf {key : K} {kvChunk : List R} (h : b.WF) (hput : b.putNonblocking key kvChunk = .ok b') :
    b'.WF := by
  by_cases hfit : md.sizePerChunk ≤ md.maxBytes
  · rw [putNonblocking_eq h hfit] at hput
    exact (store_of_room h hfit (slotsWF_vacated h) currentCacheSize_vacated size_vacated hput).1
  · rw [putNonblocking_refused (not_le.mp hfit)] at hput
    cases hput
    exact h

/-- Every call keeps the invariant. -/
theorem WF.call (h : b.WF) (hcall : b.call c = .ok b') : b'.WF := by
  cases c with
  | op o => exact h.step hcall
  | putNonblocking key kvChunk => exact putNonblocking_wf h hcall

theorem Ledger.get (h : b.WF) (hl : b.Ledger) (key : K) : (b.get key).2.Ledger := by
  rw [ledger_iff (h.get key)]
  unfold LMCLocalBackend.get
  cases hk : b.dict.lookup key with
  | none => exact (ledger_iff h).mp hl
  | some o =>
    rw [show (b.dict.moveToEnd key).size = b.dict.size from (b.dict.moveToEnd_perm key).length_eq]
    exact (ledger_iff h).mp hl

/-- **From a right ledger a call returns with a right one exactly under the condition.** -/
theorem keepsLedger_iff (hv : ValidCall md c) (h : b.WF) (hl : b.Ledger) :
    KeepsLedger b c ↔ ∃ b', b.call c = .ok b' ∧ b'.Ledger := by
  match c with
  | .op (.get key) => exact ⟨fun _ => ⟨_, rfl, hl.get h key⟩, fun _ => trivial⟩
  | .op (.putBlocking key kvChunk) =>
    show (_ ∨ _) ↔ ∃ b', b.putBlocking key kvChunk = .ok b' ∧ b'.Ledger
    by_cases hfit : md.sizePerChunk ≤ md.maxBytes
    · rw [or_iff_right (not_lt.mpr hfit)]
      by_cases hvictim : b.victim = some key
      · rw [putBlocking_victim h hfit hvictim]
        simp [(victim_mem hvictim).2]
      · obtain ⟨hslots, hkey, -⟩ := evicted_spec h hfit hvictim
        rw [putBlocking_of_ne h hfit hvictim, ledger_store_iff h hl hfit (hv _ rfl) ⟨hslots, hkey⟩
          currentCacheSize_evicted (size_evicted hvictim)]
        simp
    · rw [putBlocking_refused (not_le.mp hfit)]
      exact ⟨fun _ => ⟨b, rfl, hl⟩, fun _ => Or.inl (not_le.mp hfit)⟩
  | .putNonblocking key kvChunk =>
    show (_ ∨ _) ↔ ∃ b', b.putNonblocking key kvChunk = .ok b' ∧ b'.Ledger
    by_cases hfit : md.sizePerChunk ≤ md.maxBytes
    · rw [or_iff_right (not_lt.mpr hfit), putNonblocking_eq h hfit, ledger_store_iff h hl hfit (hv _ rfl)
        (slotsWF_vacated h) currentCacheSize_vacated size_vacated]
      simp only [ite_eq_right_iff, one_ne_zero, imp_false, not_and, not_not]
      exact (imp_iff_not_or).symm
    · rw [putNonblocking_refused (not_le.mp hfit)]
      exact ⟨fun _ => ⟨b, rfl, hl⟩, fun _ => Or.inl (not_le.mp hfit)⟩

/-- **The ledger is right in every state of a run, and no call raises, exactly when each call meets the condition in
the state it is executed in.** -/
theorem everyState_localLedger_iff (calls : List (Call K R)) (hcalls : ∀ c ∈ calls, ValidCall md c) :
    EveryState call Ledger (new md K R) calls ↔ Along call KeepsLedger (new md K R) calls :=
  (along_iff_everyState (fun _ _ _ _ hw hs => hw.call hs) (fun _ _ hv hw hl => keepsLedger_iff hv hw hl) hcalls wf_new
    ledger_new).symm

end Runs

/-! ## Runs on concrete inputs -/

/-- The worker puts a full chunk under the key `k`. -/
def workerPut (k : ℕ) : Call ℕ Unit := .putNonblocking k [(), ()]

theorem validCall_workerPut (k : ℕ) : ValidCall .threeChunks (workerPut k) := by
  rintro _ ⟨⟩
  decide

/-- Three chunks fill the cache; the worker's put of the oldest key evicts and replaces it. -/
theorem everyState_localLedger_full :
    EveryState call Ledger (new .threeChunks ℕ Unit) ([0, 1, 2, 0].map workerPut) := by
  apply (everyState_localLedger_iff _ ?_).mpr
  · decide +kernel
  · exact List.forall_mem_map.mpr fun k _ => validCall_workerPut k

/-- The third put under one key of two finds the ledger full of old sizes and evicts a chunk that would have fitted;
`put_blocking` of the oldest key of a full cache raises. -/
theorem overwrites_break_ledger :
    (∀ k, ValidCall .threeChunks (workerPut k)) ∧
      ¬ EveryState call Ledger (new .threeChunks ℕ Unit) ([0, 0].map workerPut) ∧
      raised? call (new .threeChunks ℕ Unit) ([0, 1, 2].map workerPut ++ [.op (.putBlocking 0 [(), ()])]) =
        some .keyError :=
  ⟨validCall_workerPut, by decide +kernel, by decide +kernel⟩

end FairCache.LMCLocalBackend
