import FairCache.Local.Ledger

/-!
# Blocking and non-blocking puts

`put_blocking` frees the old chunk of its key and then evicts; `put_nonblocking` evicts first. They take the same slot
where only one of the two happens.

* `SameContents` : the same chunks in the same order, under the same ledger;
* `Agree`, `AgreeUpToSlots` : both puts return to that, with the same free slots or with as many;
* `store_sameContents`, `perm_freePool_iff` : what the two leave when each took its slot;
* `puts_agree_iff` : where they agree.
-/

namespace FairCache.LMCLocalBackend

open Lib

variable {md : LMCacheMemPoolMetadata} {K R : Type} [DecidableEq K]

/-- The same chunks in the same order, under the same ledger. -/
structure SameContents (b b' : LMCLocalBackend md K R) : Prop where
  keys : b.dict.keys = b'.dict.keys
  find : ∀ j, b.find j = b'.find j
  ledger : b.currentCacheSize = b'.currentCacheSize

/-- **Both puts return, and they leave the same**: chunks, order, ledger and free slots. -/
def Agree (b : LMCLocalBackend md K R) (key : K) (kvChunk : List R) : Prop :=
  ∃ b₁ b₂, b.putBlocking key kvChunk = .ok b₁ ∧ b.putNonblocking key kvChunk = .ok b₂ ∧ SameContents b₁ b₂ ∧
    b₁.mpool.freePool.Perm b₂.mpool.freePool

/-- Both puts return, and they leave the same but for the names of the free slots. -/
def AgreeUpToSlots (b : LMCLocalBackend md K R) (key : K) (kvChunk : List R) : Prop :=
  ∃ b₁ b₂, b.putBlocking key kvChunk = .ok b₁ ∧ b.putNonblocking key kvChunk = .ok b₂ ∧ SameContents b₁ b₂ ∧
    b₁.mpool.freePool.length = b₂.mpool.freePool.length

theorem SameContents.refl (b : LMCLocalBackend md K R) : SameContents b b := ⟨rfl, fun _ => rfl, rfl⟩

section Put
variable {b m m' : LMCLocalBackend md K R} {key v : K} {kvChunk : List R} {b₁ b₂ : LMCLocalBackend md K R}

/-- Stores of one chunk keep states the same. -/
theorem store_sameContents (hm : m.SlotsWF) (hm' : m'.SlotsWF) (hkey : key ∉ m.dict) (hkey' : key ∉ m'.dict)
    (h : SameContents m m') (h₁ : m.store key kvChunk = .ok b₁) (h₂ : m'.store key kvChunk = .ok b₂) :
    SameContents b₁ b₂ := by
  obtain ⟨-, -, hcur₁, -, hfind₁⟩ := hm.store_ok hkey h₁
  obtain ⟨-, -, hcur₂, -, hfind₂⟩ := hm'.store_ok hkey' h₂
  refine ⟨?_, fun j => by rw [hfind₁, hfind₂, h.find], by rw [hcur₁, hcur₂, h.ledger]⟩
  have hkeys : ∀ {m b' : LMCLocalBackend md K R}, key ∉ m.dict → m.store key kvChunk = .ok b' →
      b'.dict.keys = m.dict.keys ++ [key] := by
    intro m b' hkey hstore
    unfold store at hstore
    cases ha : m.mpool.allocate kvChunk with
    | error e => rw [ha] at hstore; cases hstore
    | ok op =>
      rw [ha] at hstore
      cases hstore
      exact (Dict.keys_set _ _ _).trans (if_neg hkey)
  rw [hkeys hkey h₁, hkeys hkey' h₂, h.keys]

/-- A store takes the top free slot. -/
theorem freePool_store (h : m.store key kvChunk = .ok b₁) : ∃ idx, m.mpool.freePool = b₁.mpool.freePool ++ [idx] := by
  unfold store at h
  cases ha : m.mpool.allocate kvChunk with
  | error e => rw [ha] at h; cases h
  | ok op =>
    obtain ⟨o, p⟩ := op
    rw [ha] at h
    cases h
    exact ⟨o.chunkIdx, (LocalPool.allocate_ok ha).2.2.2.1⟩

/-- Where the key is new or nothing is evicted, the two puts take their slots in the same state. -/
theorem evicted_eq_vacated (h : key ∉ b.dict ∨ b.victim = none) : b.evicted key = b.vacated key := by
  unfold evicted vacated charged
  cases hv : b.victim with
  | none => rfl
  | some v =>
    have hkey : key ∉ b.dict := h.resolve_right (by rw [hv]; simp)
    have hnone : ∀ {m : LMCLocalBackend md K R}, key ∉ m.dict → m.drop key = m := by
      intro m hm
      rw [drop, AList.lookup_eq_none.mpr hm]
    have hold : drop { b with currentCacheSize := b.chargedSize } key = { b with currentCacheSize := b.chargedSize } :=
      hnone hkey
    show drop (drop { b with currentCacheSize := b.chargedSize } key) v = _
    rw [hold]
    refine (hnone ?_).symm
    have hvkey : key ≠ v := by
      rintro rfl
      exact hkey (victim_mem hv).2
    exact fun hm => hkey ((mem_drop (b := { b with currentCacheSize := b.chargedSize }) hvkey).mp hm)

/-- Where an old chunk leaves and another is evicted, the two puts take the slot of the chunk that left last. -/
theorem evicted_vacated (hv : b.victim = some v) (hne : v ≠ key) {o w : KVObj} (ho : b.dict.lookup key = some o)
    (hw : b.dict.lookup v = some w) :
    SameContents (b.evicted key) (b.vacated key) ∧
      (b.evicted key).mpool.freePool = b.mpool.freePool ++ [o.chunkIdx, w.chunkIdx] ∧
      (b.vacated key).mpool.freePool = b.mpool.freePool ++ [w.chunkIdx, o.chunkIdx] := by
  have hevicted : b.evicted key = { b with
      currentCacheSize := b.chargedSize, dict := (b.dict.erase key).erase v, mpool := (b.mpool.free o).free w } := by
    unfold evicted charged
    rw [hv]
    have hw' : (b.dict.erase key).lookup v = some w := Dict.lookup_erase_eq_some.mpr ⟨hne, hw⟩
    show (drop (drop { b with currentCacheSize := b.chargedSize } key) v) = _
    simp only [drop, ho, hw']
  have hvacated : b.vacated key = { b with
      currentCacheSize := b.chargedSize, dict := (b.dict.erase v).erase key, mpool := (b.mpool.free w).free o } := by
    unfold vacated
    rw [hv]
    have ho' : (b.dict.erase v).lookup key = some o := Dict.lookup_erase_eq_some.mpr ⟨hne.symm, ho⟩
    show (drop (drop { b with currentCacheSize := b.chargedSize } v) key) = _
    simp only [drop, hw, ho']
  have hdict : (b.dict.erase key).erase v = (b.dict.erase v).erase key := AList.erase_erase _ _ _
  rw [hevicted, hvacated]
  refine ⟨⟨?_, fun j => ?_, rfl⟩, ?_, ?_⟩
  · show ((b.dict.erase key).erase v).keys = _
    rw [hdict]
  · show (((b.dict.erase key).erase v).lookup j).map _ = _
    rw [hdict]
    rfl
  · simp [LocalPool.free]
  · simp [LocalPool.free]

/-! ## Where they agree -/

/-- The key's old chunk stays, or there is room. -/
theorem agree_of_room (h : b.WF) (hfit : md.sizePerChunk ≤ md.maxBytes) (hlen : kvChunk.length ≤ md.chunkSize)
    (hroom : key ∉ b.dict ∨ b.victim = none) : b.Agree key kvChunk := by
  have hv : b.victim ≠ some key := by
    intro hv
    rcases hroom with hkey | hnone
    · exact hkey (victim_mem hv).2
    · rw [hnone] at hv
      cases hv
  obtain ⟨b', hput⟩ := (putBlocking_returns_iff h).mpr (Or.inr ⟨hlen, hv⟩)
  refine ⟨b', b', hput, ?_, SameContents.refl b', List.Perm.refl _⟩
  rw [putNonblocking_eq h hfit, ← evicted_eq_vacated hroom, ← putBlocking_of_ne h hfit hv]
  exact hput

/-- Where an old chunk leaves and another is evicted, both puts return with the same contents, but each leaves another
slot free. -/
theorem puts_with_victim (h : b.WF) (hfit : md.sizePerChunk ≤ md.maxBytes) (hlen : kvChunk.length ≤ md.chunkSize)
    (hkey : key ∈ b.dict) (hv : b.victim = some v) (hne : v ≠ key) :
    ∃ b₁ b₂, b.putBlocking key kvChunk = .ok b₁ ∧ b.putNonblocking key kvChunk = .ok b₂ ∧ SameContents b₁ b₂ ∧
      b₁.mpool.freePool.length = b₂.mpool.freePool.length ∧ ¬ b₁.mpool.freePool.Perm b₂.mpool.freePool := by
  obtain ⟨o, ho⟩ := (Dict.mem_iff_lookup _ _).mp hkey
  obtain ⟨w, hw⟩ := (Dict.mem_iff_lookup _ _).mp (victim_mem hv).2
  have hvkey : b.victim ≠ some key := fun heq => hne (Option.some.inj (hv.symm.trans heq))
  obtain ⟨hsame, hfree₁, hfree₂⟩ := evicted_vacated hv hne ho hw
  obtain ⟨hslots₁, hnot₁, -⟩ := evicted_spec h hfit hvkey
  have hvacated : (b.vacated key).SlotsWF ∧ key ∉ (b.vacated key).dict := slotsWF_vacated h
  obtain ⟨hslots₂, hnot₂⟩ := hvacated
  obtain ⟨b₁, hb₁⟩ := (putBlocking_returns_iff h).mpr (Or.inr ⟨hlen, hvkey⟩)
  have hstore₁ : (b.evicted key).store key kvChunk = .ok b₁ := putBlocking_of_ne h hfit hvkey ▸ hb₁
  have hroom : (b.vacated key).dict.size < md.maxChunkNum := by
    have hsize : (b.vacated key).dict.keys.length = (b.evicted key).dict.keys.length := by rw [hsame.keys]
    have hlt := hslots₁.length_freePool
    rw [Dict.length_keys, Dict.length_keys] at hsize
    rw [hfree₁, List.length_append, List.length_cons] at hlt
    omega
  obtain ⟨b₂, hstore₂⟩ := (hslots₂.store_returns_iff hroom).mpr hlen
  refine ⟨b₁, b₂, hb₁, (putNonblocking_eq h hfit).trans hstore₂,
    store_sameContents hslots₁ hslots₂ hnot₁ hnot₂ hsame hstore₁ hstore₂, ?_⟩
  obtain ⟨i, hi⟩ := freePool_store hstore₁
  obtain ⟨j, hj⟩ := freePool_store hstore₂
  have hleft₁ : b₁.mpool.freePool = b.mpool.freePool ++ [o.chunkIdx] := by
    rw [hfree₁, List.append_cons] at hi
    exact (List.append_inj' hi rfl).1.symm
  have hleft₂ : b₂.mpool.freePool = b.mpool.freePool ++ [w.chunkIdx] := by
    rw [hfree₂, List.append_cons] at hj
    exact (List.append_inj' hj rfl).1.symm
  rw [hleft₁, hleft₂]
  refine ⟨by simp, fun hperm => ?_⟩
  have hnodup : (b.slots ++ b.mpool.freePool).Nodup := h.slots.nodup_iff.mpr List.nodup_range
  have hslot : o.chunkIdx = w.chunkIdx := by
    simpa using (List.perm_append_left_iff _).mp hperm
  exact Dict.ne_of_nodup_map (f := KVObj.chunkIdx) (List.nodup_append.mp hnodup).1 ho hw hne.symm hslot

/-- Puts of a chunk that exceeds a slot raise. -/
theorem length_le_of_putBlocking (h : b.WF) (hfit : md.sizePerChunk ≤ md.maxBytes)
    (hput : b.putBlocking key kvChunk = .ok b₁) : kvChunk.length ≤ md.chunkSize ∧ b.victim ≠ some key :=
  ((putBlocking_returns_iff h).mp ⟨b₁, hput⟩).resolve_left (not_lt.mpr hfit)

/-- **Where the puts agree**: the chunk exceeds the limit, or it fits a slot and its key is new or there is room. But for
the names of the free slots they agree wherever `put_blocking` returns, so unless the key is its own victim. -/
theorem puts_agree_iff {calls : List (Call K R)} (h : Reaches call (new md K R) calls b) (key : K) (kvChunk : List R) :
    (b.Agree key kvChunk ↔
      md.maxBytes < md.sizePerChunk ∨ (kvChunk.length ≤ md.chunkSize ∧ (key ∉ b.dict ∨ ¬ b.Full))) ∧
    (b.AgreeUpToSlots key kvChunk ↔ b.PutReturns key kvChunk) := by
  have hw : b.WF := reaches_kept (fun _ _ _ hw hs => hw.call hs) wf_new h
  by_cases hfit : md.sizePerChunk ≤ md.maxBytes
  · have hnone : b.victim = none ↔ ¬ b.Full := by
      refine ⟨hw.victim_none hfit, fun hfull => ?_⟩
      exact if_neg hfull
    unfold PutReturns
    rw [or_iff_right (not_lt.mpr hfit), or_iff_right (not_lt.mpr hfit), ← hnone]
    refine ⟨⟨?_, fun ⟨hlen, hroom⟩ => agree_of_room hw hfit hlen hroom⟩, ⟨?_, fun ⟨hlen, hv⟩ => ?_⟩⟩
    · rintro ⟨b₁, b₂, hb₁, hb₂, -, hperm⟩
      obtain ⟨hlen, hv⟩ := length_le_of_putBlocking hw hfit hb₁
      refine ⟨hlen, ?_⟩
      by_contra hnot
      rw [not_or, not_not] at hnot
      obtain ⟨v, hvictim⟩ := Option.ne_none_iff_exists'.mp hnot.2
      have hne : v ≠ key := fun heq => hv (hvictim.trans (congrArg some heq))
      obtain ⟨b₁', b₂', hb₁', hb₂', -, -, hnperm⟩ := puts_with_victim hw hfit hlen hnot.1 hvictim hne
      cases Except.ok.inj (hb₁.symm.trans hb₁')
      cases Except.ok.inj (hb₂.symm.trans hb₂')
      exact hnperm hperm
    · rintro ⟨b₁, b₂, hb₁, -⟩
      exact length_le_of_putBlocking hw hfit hb₁
    · by_cases hroom : key ∉ b.dict ∨ b.victim = none
      · obtain ⟨b₁, b₂, hb₁, hb₂, hsame, hperm⟩ := agree_of_room hw hfit hlen hroom
        exact ⟨b₁, b₂, hb₁, hb₂, hsame, hperm.length_eq⟩
      · rw [not_or, not_not] at hroom
        obtain ⟨v, hvictim⟩ := Option.ne_none_iff_exists'.mp hroom.2
        have hne : v ≠ key := fun heq => hv (hvictim.trans (congrArg some heq))
        obtain ⟨b₁, b₂, hb₁, hb₂, hsame, hlength, -⟩ := puts_with_victim hw hfit hlen hroom.1 hvictim hne
        exact ⟨b₁, b₂, hb₁, hb₂, hsame, hlength⟩
  · have hbig := not_le.mp hfit
    have hput : b.putBlocking key kvChunk = .ok b := putBlocking_refused hbig
    have hput' : b.putNonblocking key kvChunk = .ok b := putNonblocking_refused hbig
    exact ⟨iff_of_true ⟨b, b, hput, hput', SameContents.refl b, List.Perm.refl _⟩ (Or.inl hbig),
      iff_of_true ⟨b, b, hput, hput', SameContents.refl b, rfl⟩ (Or.inl hbig)⟩

end Put

/-! ## Runs on concrete inputs -/

/-- Two of three chunks are there: the puts of a fresh key agree. -/
theorem puts_agree_fresh_key :
    ∃ b, Reaches call (new .threeChunks ℕ Unit) ([0, 1].map workerPut) b ∧ b.Agree 5 [(), ()] := by
  have hrun : ∃ b, Reaches call (new .threeChunks ℕ Unit) ([0, 1].map workerPut) b ∧ 5 ∉ b.dict := by decide +kernel
  obtain ⟨b, hb, hkey⟩ := hrun
  exact ⟨b, hb, (puts_agree_iff hb 5 [(), ()]).1.mpr (Or.inr ⟨by decide, Or.inl hkey⟩)⟩

/-- The cache is full. `put_blocking` of its oldest key raises, as the key is evicted after it was freed. -/
theorem put_blocking_of_victim_raises :
    ∃ b, Reaches call (new .threeChunks ℕ Unit) ([0, 1, 2].map workerPut) b ∧
      b.putBlocking 0 [(), ()] = .error .keyError ∧ ¬ b.Agree 0 [(), ()] := by
  have hrun : ∃ b, Reaches call (new .threeChunks ℕ Unit) ([0, 1, 2].map workerPut) b ∧ b.victim = some 0 := by
    decide +kernel
  obtain ⟨b, hb, hv⟩ := hrun
  have hw : b.WF := reaches_kept (fun _ _ _ hw hs => hw.call hs) wf_new hb
  have hraise : b.putBlocking 0 [(), ()] = .error .keyError := putBlocking_victim hw (by decide +kernel) hv
  refine ⟨b, hb, hraise, ?_⟩
  rintro ⟨b₁, b₂, hb₁, -⟩
  rw [hraise] at hb₁
  cases hb₁

end FairCache.LMCLocalBackend
