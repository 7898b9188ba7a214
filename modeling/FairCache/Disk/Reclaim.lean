import FairCache.Disk.Backend
import Mathlib.Algebra.Order.BigOperators.Group.List
import Mathlib.Data.Set.Function

/-!
# Buffers of the local disk backend

A `get` of a resident key gives the buffer of its save back. An eviction takes the key and the file and leaves the save
in `future_pool`: then nobody gives the buffer back and the key is never put again, and the file may not even be there.

* `Reclaimable` : every buffer that is not free can still be given back, and no key is skipped that is not resident;
* `Safe` : an operation leaves that so and no eviction raises; `Meets` : when it does;
* `WF` : what operations that meet the condition keep; `safe_iff` : for one operation; `along_safe_iff` : for runs.
-/

namespace FairCache.LMCLocalDiskBackend

open Lib

variable {md : LMCacheMemPoolMetadata} {R : Type}

/-- **Buffers can be given back**: a slot that is not free belongs to a call in progress or to the save of a resident
key, and only resident keys are skipped. -/
structure Reclaimable (b : LMCLocalDiskBackend md R) : Prop where
  slots : ∀ i < md.maxChunkNum, i ∉ b.cpuMbufferpool.freePool →
    (∃ id p, b.puts.lookup id = some p ∧ p.slot? = some i) ∨
      ∃ key future kvObj, b.futurePool.lookup key = some (future, kvObj) ∧ kvObj.chunkIdx = i ∧ key ∈ b.dict
  notSkipped : ∀ key, key ∉ b.dict → key ∉ b.futurePool

/-- The operation evicts, or may. -/
def Op.Evicts : Op R → Prop
  | .enter _ _ _ => True
  | .evict _ => True
  | _ => False

/-- No eviction raises in the operation, and afterwards buffers can be given back. -/
def Safe (b : LMCLocalDiskBackend md R) (op : Op R) : Prop :=
  (op.Evicts → ∃ b', step b op = .ok b') ∧ ∀ b', step b op = .ok b' → Reclaimable b'

/-- The sizes that entries record. -/
def sizes (entries : List (Sigma fun _ : CacheEngineKey => DiskCacheMetadata)) : ℤ :=
  (entries.map fun e => (e.2.size : ℤ)).sum

/-- What a put has to meet that is neither skipped nor refused: the sizes of the resident chunks cover what is over the
limit, and no chunk is still in `future_pool` without which and the less recent ones the limit is exceeded. -/
structure MakesRoom (b : LMCLocalDiskBackend md R) (cacheSize : ℕ) : Prop where
  covered : cacheSize + b.currentCacheSize ≤ md.maxBytes + sizes b.dict.entries
  saved : ∀ x ∈ b.dict.entries.zipIdx,
    (md.maxBytes : ℤ) < cacheSize + b.currentCacheSize - sizes (b.dict.entries.take x.2) → x.1.1 ∉ b.futurePool

instance (b : LMCLocalDiskBackend md R) (cacheSize : ℕ) : Decidable (b.MakesRoom cacheSize) :=
  decidable_of_iff (cacheSize + b.currentCacheSize ≤ md.maxBytes + sizes b.dict.entries ∧
      ∀ x ∈ b.dict.entries.zipIdx,
        (md.maxBytes : ℤ) < cacheSize + b.currentCacheSize - sizes (b.dict.entries.take x.2) → x.1.1 ∉ b.futurePool)
    ⟨fun h => ⟨h.1, h.2⟩, fun h => ⟨h.covered, h.saved⟩⟩

/-- The call inserts next. -/
def insertsNext (b : LMCLocalDiskBackend md R) (id : ℕ) : Option CacheEngineKey :=
  (b.puts.lookup id).bind fun p =>
    match p.phase with
    | .submitted _ _ => some p.key
    | _ => none

/-- What an operation has to meet: a put makes room, and neither a put that inserts its entry nor an eviction finds the
key in `future_pool`. -/
def Meets (b : LMCLocalDiskBackend md R) : Op R → Prop
  | .enter id key kvChunk => id ∉ b.puts → key ∉ b.futurePool → md.kvBytes kvChunk.length ≤ md.maxBytes →
      b.MakesRoom (md.kvBytes kvChunk.length)
  | .resume id => ∀ key ∈ b.insertsNext id, key ∉ b.futurePool
  | .evict key => key ∉ b.futurePool
  | _ => True

instance (b : LMCLocalDiskBackend md R) : ∀ op : Op R, Decidable (Meets b op)
  | .enter _ _ _ => inferInstanceAs (Decidable (_ → _ → _ → _))
  | .resume _ => inferInstanceAs (Decidable (∀ key ∈ _, _))
  | .finish _ => isTrue trivial
  | .get _ => isTrue trivial
  | .evict _ => inferInstanceAs (Decidable (_ ∉ _))

/-! ## The evictor -/

theorem sizes_nonneg (entries : List (Sigma fun _ : CacheEngineKey => DiskCacheMetadata)) : 0 ≤ sizes entries := by
  refine List.sum_nonneg fun x hx => ?_
  obtain ⟨e, -, rfl⟩ := List.mem_map.mp hx
  exact Int.natCast_nonneg _

theorem sizes_cons (e : Sigma fun _ : CacheEngineKey => DiskCacheMetadata)
    (entries : List (Sigma fun _ : CacheEngineKey => DiskCacheMetadata)) :
    sizes (e :: entries) = e.2.size + sizes entries := List.sum_cons

theorem sizes_append (l l' : List (Sigma fun _ : CacheEngineKey => DiskCacheMetadata)) :
    sizes (l ++ l') = sizes l + sizes l' := by
  rw [sizes, List.map_append, List.sum_append]
  rfl

/-- The evictor finds room exactly when all entries together are enough. -/
theorem evictLoop_returns_iff {maxCacheSize cacheSize : ℕ}
    {entries : List (Sigma fun _ : CacheEngineKey => DiskCacheMetadata)} :
    ∀ {cur : ℤ}, (∃ r, evictLoop maxCacheSize cacheSize cur entries = .ok r) ↔
      cacheSize + cur ≤ maxCacheSize + sizes entries := by
  induction entries with
  | nil =>
    intro cur
    rw [evictLoop]
    split_ifs with h
    · exact iff_of_false (fun ⟨_, hr⟩ => (by cases hr)) (by simpa [sizes] using h)
    · exact iff_of_true ⟨_, rfl⟩ (by simpa [sizes] using h)
  | cons e entries ih =>
    intro cur
    have hnonneg := sizes_nonneg entries
    rw [evictLoop, sizes_cons]
    split_ifs with h
    · have hrec := @ih (cur - e.2.size)
      have hmap : (∃ r, (evictLoop maxCacheSize cacheSize (cur - e.2.size) entries).map (fun r => (e.1 :: r.1, r.2)) =
          .ok r) ↔ ∃ r, evictLoop maxCacheSize cacheSize (cur - e.2.size) entries = .ok r := by
        cases evictLoop maxCacheSize cacheSize (cur - e.2.size) entries with
        | error e => exact ⟨fun ⟨_, hr⟩ => (by cases hr), fun ⟨_, hr⟩ => (by cases hr)⟩
        | ok r => exact ⟨fun _ => ⟨r, rfl⟩, fun _ => ⟨_, rfl⟩⟩
      rw [hmap, hrec]
      constructor <;> intro hle <;> omega
    · exact iff_of_true ⟨_, rfl⟩ (by omega)

/-- Its victims are the first entries, as many as it takes. -/
theorem evictLoop_ok {maxCacheSize cacheSize : ℕ}
    {entries : List (Sigma fun _ : CacheEngineKey => DiskCacheMetadata)} :
    ∀ {cur cur' : ℤ} {ks : List CacheEngineKey}, evictLoop maxCacheSize cacheSize cur entries = .ok (ks, cur') →
      ∃ n, ks = (entries.take n).map (·.1) ∧ cacheSize + cur - sizes (entries.take n) ≤ maxCacheSize ∧
        ∀ j < n, maxCacheSize < cacheSize + cur - sizes (entries.take j) := by
  induction entries with
  | nil =>
    intro cur cur' ks h
    rw [evictLoop] at h
    split_ifs at h with hfull
    cases h
    refine ⟨0, rfl, ?_, fun j hj => absurd hj (Nat.not_lt_zero j)⟩
    simpa [sizes] using hfull
  | cons e entries ih =>
    intro cur cur' ks h
    rw [evictLoop] at h
    split_ifs at h with hfull
    · obtain ⟨⟨ks', cur''⟩, hrec, hr⟩ := map_ok h
      cases hr
      obtain ⟨n, rfl, hroom, hfirst⟩ := ih hrec
      refine ⟨n + 1, rfl, ?_, fun j hj => ?_⟩
      · rw [List.take_succ_cons, sizes_cons]
        omega
      · cases j with
        | zero => simpa [sizes] using hfull
        | succ j =>
          have := hfirst j (Nat.lt_of_succ_lt_succ hj)
          rw [List.take_succ_cons, sizes_cons]
          omega
    · cases h
      refine ⟨0, rfl, ?_, fun j hj => absurd hj (Nat.not_lt_zero j)⟩
      simpa [sizes] using hfull

/-! ## What the operations keep -/

/-- The slots that calls in progress hold. -/
def putSlots (b : LMCLocalDiskBackend md R) : List ℕ := b.puts.entries.filterMap fun e => e.2.slot?

/-- The slots of the chunks that are being saved or were not read since. -/
def futureSlots (b : LMCLocalDiskBackend md R) : List ℕ := b.futurePool.entries.map fun e => e.2.2.chunkIdx

/-- Each slot is free or in one place, chunks that are being saved are resident, and every other resident chunk has its
file. `S` are the keys that are put. -/
structure WF (S : Set CacheEngineKey) (b : LMCLocalDiskBackend md R) : Prop where
  slots : (b.cpuMbufferpool.freePool ++ (b.putSlots ++ b.futureSlots)).Perm (List.range md.maxChunkNum)
  resident : ∀ key ∈ b.futurePool, key ∈ b.dict
  put : ∀ id p, b.puts.lookup id = some p → p.key ∈ S
  known : ∀ key ∈ b.dict, key ∈ S
  path : ∀ key metadata, b.dict.lookup key = some metadata → metadata.path = b.keyToPath key
  file : ∀ key ∈ b.dict, key ∉ b.futurePool → b.keyToPath key ∈ b.files

variable {S : Set CacheEngineKey} {b b' : LMCLocalDiskBackend md R}

theorem wf_new (S : Set CacheEngineKey) (path : String) : (new md R path).WF S where
  slots := List.Perm.of_eq (List.append_nil _)
  resident key h := absurd h (AList.notMem_empty key)
  put id p h := by cases h
  known key h := absurd h (AList.notMem_empty key)
  path key metadata h := by cases h
  file key h := absurd h (AList.notMem_empty key)

theorem mem_putSlots {i : ℕ} : i ∈ b.putSlots ↔ ∃ id p, b.puts.lookup id = some p ∧ p.slot? = some i := by
  rw [putSlots, List.mem_filterMap]
  constructor
  · rintro ⟨e, he, hslot⟩
    exact ⟨e.1, e.2, (Dict.lookup_eq_some_iff _ e.1 e.2).mpr he, hslot⟩
  · rintro ⟨id, p, hp, hslot⟩
    exact ⟨⟨id, p⟩, (Dict.lookup_eq_some_iff _ id p).mp hp, hslot⟩

theorem mem_futureSlots {i : ℕ} :
    i ∈ b.futureSlots ↔ ∃ key future kvObj, b.futurePool.lookup key = some (future, kvObj) ∧ kvObj.chunkIdx = i := by
  rw [futureSlots, List.mem_map]
  constructor
  · rintro ⟨e, he, hslot⟩
    exact ⟨e.1, e.2.1, e.2.2, (Dict.lookup_eq_some_iff _ e.1 e.2).mpr he, hslot⟩
  · rintro ⟨key, future, kvObj, hp, hslot⟩
    exact ⟨⟨key, (future, kvObj)⟩, (Dict.lookup_eq_some_iff _ key _).mp hp, hslot⟩

/-- Buffers can be given back exactly when each slot is somewhere and what is being saved is resident. -/
theorem reclaimable_iff : b.Reclaimable ↔
    (∀ i < md.maxChunkNum, i ∈ b.cpuMbufferpool.freePool ++ (b.putSlots ++ b.futureSlots)) ∧
      ∀ key ∈ b.futurePool, key ∈ b.dict := by
  constructor
  · intro h
    refine ⟨fun i hi => ?_, fun key hkey => ?_⟩
    · rw [List.mem_append, List.mem_append, mem_putSlots, mem_futureSlots]
      by_cases hfree : i ∈ b.cpuMbufferpool.freePool
      · exact Or.inl hfree
      · rcases h.slots i hi hfree with hput | ⟨key, future, kvObj, hlookup, hidx, -⟩
        · exact Or.inr (Or.inl hput)
        · exact Or.inr (Or.inr ⟨key, future, kvObj, hlookup, hidx⟩)
    · by_contra hdict
      exact h.notSkipped key hdict hkey
  · rintro ⟨hslots, hresident⟩
    refine ⟨fun i hi hfree => ?_, fun key hdict hkey => hdict (hresident key hkey)⟩
    have hsomewhere := hslots i hi
    rw [List.mem_append, List.mem_append, mem_putSlots, mem_futureSlots] at hsomewhere
    rcases hsomewhere with hin | hput | ⟨key, future, kvObj, hlookup, hidx⟩
    · exact absurd hin hfree
    · exact Or.inl hput
    · exact Or.inr ⟨key, future, kvObj, hlookup, hidx, hresident key (Dict.mem_of_lookup hlookup)⟩

theorem WF.reclaimable (h : b.WF S) : b.Reclaimable :=
  reclaimable_iff.mpr ⟨fun _ hi => h.slots.mem_iff.mpr (List.mem_range.mpr hi), h.resident⟩

/-! ## Evictions -/

/-- What an eviction leaves alone. -/
structure SameBuffers (b b' : LMCLocalDiskBackend md R) : Prop where
  path : b'.path = b.path
  futurePool : b'.futurePool = b.futurePool
  cpuMbufferpool : b'.cpuMbufferpool = b.cpuMbufferpool
  puts : b'.puts = b.puts

theorem SameBuffers.trans {b'' : LMCLocalDiskBackend md R} (h : SameBuffers b b') (h' : SameBuffers b' b'') :
    SameBuffers b b'' :=
  ⟨h'.path.trans h.path, h'.futurePool.trans h.futurePool, h'.cpuMbufferpool.trans h.cpuMbufferpool,
    h'.puts.trans h.puts⟩

theorem remove_ok {key : CacheEngineKey} (h : b.remove key = .ok b') :
    SameBuffers b b' ∧ ∀ j, j ∈ b'.dict ↔ j ≠ key ∧ j ∈ b.dict := by
  unfold remove at h
  cases hk : b.dict.lookup key with
  | none => rw [hk] at h; cases h
  | some metadata =>
    rw [hk] at h
    dsimp only at h
    split_ifs at h
    cases h
    exact ⟨⟨rfl, rfl, rfl, rfl⟩, fun j => AList.mem_erase⟩

/-- A resident chunk that is not being saved can be evicted. -/
theorem WF.exists_remove (hS : Set.InjOn fileName S) (h : b.WF S) {key : CacheEngineKey} (hkey : key ∈ b.dict)
    (hsaved : key ∉ b.futurePool) : ∃ b', b.remove key = .ok b' ∧ b'.WF S := by
  obtain ⟨metadata, hm⟩ := (Dict.mem_iff_lookup _ _).mp hkey
  have hpath := h.path key metadata hm
  have hfile : metadata.path ∈ b.files := hpath ▸ h.file key hkey hsaved
  refine ⟨{ b with dict := b.dict.erase key, files := b.files.erase metadata.path }, ?_, ?_⟩
  · rw [remove, hm]
    exact if_pos hfile
  · refine ⟨h.slots, fun j hj => ?_, h.put, fun j hj => h.known j (AList.mem_erase.mp hj).2, fun j m hj => ?_,
      fun j hj hjsaved => ?_⟩
    · refine AList.mem_erase.mpr ⟨?_, h.resident j hj⟩
      rintro rfl
      exact hsaved hj
    · exact h.path j m (Dict.lookup_erase_eq_some.mp hj).2
    · obtain ⟨hne, hj⟩ := AList.mem_erase.mp hj
      refine AList.mem_erase.mpr ⟨fun heq => hne ?_, h.file j hj hjsaved⟩
      -- two keys that are put have different files
      rw [hpath] at heq
      exact hS (h.known j hj) (h.known key hkey) (String.append_right_inj b.path |>.mp heq)

theorem foldlM_remove_ok {ks : List CacheEngineKey} :
    ∀ {b b' : LMCLocalDiskBackend md R}, ks.foldlM remove b = .ok b' →
      SameBuffers b b' ∧ ∀ j, j ∈ b'.dict ↔ j ∉ ks ∧ j ∈ b.dict := by
  induction ks with
  | nil =>
    intro b b' h
    cases h
    exact ⟨⟨rfl, rfl, rfl, rfl⟩, fun j => (and_iff_right List.not_mem_nil).symm⟩
  | cons key ks ih =>
    intro b b' h
    rw [List.foldlM_cons] at h
    obtain ⟨b₁, hremove, hrest⟩ := bind_ok h
    obtain ⟨hsame, hmem⟩ := remove_ok hremove
    obtain ⟨hsame', hmem'⟩ := ih hrest
    refine ⟨hsame.trans hsame', fun j => ?_⟩
    rw [hmem', hmem, List.mem_cons, not_or, ← and_assoc, and_comm (a := j ∉ ks)]

/-- So can several of them. -/
theorem WF.exists_foldlM_remove (hS : Set.InjOn fileName S) {ks : List CacheEngineKey} :
    ∀ {b : LMCLocalDiskBackend md R}, b.WF S → ks.Nodup → (∀ key ∈ ks, key ∈ b.dict ∧ key ∉ b.futurePool) →
      ∃ b', ks.foldlM remove b = .ok b' ∧ b'.WF S := by
  induction ks with
  | nil => intro b h _ _; exact ⟨b, rfl, h⟩
  | cons key ks ih =>
    intro b h hks hmem
    obtain ⟨hkey, hks⟩ := List.nodup_cons.mp hks
    obtain ⟨hdict, hsaved⟩ := hmem key List.mem_cons_self
    obtain ⟨b₁, hremove, h₁⟩ := h.exists_remove hS hdict hsaved
    obtain ⟨hsame, hmem₁⟩ := remove_ok hremove
    obtain ⟨b', hrest, h'⟩ := ih h₁ hks fun j hj => by
      obtain ⟨hj', hjsaved⟩ := hmem j (List.mem_cons_of_mem _ hj)
      refine ⟨(hmem₁ j).mpr ⟨?_, hj'⟩, hsame.futurePool ▸ hjsaved⟩
      rintro rfl
      exact hkey hj
    refine ⟨b', ?_, h'⟩
    rw [List.foldlM_cons, hremove]
    exact hrest

/-- A new ledger changes nothing else. -/
theorem WF.setLedger (h : b.WF S) (cur : ℤ) : WF S { b with currentCacheSize := cur } :=
  ⟨h.slots, h.resident, h.put, h.known, h.path, h.file⟩

/-! ## Puts -/

/-- The slots of the calls when one of them takes another form. -/
theorem putSlots_set (puts : Dict ℕ (PutCall R)) (id : ℕ) (p : PutCall R) :
    ((puts.set id p).entries.filterMap fun e => e.2.slot?).Perm
      (p.slot?.toList ++ (puts.erase id).entries.filterMap fun e => e.2.slot?) := by
  refine ((Dict.set_perm puts id p).filterMap _).trans (List.Perm.of_eq ?_)
  rw [List.filterMap_cons]
  cases p.slot? <;> rfl

theorem putSlots_erase {puts : Dict ℕ (PutCall R)} {id : ℕ} {p : PutCall R} (h : puts.lookup id = some p) :
    (puts.entries.filterMap fun e => e.2.slot?).Perm
      (p.slot?.toList ++ (puts.erase id).entries.filterMap fun e => e.2.slot?) := by
  refine ((Dict.entries_perm_erase h).filterMap _).trans (List.Perm.of_eq ?_)
  rw [List.filterMap_cons]
  cases p.slot? <;> rfl

/-- A call that waits holds no slot yet. -/
theorem WF.wait (h : b.WF S) {id : ℕ} (hid : id ∉ b.puts) {key : CacheEngineKey} (hkey : key ∈ S) (kvChunk : List R) :
    WF S { b with puts := b.puts.set id { key := key, kvChunk := kvChunk, phase := .waiting } } := by
  refine ⟨?_, h.resident, fun j p hj => ?_, h.known, h.path, h.file⟩
  · refine List.Perm.trans ?_ h.slots
    refine List.Perm.append_left _ (List.Perm.append_right _ ?_)
    refine (putSlots_set b.puts id _).trans ?_
    rw [Dict.erase_of_notMem hid]
    exact List.Perm.refl _
  · have hlookup : (b.puts.set id { key := key, kvChunk := kvChunk, phase := .waiting }).lookup j = some p := hj
    rw [Dict.lookup_set] at hlookup
    split_ifs at hlookup
    · cases hlookup
      exact hkey
    · exact h.put j p hlookup

/-- What the first section of a put does that is neither skipped nor refused. -/
theorem enter_ok_iff {id : ℕ} {key : CacheEngineKey} {kvChunk : List R} (hfuture : key ∉ b.futurePool)
    (hfit : md.kvBytes kvChunk.length ≤ md.maxBytes) :
    b.enter id key kvChunk = .ok b' ↔ ∃ ks cur b₁,
      evictLoop md.maxBytes (md.kvBytes kvChunk.length) b.currentCacheSize b.dict.entries = .ok (ks, cur) ∧
      ks.foldlM remove { b with currentCacheSize := cur + md.kvBytes kvChunk.length } = .ok b₁ ∧
      b' = { b₁ with puts := b₁.puts.set id { key := key, kvChunk := kvChunk, phase := .waiting } } := by
  rw [enter, if_neg hfuture, updateOnPut, if_neg (not_lt.mpr hfit)]
  cases evictLoop md.maxBytes (md.kvBytes kvChunk.length) b.currentCacheSize b.dict.entries with
  | error e =>
    constructor
    · intro h; cases h
    · rintro ⟨ks, cur, b₁, h, -⟩; cases h
  | ok r =>
    obtain ⟨ks, cur⟩ := r
    constructor
    · intro h
      obtain ⟨b₁, hremove, h⟩ := bind_ok h
      cases h
      exact ⟨ks, cur, b₁, rfl, hremove, rfl⟩
    · rintro ⟨ks', cur', b₁, h, hremove, rfl⟩
      cases h
      show (ks.foldlM remove _ >>= _) = _
      rw [hremove]
      rfl

/-- The victims of a put that makes room were saved and read. -/
theorem WF.exists_enter (hS : Set.InjOn fileName S) (h : b.WF S) {id : ℕ} (hid : id ∉ b.puts) {key : CacheEngineKey}
    (hkey : key ∈ S) {kvChunk : List R} (hfuture : key ∉ b.futurePool)
    (hfit : md.kvBytes kvChunk.length ≤ md.maxBytes) (hroom : b.MakesRoom (md.kvBytes kvChunk.length)) :
    ∃ b', b.enter id key kvChunk = .ok b' ∧ b'.WF S := by
  obtain ⟨⟨ks, cur⟩, hloop⟩ := evictLoop_returns_iff.mpr hroom.covered
  obtain ⟨n, rfl, -, hfirst⟩ := evictLoop_ok hloop
  have hnodup : ((b.dict.entries.take n).map (·.1)).Nodup := by
    rw [List.map_take]
    exact b.dict.keys_nodup.sublist (List.take_sublist _ _)
  have hvictims : ∀ k ∈ (b.dict.entries.take n).map (·.1), k ∈ b.dict ∧ k ∉ b.futurePool := by
    intro k hk
    obtain ⟨e, he, rfl⟩ := List.mem_map.mp hk
    obtain ⟨j, hj, hget⟩ := List.mem_take_iff_getElem.mp he
    have hlookup : b.dict.entries[j]? = some e := by
      rw [List.getElem?_eq_getElem (lt_of_lt_of_le hj (min_le_right _ _)), hget]
    refine ⟨Dict.mem_of_lookup ((Dict.lookup_eq_some_iff _ e.1 e.2).mpr (List.mem_of_getElem? hlookup)), ?_⟩
    refine hroom.saved (e, j) ?_ (hfirst j (lt_of_lt_of_le hj (min_le_left _ _)))
    exact List.mk_mem_zipIdx_iff_getElem?.mpr hlookup
  obtain ⟨b₁, hremove, h₁⟩ := (h.setLedger (cur + md.kvBytes kvChunk.length)).exists_foldlM_remove hS hnodup hvictims
  obtain ⟨hsame, -⟩ := foldlM_remove_ok hremove
  exact ⟨_, (enter_ok_iff hfuture hfit).mpr ⟨_, cur, b₁, hloop, hremove, rfl⟩, h₁.wait (hsame.puts ▸ hid) hkey kvChunk⟩

/-- A put that leaves buffers reclaimable made room. -/
theorem makesRoom_of_enter {id : ℕ} {key : CacheEngineKey} {kvChunk : List R} (hfuture : key ∉ b.futurePool)
    (hfit : md.kvBytes kvChunk.length ≤ md.maxBytes) (henter : b.enter id key kvChunk = .ok b')
    (h' : b'.Reclaimable) : b.MakesRoom (md.kvBytes kvChunk.length) := by
  obtain ⟨ks, cur, b₁, hloop, hremove, rfl⟩ := (enter_ok_iff hfuture hfit).mp henter
  refine ⟨evictLoop_returns_iff.mp ⟨_, hloop⟩, fun x hx hover => ?_⟩
  obtain ⟨n, rfl, hroom, -⟩ := evictLoop_ok hloop
  obtain ⟨hsame, hmem⟩ := foldlM_remove_ok hremove
  have hget : b.dict.entries[x.2]? = some x.1 := List.mk_mem_zipIdx_iff_getElem?.mp hx
  -- the entry is one of the victims, since the sizes of the victims are enough
  have hlt : x.2 < n := by
    by_contra hle
    have htake := List.take_append_drop n (b.dict.entries.take x.2)
    rw [List.take_take, min_eq_left (not_lt.mp hle)] at htake
    have hsum := congrArg sizes htake
    rw [sizes_append] at hsum
    have := sizes_nonneg ((b.dict.entries.take x.2).drop n)
    omega
  have hvictim : x.1.1 ∈ (b.dict.entries.take n).map (·.1) := by
    refine List.mem_map_of_mem ?_
    rw [List.mem_iff_getElem?]
    exact ⟨x.2, (List.getElem?_take_of_lt hlt).trans hget⟩
  have hgone := h'.notSkipped x.1.1 fun hin => ((hmem x.1.1).mp hin).1 hvictim
  rwa [show ({ b₁ with puts := _ } : LMCLocalDiskBackend md R).futurePool = _ from hsame.futurePool] at hgone

/-! ## The rest of a put -/

/-- What `allocateBuffer` takes: the top free slot. -/
theorem allocateBuffer_ok {p p' : LocalPool md R} {kvChunk : List R} {kvObj : KVObj}
    (h : p.allocateBuffer kvChunk = .ok (some (kvObj, p'))) : p.freePool = p'.freePool ++ [kvObj.chunkIdx] := by
  unfold LocalPool.allocateBuffer at h
  split_ifs at h
  cases hl : p.freePool.getLast? with
  | none => rw [hl] at h; cases h
  | some idx =>
    rw [hl] at h
    cases h
    exact (List.dropLast_append_getLast? idx hl).symm

/-- A call that takes another form with the same key. -/
theorem WF.put_set (h : b.WF S) {id : ℕ} {p p' : PutCall R} (hp : b.puts.lookup id = some p) (hkey : p'.key = p.key) :
    ∀ j q, (b.puts.set id p').lookup j = some q → q.key ∈ S := by
  intro j q hq
  rw [Dict.lookup_set] at hq
  split_ifs at hq
  · cases hq
    exact hkey ▸ h.put id p hp
  · exact h.put j q hq

theorem WF.allocate (h : b.WF S) {id : ℕ} {p : PutCall R} (hp : b.puts.lookup id = some p) (hslot : p.slot? = none)
    (hstep : b.allocate id p = .ok b') : b'.WF S := by
  unfold LMCLocalDiskBackend.allocate at hstep
  cases ha : b.cpuMbufferpool.allocateBuffer p.kvChunk with
  | error e => rw [ha] at hstep; cases hstep
  | ok taken =>
    rw [ha] at hstep
    cases taken with
    | none => cases hstep; exact h
    | some taken =>
      obtain ⟨kvObj, pool⟩ := taken
      cases hstep
      refine ⟨?_, h.resident, h.put_set hp rfl, h.known, h.path, h.file⟩
      have hslots := h.slots
      rw [allocateBuffer_ok ha, List.append_assoc] at hslots
      refine List.Perm.trans ?_ hslots
      refine List.Perm.append_left _ ?_
      rw [← List.append_assoc]
      refine List.Perm.append_right _ ?_
      refine (putSlots_set b.puts id _).trans (List.Perm.append_left _ ?_)
      have herase := putSlots_erase hp
      rw [hslot] at herase
      exact herase.symm

theorem WF.submit (h : b.WF S) {id : ℕ} {p : PutCall R} {kvObj : KVObj} (hp : b.puts.lookup id = some p)
    (hslot : p.slot? = some kvObj.chunkIdx) : (b.submit id p kvObj).WF S := by
  refine ⟨?_, h.resident, h.put_set hp rfl, h.known, h.path, h.file⟩
  refine List.Perm.trans ?_ h.slots
  refine List.Perm.append_left _ (List.Perm.append_right _ ?_)
  refine (putSlots_set b.puts id _).trans ?_
  have herase := putSlots_erase hp
  rw [hslot] at herase
  exact herase.symm

/-- The slots of the saves when one is recorded. -/
theorem futureSlots_set (futurePool : Dict CacheEngineKey (ℕ × KVObj)) (key : CacheEngineKey) (future : ℕ)
    (kvObj : KVObj) : ((futurePool.set key (future, kvObj)).entries.map fun e => e.2.2.chunkIdx).Perm
      (kvObj.chunkIdx :: (futurePool.erase key).entries.map fun e => e.2.2.chunkIdx) :=
  (Dict.set_perm futurePool key (future, kvObj)).map _

theorem putSlots_insert {id : ℕ} {p : PutCall R} {kvObj : KVObj} (hp : b.puts.lookup id = some p)
    (hslot : p.slot? = some kvObj.chunkIdx) (future : ℕ) :
    b.putSlots.Perm (kvObj.chunkIdx :: (b.insert id p kvObj future).putSlots) := by
  have herase := putSlots_erase hp
  rw [hslot] at herase
  exact herase

/-- **A put that inserts its entry keeps the slots exactly when it overwrites no save.** -/
theorem WF.insert_iff (h : b.WF S) {id : ℕ} {p : PutCall R} {kvObj : KVObj} {future : ℕ}
    (hp : b.puts.lookup id = some p) (hslot : p.slot? = some kvObj.chunkIdx) :
    (p.key ∉ b.futurePool ↔ (b.insert id p kvObj future).Reclaimable) ∧
      (p.key ∉ b.futurePool → (b.insert id p kvObj future).WF S) := by
  have hput := putSlots_insert hp hslot future
  have hwf : p.key ∉ b.futurePool → (b.insert id p kvObj future).WF S := by
    intro hkey
    refine ⟨?_, fun j hj => ?_, fun j q hq => ?_, fun j hj => ?_, fun j m hj => ?_, fun j hj hjsaved => ?_⟩
    · refine List.Perm.trans (List.Perm.append_left _ ?_) h.slots
      have hfuture := futureSlots_set b.futurePool p.key future kvObj
      rw [Dict.erase_of_notMem hkey] at hfuture
      refine (hfuture.append_left _).trans ?_
      exact List.perm_middle.trans (hput.symm.append_right b.futureSlots)
    · rcases (Dict.mem_set _ _ _ _).mp hj with rfl | hj
      · exact (Dict.mem_set _ _ _ _).mpr (Or.inl rfl)
      · exact (Dict.mem_set _ _ _ _).mpr (Or.inr (h.resident j hj))
    · exact h.put j q (Dict.lookup_erase_eq_some.mp hq).2
    · rcases (Dict.mem_set _ _ _ _).mp hj with rfl | hj
      · exact h.put id p hp
      · exact h.known j hj
    · have hlookup : (b.dict.set p.key { path := b.keyToPath p.key, size := kvObj.size }).lookup j = some m := hj
      rw [Dict.lookup_set] at hlookup
      split_ifs at hlookup with heq
      · cases hlookup
        rw [heq]
        rfl
      · exact h.path j m hlookup
    · have hne : j ≠ p.key := by
        rintro rfl
        exact hjsaved ((Dict.mem_set _ _ _ _).mpr (Or.inl rfl))
      refine h.file j (((Dict.mem_set _ _ _ _).mp hj).resolve_left hne) fun hin => ?_
      exact hjsaved ((Dict.mem_set _ _ _ _).mpr (Or.inr hin))
  refine ⟨⟨fun hkey => (hwf hkey).reclaimable, fun hreclaim hkey => ?_⟩, hwf⟩
  -- one slot too few is left, since the overwritten save is lost
  have hcover := (reclaimable_iff.mp hreclaim).1
  have hle : md.maxChunkNum ≤ _ := List.length_range ▸
    (List.subperm_of_subset List.nodup_range fun i hi => hcover i (List.mem_range.mp hi)).length_le
  have hlen := h.slots.length_eq
  have hsize : (b.insert id p kvObj future).futureSlots.length = b.futureSlots.length := by
    have hset : (b.insert id p kvObj future).futurePool.size = b.futurePool.size := Dict.size_set_of_mem _ hkey
    rw [futureSlots, futureSlots, List.length_map, List.length_map]
    exact hset
  have hputlen := hput.length_eq
  have hfree : (b.insert id p kvObj future).cpuMbufferpool.freePool = b.cpuMbufferpool.freePool := rfl
  rw [List.length_append, List.length_append, hfree, hsize] at hle
  rw [List.length_append, List.length_append, List.length_range] at hlen
  rw [List.length_cons] at hputlen
  omega

/-! ## Saves and reads -/

theorem WF.finish (h : b.WF S) (future : ℕ) : (b.finish future).WF S := by
  unfold LMCLocalDiskBackend.finish
  cases b.saves[future]? with
  | none => exact h
  | some save =>
    dsimp only
    split_ifs
    · exact h
    · refine ⟨h.slots, h.resident, h.put, h.known, h.path, fun key hkey hsaved => ?_⟩
      exact (Dict.mem_set _ _ _ _).mpr (Or.inr (h.file key hkey hsaved))

theorem WF.moveToEnd (h : b.WF S) (key : CacheEngineKey) : WF S { b with dict := b.dict.moveToEnd key } := by
  have hmem : ∀ j, j ∈ b.dict.moveToEnd key ↔ j ∈ b.dict := by
    intro j
    rw [Dict.mem_iff_lookup, Dict.mem_iff_lookup, Dict.lookup_moveToEnd]
  refine ⟨h.slots, fun j hj => (hmem j).mpr (h.resident j hj), h.put, fun j hj => h.known j ((hmem j).mp hj),
    fun j m hj => ?_, fun j hj => h.file j ((hmem j).mp hj)⟩
  have hlookup : (b.dict.moveToEnd key).lookup j = some m := hj
  rw [Dict.lookup_moveToEnd] at hlookup
  exact h.path j m hlookup

/-- The buffer of a saved chunk whose file is there goes back to the free slots. -/
theorem WF.reclaim (h : b.WF S) {key : CacheEngineKey} (hfile : b.keyToPath key ∈ b.files)
    (hreclaim : b.reclaim key = some b') : b'.WF S := by
  unfold LMCLocalDiskBackend.reclaim at hreclaim
  cases hl : b.futurePool.lookup key with
  | none =>
    rw [hl] at hreclaim
    cases hreclaim
    exact h
  | some saved =>
    obtain ⟨future, kvObj⟩ := saved
    rw [hl] at hreclaim
    dsimp only at hreclaim
    split_ifs at hreclaim
    cases hreclaim
    refine ⟨?_, fun j hj => h.resident j (AList.mem_erase.mp hj).2, h.put, h.known, h.path, fun j hj hjsaved => ?_⟩
    · have hperm : b.futureSlots.Perm
          (kvObj.chunkIdx :: (b.futurePool.erase key).entries.map fun e => e.2.2.chunkIdx) :=
        (Dict.entries_perm_erase hl).map _
      refine List.Perm.trans ?_ h.slots
      show (b.cpuMbufferpool.freePool ++ [kvObj.chunkIdx] ++
        (b.putSlots ++ (b.futurePool.erase key).entries.map fun e => e.2.2.chunkIdx)).Perm _
      rw [List.append_assoc, List.singleton_append]
      refine List.Perm.append_left _ ?_
      refine List.Perm.trans ?_ (hperm.symm.append_left b.putSlots)
      exact List.perm_middle.symm
    · by_cases hne : j = key
      · rw [hne]
        exact hfile
      · exact h.file j hj fun hin => hjsaved (AList.mem_erase.mpr ⟨hne, hin⟩)

theorem reclaim_kept {key : CacheEngineKey} (hreclaim : b.reclaim key = some b') : b'.files = b.files := by
  unfold LMCLocalDiskBackend.reclaim at hreclaim
  split at hreclaim
  · cases hreclaim
    rfl
  · split_ifs at hreclaim
    cases hreclaim
    rfl

theorem WF.get (h : b.WF S) {key : CacheEngineKey} {kvChunk : Option (List R)} (hget : b.get key = .ok (kvChunk, b')) :
    b'.WF S := by
  unfold LMCLocalDiskBackend.get at hget
  cases hd : b.dict.lookup key with
  | none =>
    rw [hd] at hget
    cases hget
    exact h
  | some metadata =>
    rw [hd] at hget
    dsimp only at hget
    cases hr : b.reclaim key with
    | none =>
      rw [hr] at hget
      cases hget
      exact h
    | some b₁ =>
      rw [hr] at hget
      dsimp only at hget
      cases hf : b₁.files.lookup metadata.path with
      | none => rw [hf] at hget; cases hget
      | some rows =>
        rw [hf] at hget
        cases hget
        have hfile := Dict.mem_of_lookup hf
        rw [reclaim_kept hr, h.path key metadata hd] at hfile
        exact (h.reclaim hfile hr).moveToEnd key

/-! ## Runs -/

/-- The key of a put. -/
def Op.key? : Op R → Option CacheEngineKey
  | .enter _ key _ => some key
  | _ => none

/-- The keys of the puts are in `S`. -/
def Op.PutsIn (S : Set CacheEngineKey) (op : Op R) : Prop := ∀ key ∈ op.key?, key ∈ S

/-- An operation that does nothing is safe. -/
theorem safe_iff_of_skip (h : b.WF S) {op : Op R} (hstep : step b op = .ok b) (hmeets : Meets b op) :
    (Meets b op ↔ Safe b op) ∧ (Meets b op → ∀ b', step b op = .ok b' → b'.WF S) := by
  have hwf : ∀ b', step b op = .ok b' → b'.WF S := fun b' hb' => Except.ok.inj (hstep.symm.trans hb') ▸ h
  exact ⟨iff_of_true hmeets ⟨fun _ => ⟨b, hstep⟩, fun b' hb' => (hwf b' hb').reclaimable⟩, fun _ => hwf⟩

/-- So is one that evicts nothing and keeps the invariant. -/
theorem safe_iff_of_kept {op : Op R} (hevicts : ¬ op.Evicts) (hmeets : Meets b op)
    (hwf : ∀ b', step b op = .ok b' → b'.WF S) :
    (Meets b op ↔ Safe b op) ∧ (Meets b op → ∀ b', step b op = .ok b' → b'.WF S) :=
  ⟨iff_of_true hmeets ⟨fun h => absurd h hevicts, fun b' hb' => (hwf b' hb').reclaimable⟩, fun _ => hwf⟩

/-- So is one that returns and keeps the invariant when it meets its condition `P`, if only then. -/
theorem safe_iff_of_returns {op : Op R} {P : Prop} (hevicts : op.Evicts)
    (hreturns : P → ∃ b', step b op = .ok b' ∧ b'.WF S)
    (hback : ∀ b', step b op = .ok b' → b'.Reclaimable → P) :
    (P ↔ Safe b op) ∧ (P → ∀ b', step b op = .ok b' → b'.WF S) := by
  have hwf : P → ∀ b', step b op = .ok b' → b'.WF S := by
    intro hp b' hb'
    obtain ⟨b'', hb'', h''⟩ := hreturns hp
    exact Except.ok.inj (hb''.symm.trans hb') ▸ h''
  refine ⟨⟨fun hp => ⟨fun _ => ?_, fun b' hb' => (hwf hp b' hb').reclaimable⟩, fun hsafe => ?_⟩, hwf⟩
  · obtain ⟨b', hb', -⟩ := hreturns hp
    exact ⟨b', hb'⟩
  · obtain ⟨b', hb'⟩ := hsafe.1 hevicts
    exact hback b' hb' (hsafe.2 b' hb')

/-- A put's first step. -/
theorem enter_safe_iff (hS : Set.InjOn fileName S) (h : b.WF S) (id : ℕ) {key : CacheEngineKey} (kvChunk : List R)
    (hkey : key ∈ S) :
    (Meets b (.enter id key kvChunk) ↔ Safe b (.enter id key kvChunk)) ∧
      (Meets b (.enter id key kvChunk) → ∀ b', step b (.enter id key kvChunk) = .ok b' → b'.WF S) := by
  by_cases hid : id ∈ b.puts
  · have hstep : step b (.enter id key kvChunk) = .ok b := if_pos hid
    exact safe_iff_of_skip h hstep fun hnot => absurd hid hnot
  · have hstep : step b (.enter id key kvChunk) = b.enter id key kvChunk := if_neg hid
    by_cases hfuture : key ∈ b.futurePool
    · exact safe_iff_of_skip h (hstep.trans (if_pos hfuture)) fun _ hnot => absurd hfuture hnot
    · by_cases hfit : md.kvBytes kvChunk.length ≤ md.maxBytes
      · have hreturns : b.MakesRoom (md.kvBytes kvChunk.length) →
            ∃ b', step b (.enter id key kvChunk) = .ok b' ∧ b'.WF S :=
          fun hroom => hstep ▸ h.exists_enter hS hid hkey hfuture hfit hroom
        have hroom : b.Meets (.enter id key kvChunk) ↔ b.MakesRoom (md.kvBytes kvChunk.length) :=
          ⟨fun hmeets => hmeets hid hfuture hfit, fun hroom _ _ _ => hroom⟩
        rw [hroom]
        refine safe_iff_of_returns trivial hreturns fun b' hb' hreclaim => ?_
        exact makesRoom_of_enter hfuture hfit (hstep.symm.trans hb') hreclaim
      · refine safe_iff_of_skip h ?_ fun _ _ hle => absurd hle hfit
        rw [hstep, enter, if_neg hfuture, updateOnPut, if_pos (not_le.mp hfit)]

/-- A step that inserts no key meets the condition. -/
theorem meets_of_insertsNext_eq_none {id : ℕ} (h : b.insertsNext id = none) : Meets b (.resume id) :=
  fun key hkey => absurd (h ▸ hkey) (Option.not_mem_none key)

/-- The insertion of a key. -/
theorem insert_safe_iff (h : b.WF S) {id : ℕ} {p : PutCall R} {kvObj : KVObj} {future : ℕ}
    (hp : b.puts.lookup id = some p) (hphase : p.phase = .submitted kvObj future) :
    (Meets b (.resume id) ↔ Safe b (.resume id)) ∧
      (Meets b (.resume id) → ∀ b', step b (.resume id) = .ok b' → b'.WF S) := by
  have hnext : b.insertsNext id = some p.key := by rw [insertsNext, hp, Option.bind_some, hphase]
  have hslot : p.slot? = some kvObj.chunkIdx := by rw [PutCall.slot?, hphase]
  have hmeets : b.Meets (.resume id) ↔ p.key ∉ b.futurePool := by
    refine ⟨fun hm => hm p.key (hnext ▸ Option.mem_some_self _), fun hkey key hin => ?_⟩
    rw [hnext] at hin
    exact Option.some.inj hin ▸ hkey
  have hinsert : step b (.resume id) = .ok (b.insert id p kvObj future) := by
    show b.resume id = _
    rw [resume, hp]
    dsimp only
    rw [hphase]
  have hboth : (p.key ∉ b.futurePool ↔ (b.insert id p kvObj future).Reclaimable) ∧
      (p.key ∉ b.futurePool → (b.insert id p kvObj future).WF S) := h.insert_iff hp hslot
  obtain ⟨hiff, hwf⟩ := hboth
  rw [hmeets, hiff]
  refine ⟨⟨fun hr => ⟨False.elim, fun b' hb' => ?_⟩, fun hsafe => hsafe.2 _ hinsert⟩, fun hr b' hb' => ?_⟩
  · exact Except.ok.inj (hinsert.symm.trans hb') ▸ hr
  · exact Except.ok.inj (hinsert.symm.trans hb') ▸ hwf (hiff.mpr hr)

/-- A later step of a put. -/
theorem resume_safe_iff (h : b.WF S) (id : ℕ) :
    (Meets b (.resume id) ↔ Safe b (.resume id)) ∧
      (Meets b (.resume id) → ∀ b', step b (.resume id) = .ok b' → b'.WF S) := by
  cases hp : b.puts.lookup id with
  | none =>
    have hnext : b.insertsNext id = none := by rw [insertsNext, hp]; rfl
    refine safe_iff_of_skip h ?_ (meets_of_insertsNext_eq_none hnext)
    show b.resume id = .ok b
    rw [resume, hp]
  | some p =>
    cases hphase : p.phase with
    | waiting =>
      have hnext : b.insertsNext id = none := by rw [insertsNext, hp, Option.bind_some, hphase]
      have hslot : p.slot? = none := by rw [PutCall.slot?, hphase]
      refine safe_iff_of_kept (fun h => h) (meets_of_insertsNext_eq_none hnext) fun b' hb' => ?_
      change b.resume id = .ok b' at hb'
      rw [resume, hp] at hb'
      dsimp only at hb'
      rw [hphase] at hb'
      exact h.allocate hp hslot hb'
    | allocated kvObj =>
      have hnext : b.insertsNext id = none := by rw [insertsNext, hp, Option.bind_some, hphase]
      have hslot : p.slot? = some kvObj.chunkIdx := by rw [PutCall.slot?, hphase]
      refine safe_iff_of_kept (fun h => h) (meets_of_insertsNext_eq_none hnext) fun b' hb' => ?_
      change b.resume id = .ok b' at hb'
      rw [resume, hp] at hb'
      dsimp only at hb'
      rw [hphase] at hb'
      cases hb'
      exact h.submit hp hslot
    | submitted kvObj future => exact insert_safe_iff h hp hphase

/-- An eviction. -/
theorem evict_safe_iff (hS : Set.InjOn fileName S) (h : b.WF S) (key : CacheEngineKey) :
    (Meets b (.evict key) ↔ Safe b (.evict key)) ∧
      (Meets b (.evict key) → ∀ b', step b (.evict key) = .ok b' → b'.WF S) := by
  by_cases hkey : key ∈ b.dict
  · have hstep : step b (.evict key) = b.remove key := if_pos hkey
    refine safe_iff_of_returns trivial (fun hsaved => hstep ▸ h.exists_remove hS hkey hsaved) fun b' hb' hreclaim => ?_
    obtain ⟨hsame, hmem⟩ := remove_ok (hstep.symm.trans hb')
    have hgone := hreclaim.notSkipped key fun hin => ((hmem key).mp hin).1 rfl
    rwa [hsame.futurePool] at hgone
  · have hstep : step b (.evict key) = .ok b := if_neg hkey
    exact safe_iff_of_skip h hstep fun hsaved => hkey (h.resident key hsaved)

/-- **When an operation leaves buffers reclaimable and no eviction raises in it.** -/
theorem safe_iff (hS : Set.InjOn fileName S) (h : b.WF S) {op : Op R} (hop : op.PutsIn S) :
    (Meets b op ↔ Safe b op) ∧ (Meets b op → ∀ b', step b op = .ok b' → b'.WF S) := by
  cases op with
  | enter id key kvChunk => exact enter_safe_iff hS h id kvChunk (hop key rfl)
  | resume id => exact resume_safe_iff h id
  | finish future =>
    refine safe_iff_of_kept (fun h => h) trivial fun b' hb' => ?_
    cases hb'
    exact h.finish future
  | get key =>
    refine safe_iff_of_kept (fun h => h) trivial fun b' hb' => ?_
    obtain ⟨⟨kvChunk, b''⟩, hget, rfl⟩ := map_ok hb'
    exact h.get hget
  | evict key => exact evict_safe_iff hS h key

/-- **Buffers stay reclaimable and no eviction raises over a run exactly when each of its operations meets the
condition**, for keys that have files of their own. -/
theorem along_safe_iff {S : Set CacheEngineKey} (hS : Set.InjOn fileName S) {ops : List (Op R)}
    (hops : ∀ op ∈ ops, op.PutsIn S) (path : String) :
    Along step Safe (new md R path) ops ↔ Along step Meets (new md R path) ops :=
  (along_iff_along (fun _ _ hop h => safe_iff hS h hop) hops (wf_new S path)).symm

/-! ## Runs on concrete inputs -/

section Examples

/-- A put of a whole chunk under the key `hash`, up to the end of `put_nonblocking`. -/
def putWhole (id : ℕ) (hash : String) : List (Op Unit) :=
  [.enter id (.ofHash hash) [(), ()], .resume id, .resume id, .resume id]

/-- Three puts fill the cache. -/
def threePuts : List (Op Unit) := putWhole 0 "a" ++ putWhole 1 "b" ++ putWhole 2 "c"

/-- Every chunk is saved and read before a fourth put evicts one of them. -/
def readBeforeEvicted : List (Op Unit) :=
  threePuts ++ [.finish 1, .finish 0, .get (.ofHash "a"), .get (.ofHash "c"), .get (.ofHash "b"), .finish 2,
    .get (.ofHash "c")] ++ putWhole 3 "d" ++ [.evict (.ofHash "b"), .get (.ofHash "d"), .finish 3]

theorem along_safe_readBeforeEvicted : Along step Safe (new .threeChunks Unit "/disk/") readBeforeEvicted := by
  have hS : Set.InjOn fileName {key | key ∈ ["a", "b", "c", "d"].map CacheEngineKey.ofHash} := by
    have hinj : ∀ key ∈ ["a", "b", "c", "d"].map CacheEngineKey.ofHash,
        ∀ key' ∈ ["a", "b", "c", "d"].map CacheEngineKey.ofHash, fileName key = fileName key' → key = key' := by
      decide +kernel
    exact fun key hkey key' hkey' heq => hinj key hkey key' hkey' heq
  have hops : ∀ op ∈ readBeforeEvicted, op.PutsIn {key | key ∈ ["a", "b", "c", "d"].map CacheEngineKey.ofHash} := by
    intro op hop
    have hkey : ∀ op ∈ readBeforeEvicted, ∀ key ∈ op.key?, key ∈ ["a", "b", "c", "d"].map CacheEngineKey.ofHash := by
      decide +kernel
    exact hkey op hop
  have hmeets : Along step Meets (new .threeChunks Unit "/disk/") readBeforeEvicted := by decide +kernel
  exact (along_safe_iff hS hops "/disk/").mpr hmeets

/-- A chunk that is evicted before it was read keeps its buffer and is never put again, and one that is evicted before
it is saved has no file to remove. -/
theorem evicted_unread_keeps_buffer :
    (∃ b, Reaches step (new .threeChunks Unit "/disk/") (threePuts ++ [.finish 0] ++ putWhole 3 "d") b ∧
      b.enter 4 (.ofHash "a") [(), ()] = .ok b ∧ CacheEngineKey.ofHash "a" ∉ b.dict ∧ ¬ b.Reclaimable) ∧
    raised? step (new .threeChunks Unit "/disk/") (threePuts ++ [.enter 3 (.ofHash "d") [(), ()]]) =
      some (.exception "FileNotFoundError") := by
  refine ⟨?_, by decide +kernel⟩
  have hrun : ∃ b, Reaches step (new .threeChunks Unit "/disk/") (threePuts ++ [.finish 0] ++ putWhole 3 "d") b ∧
      CacheEngineKey.ofHash "a" ∉ b.dict ∧ CacheEngineKey.ofHash "a" ∈ b.futurePool := by decide +kernel
  obtain ⟨b, hb, hdict, hfuture⟩ := hrun
  exact ⟨b, hb, if_pos hfuture, hdict, fun h => h.notSkipped _ hdict hfuture⟩

end Examples

end FairCache.LMCLocalDiskBackend
