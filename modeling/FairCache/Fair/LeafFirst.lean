import FairCache.Fair.Refusal
import FairCache.Fair.Threshold
import FairCache.Lib.Prefixes

/-!
# Victims in the order of their prefixes

`before k j` says that the block `j` extends the block `k`: a retrieval that lost `k` does not get to `j`.

* `ScoresOrdered`, `RecordsOrdered` : both searches meet a block after the blocks that extend it;
* `leafFirst_chooseVictims` : then a put evicts blocks after all that extend them;
* `KeepsLeaves` : the puts that are accepted and do so; `mem_putSections` : what is resident after one.
-/

namespace FairCache

open Lib

variable {md : LMCacheMemPoolMetadata} {K F R : Type} [LinearOrder K] [LinearOrder F] [Field F]

namespace FairEvictor

/-- **The second pass meets extensions first**: a block that it can get at through a client is extended by blocks of this
client only, and each of these has a record in the client's heaps before all those of the block. -/
def RecordsOrdered (ev : FairEvictor md K F) (before : K → K → Prop) (d : Dict K (CacheEntry F)) (r : List K) : Prop :=
  ∀ c k e, d.lookup k = some e → ev.VictimOf d r c k → ∀ j f, d.lookup j = some f → before k j → c ∈ f.clients ∧
    ∀ hs, ev.clientHeaps.lookup c = some hs → ∀ v, HeapGroup.Holds hs e.lambdaVal v k →
      ∃ w, HeapGroup.Holds hs f.lambdaVal w j ∧ hs.rank f.lambdaVal w j < hs.rank e.lambdaVal v k

variable [FloatMath F]

open Classical in
/-- The resident blocks that the first pass can get at. -/
noncomputable def lowWithinReach (ev : FairEvictor md K F) (d : Dict K (CacheEntry F)) (r : List K) (now : F) : List K :=
  d.keys.filter (ev.LowVictim d r now ·)

open Classical in
/-- Those of them that the search meets before the block `e` under `k`. -/
noncomputable def lowBefore (ev : FairEvictor md K F) (d : Dict K (CacheEntry F)) (r : List K) (now : F) (k : K)
    (e : CacheEntry F) : List K :=
  (ev.lowWithinReach d r now).filter fun j => ∃ f, d.lookup j = some f ∧ ev.place j f < ev.place k e

/-- **The first pass meets extensions first**: a block that it can get at, and has to where those before do not make room, is
scored above the blocks that extend it. -/
def ScoresOrdered (ev : FairEvictor md K F) (before : K → K → Prop) (d : Dict K (CacheEntry F)) (cacheSize : ℕ) (r : List K)
    (now : F) : Prop :=
  ∀ k e, d.lookup k = some e → ev.LowVictim d r now k → ¬ ev.RoomWithout d cacheSize (ev.lowBefore d r now k e) →
    ∀ j f, d.lookup j = some f → before k j → ev.place j f < ev.place k e

variable {before : K → K → Prop} {ev ev' : FairEvictor md K F} {d : Dict K (CacheEntry F)} {cacheSize : ℕ} {r ks : List K}
  {now : F} {who : Option ClientId}

theorem mem_lowWithinReach {k : K} : k ∈ ev.lowWithinReach d r now ↔ k ∈ d ∧ ev.LowVictim d r now k := by
  classical
  unfold lowWithinReach
  rw [List.mem_filter, ← AList.mem_keys]
  exact and_congr_right fun _ => decide_eq_true_iff

theorem nodup_lowWithinReach : (ev.lowWithinReach d r now).Nodup := d.keys_nodup.filter _

/-- Before the search answers a block, it has answered those of the first pass that are placed before it. -/
theorem mem_of_mem_lowBefore {k j : K} {e : CacheEntry F} (he : d.lookup k = some e)
    (hs : (ev.getMinValueKey d ks).1 = some k) (hj : j ∈ ev.lowBefore d r now k e) : j ∈ ks := by
  classical
  obtain ⟨hreach, hplace⟩ := List.mem_filter.mp hj
  obtain ⟨f, hf, hlt⟩ := of_decide_eq_true hplace
  obtain ⟨-, ⟨x, hx⟩, -⟩ := mem_lowWithinReach.mp hreach
  obtain ⟨f', hseen, -⟩ := getMinValueKey_eq_some_iff.mp hx
  obtain rfl : f' = f := Option.some.inj (hseen.1.symm.trans hf)
  obtain ⟨e', hk, -, hleast⟩ := getMinValueKey_eq_some_iff.mp hs
  obtain rfl : e' = e := Option.some.inj (hk.1.symm.trans he)
  by_contra hjks
  exact absurd hlt (not_lt.mpr (hleast j f' hseen hjks))

/-- What the first pass chooses next is extended by chosen blocks only. -/
theorem ScoresOrdered.chosen (h : ev.ScoresOrdered before d cacheSize r now) (hrecorded : Recorded ev d []) {k : K}
    (hshort : ¬ ev.RoomWithout d cacheSize ks) (hk : ev.LowVictim d r now k) (hs : (ev.getMinValueKey d ks).1 = some k)
    {j : K} (hj : j ∈ d) (hb : before k j) : j ∈ ks := by
  by_contra hjks
  obtain ⟨e, hseen, -, hleast⟩ := getMinValueKey_eq_some_iff.mp hs
  obtain ⟨f, hf⟩ := (Dict.mem_iff_lookup _ _).mp hj
  have hle := hleast j f ⟨hf, hrecorded.global j f hf List.not_mem_nil⟩ hjks
  refine absurd (h k e hseen.1 hk (fun hroom => hshort ?_) j f hf hb) (not_lt.mpr hle)
  exact hroom.mono (nodup_lowWithinReach.filter _) fun i hi => mem_of_mem_lowBefore hseen.1 hs hi

omit [Field F] [FloatMath F] in
/-- So is what the second pass chooses next. -/
theorem RecordsOrdered.chosen (h : ev.RecordsOrdered before d r) {c : ClientId} {k : K} (hk : ev.VictimOf d r c k)
    (hs : (ev.getMinValueKeyForClient c d ks).1 = some k) {j : K} (hj : j ∈ d) (hb : before k j) : j ∈ ks := by
  by_contra hjks
  unfold getMinValueKeyForClient at hs
  cases hlook : ev.clientHeaps.lookup c with
  | none =>
    rw [hlook] at hs
    cases hs
  | some hs' =>
    rw [hlook] at hs
    obtain ⟨l, v, hh, hlive, hleast⟩ := HeapGroup.search_eq_some_iff.mp hs
    obtain ⟨e, he, rfl, -, -⟩ := clientStale_eq_false.mp hlive
    obtain ⟨f, hf⟩ := (Dict.mem_iff_lookup _ _).mp hj
    obtain ⟨hc, hold⟩ := h c k e he hk j f hf hb
    obtain ⟨w, hw, hrank⟩ := hold hs' hlook v hh
    have hlivej : clientStale c d ks f.lambdaVal (toLex (w, j)) = false :=
      clientStale_eq_false.mpr ⟨f, hf, rfl, mem_clients.mp hc, hjks⟩
    exact absurd hrank (not_lt.mpr (hleast _ _ _ hw hlivej))

/-- **Where the passes meet extensions first, they choose leaves first.** The second one counts only where the blocks that
the first can get at do not make room. -/
theorem leafFirst_chooseVictims (hrecorded : Recorded ev d []) (hscores : ev.ScoresOrdered before d cacheSize r now)
    (hrecords : ¬ ev.RoomWithout d cacheSize (ev.lowWithinReach d r now) → ev.RecordsOrdered before d r) {st : PutStatus}
    (h : ev.chooseVictims d cacheSize r now = (ev', who, ks, st)) : LeafFirst before {k | k ∈ d} ks := by
  obtain ⟨ev₁, ks₁, hpass⟩ : ∃ ev₁ ks₁, evictBelowThreshold d cacheSize r now ev [] = (ev₁, ks₁) := ⟨_, _, rfl⟩
  have hfirst := evicting_evictBelowThreshold (J := LeafFirst before {k | k ∈ d}) (leafFirst_nil _ _)
    (fun ks k hks hshort hk hs => hks.concat fun j hj hb => hscores.chosen hrecorded hshort hk hs hj hb) hpass
  obtain ⟨he₁, hks₁, hreach⟩ := hfirst
  have hsecond : evictFromMaxClient d cacheSize r ev₁ none ks₁ = (ev', who, ks, st) := by
    unfold chooseVictims at h
    rw [hpass] at h
    exact h
  by_cases hroom : ev₁.HasRoom cacheSize
  · rw [evictFromMaxClient, if_pos hroom] at hsecond
    cases hsecond
    exact hks₁
  · have hshort : ¬ ev.RoomWithout d cacheSize (ev.lowWithinReach d r now) := by
      intro hlow
      have hall := hreach.resolve_left hroom
      have hks := hlow.mono nodup_lowWithinReach fun k hk => hall k (mem_lowWithinReach.mp hk).2
      exact hroom ((he₁.hasRoom_iff cacheSize).mpr hks)
    have hordered := hrecords hshort
    exact (evicting_evictFromMaxClient (J := LeafFirst before {k | k ∈ d})
      (fun ks c k hks hk hs => hks.concat fun j hj hb => hordered.chosen hk hs hj hb) he₁ hks₁ hsecond).2

end FairEvictor

namespace LMCLocalFairBackend

open FairEvictor

variable [FloatMath F] {before : K → K → Prop} {b b' : LMCLocalFairBackend md K F R} {a : PutArgs K F R}

/-- A put of a new key whose victims leave leaves first. -/
def EvictsLeaves (before : K → K → Prop) (b : LMCLocalFairBackend md K F R) (a : PutArgs K F R) : Prop :=
  LeafFirst before {k | k ∈ b.dict} (b.victims a).2.2.1

/-- A put that is accepted: the chunk is not too large, and the blocks within reach make room for it. Where those of the
first pass do not make the room, the second pass meets extensions first. -/
structure FindsRoom (before : K → K → Prop) (b : LMCLocalFairBackend md K F R) (a : PutArgs K F R) : Prop where
  fits : chunkBytes md a ≤ md.maxBytes
  room : b.evictor.RoomWithout b.dict (chunkBytes md a) (b.evictor.withinReach b.dict a.retrievedKeys a.now)
  records : ¬ b.evictor.RoomWithout b.dict (chunkBytes md a) (b.evictor.lowWithinReach b.dict a.retrievedKeys a.now) →
    b.evictor.RecordsOrdered before b.dict a.retrievedKeys

/-- **The puts that keep leaves last**: they are accepted, and both searches meet a block after those that extend it. -/
structure KeepsLeaves (before : K → K → Prop) (b : LMCLocalFairBackend md K F R) (a : PutArgs K F R) : Prop
    extends FindsRoom before b a where
  scores : b.evictor.ScoresOrdered before b.dict (chunkBytes md a) a.retrievedKeys a.now

/-- Such a put of a new key is accepted. -/
theorem KeepsLeaves.legal (h : b.KeepsLeaves before a) (hkey : a.key ∉ b.dict) : (b.victims a).2.2.2 = .legal := by
  have hlegal := (updateOnPut_legal_iff b.evictor b.dict (chunkBytes md a) a.retrievedKeys a.now).mpr ⟨h.fits, h.room⟩
  rw [victims_of_notMem hkey]
  cases hv : b.evictor.chooseVictims b.dict (chunkBytes md a) a.retrievedKeys a.now with
  | mk ev rest =>
    obtain ⟨who, ks, st⟩ := rest
    cases st with
    | legal => rfl
    | illegal =>
      rw [updateOnPut_illegal h.fits hv] at hlegal
      cases hlegal

/-- **Its victims leave leaves first.** -/
theorem KeepsLeaves.evictsLeaves (h : b.KeepsLeaves before a) (hkey : a.key ∉ b.dict)
    (hrecorded : Recorded b.evictor b.dict []) : b.EvictsLeaves before a := by
  unfold EvictsLeaves
  rw [victims_of_notMem hkey]
  exact leafFirst_chooseVictims hrecorded h.scores h.records rfl

/-- The entry of the chunk that a put stores in the slot `o`. -/
def storedEntry (a : PutArgs K F R) (o : KVObj) : CacheEntry F :=
  (CacheEntry.updateAccessTime
    { kvObj := o, lastAccessTime := a.storedAt, accessMap := ∅, lambdaVal := a.lambdaVal, value := 0 }
    a.clientId a.storedAt).updateValue

/-- After such a put its chunk is resident, and so are the blocks that are not victims. -/
theorem KeepsLeaves.lookup_putSections (h : b.KeepsLeaves before a) (hkey : a.key ∉ b.dict)
    (hput : b.putSections a = .ok b') : ∃ o, ∀ k, b'.dict.lookup k =
      if k = a.key then some (storedEntry a o) else if k ∈ (b.victims a).2.2.1 then none else b.dict.lookup k := by
  have hlegal := h.legal hkey
  cases hv : b.victims a with
  | mk ev rest =>
    obtain ⟨who, ks, st⟩ := rest
    rw [hv] at hlegal
    obtain rfl : st = .legal := hlegal
    rw [putSections_legal h.fits hv] at hput
    cases hslot : (b.evicted a ev ks).mpool.allocate a.kvChunk with
    | error e =>
      rw [hslot] at hput
      cases hput
    | ok op =>
      rw [hslot] at hput
      cases hput
      refine ⟨op.1, fun k => (Dict.lookup_set _ _ _ _).trans (if_congr Iff.rfl rfl ?_)⟩
      show (b.evicted a ev ks).dict.lookup k = _
      rw [evicted, dropOld_of_notMem hkey, lookup_foldl_remove]

theorem KeepsLeaves.mem_putSections (h : b.KeepsLeaves before a) (hkey : a.key ∉ b.dict)
    (hput : b.putSections a = .ok b') (k : K) :
    k ∈ b'.dict ↔ k = a.key ∨ (k ∈ b.dict ∧ k ∉ (b.victims a).2.2.1) := by
  obtain ⟨o, hlook⟩ := h.lookup_putSections hkey hput
  rw [Dict.mem_iff_lookup, Dict.mem_iff_lookup, hlook]
  by_cases hk : k = a.key
  · simp [hk]
  · by_cases hv : k ∈ (b.victims a).2.2.1
    · simp [hk, hv]
    · simp [hk, hv]

/-- A protected block is no victim. -/
theorem notMem_victims (hkey : a.key ∉ b.dict) {k : K} (hk : k ∈ a.retrievedKeys) : k ∉ (b.victims a).2.2.1 := by
  rw [victims_of_notMem hkey]
  exact fun hmem => (chosen_chooseVictims rfl).1.unprotected k hmem hk

/-! ## Puts that complete prefixes -/

/-- **The next put of a store**: what was closed up to the chunks to come is closed up to those after it, if the prefixes of
its chunk are protected or to come. -/
theorem KeepsLeaves.closedUpTo (h : b.KeepsLeaves before a) (hkey : a.key ∉ b.dict)
    (hrecorded : Recorded b.evictor b.dict []) {pending : Set K}
    (hclosed : ClosedUpTo before (insert a.key pending) {k | k ∈ b.dict})
    (hbefore : ∀ i, before i a.key → i ∈ b.dict ∧ i ∈ a.retrievedKeys ∨ i ∈ pending) (hput : b.putSections a = .ok b') :
    ClosedUpTo before pending {k | k ∈ b'.dict} := by
  have hleaves := h.evictsLeaves hkey hrecorded
  have hleave : ∀ k ∈ {k | k ∈ (b.victims a).2.2.1}, ∀ j ∈ {k | k ∈ b.dict}, before k j →
      j ∈ {k | k ∈ (b.victims a).2.2.1} := fun k hk j hj hb => hleaves.mem hk hj hb
  have hgone := hclosed.diff hleave
  have hdict : {k | k ∈ b'.dict} = insert a.key ({k | k ∈ b.dict} \ {k | k ∈ (b.victims a).2.2.1}) := by
    ext k
    exact h.mem_putSections hkey hput k
  rw [hdict]
  refine hgone.insert fun i hi => ?_
  rcases hbefore i hi with ⟨hres, hprotected⟩ | hpending
  · exact Or.inl ⟨hres, notMem_victims hkey hprotected⟩
  · exact Or.inr hpending

/-- It leaves every block with its records. -/
theorem KeepsLeaves.recorded (h : b.KeepsLeaves before a) (hkey : a.key ∉ b.dict) (hrecorded : Recorded b.evictor b.dict [])
    (hput : b.putSections a = .ok b') : Recorded b'.evictor b'.dict [] :=
  recorded_putSections hrecorded (Or.inr (Or.inl (h.legal hkey))) hput

end LMCLocalFairBackend

end FairCache
