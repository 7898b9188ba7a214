import FairCache.Fair.Ledger
import FairCache.Fair.Usage

/-!
# Records of the resident blocks

The searches look at records `(value, key)`, of which the heaps hold any number of outdated ones.

* `KnowsAt` : a client's heap holds a record; `Recorded` : every block has its current record, in the global heaps and in
  those of each sharer, unless it is gone;
* `Recorded.search` and the like : what the searches, the choices and the read side keep;
* `Act`, `act` : puts, evictions and accesses, one at a time; `LosslessPut` : the puts that lose no record;
* `getMinValueKey_least` : the global search answers a block of least value.
-/

namespace FairCache

open Lib

variable {md : LMCacheMemPoolMetadata} {K F R : Type} [LinearOrder K] [LinearOrder F]

namespace FairEvictor

/-- The heap of client `c` for the decay rate `l` holds the record `(v, k)`. -/
def KnowsAt (ev : FairEvictor md K F) (c : ClientId) (l v : F) (k : K) : Prop :=
  ∃ hs, ev.clientHeaps.lookup c = some hs ∧ HeapGroup.Holds hs l v k

/-- **Every block that is not gone has its current record**, in the global heaps and in those of its clients. -/
structure Recorded (ev : FairEvictor md K F) (d : Dict K (CacheEntry F)) (gone : List K) : Prop where
  global : ∀ k e, d.lookup k = some e → k ∉ gone → HeapGroup.Holds ev.globalHeaps e.lambdaVal e.value k
  client : ∀ k e c, d.lookup k = some e → k ∉ gone → c ∈ e.clients → ev.KnowsAt c e.lambdaVal e.value k

variable {ev ev' : FairEvictor md K F} {d d' : Dict K (CacheEntry F)} {gone gone' : List K}

theorem KnowsAt.knows {c : ClientId} {l v : F} {k : K} (h : ev.KnowsAt c l v k) : ev.Knows c l k := by
  obtain ⟨hs, hlook, hh⟩ := h
  exact ⟨hs, v, hlook, hh⟩

theorem KnowsAt.congr {c : ClientId} {l v : F} {k : K} (h : ev.KnowsAt c l v k) (hh : ev'.clientHeaps = ev.clientHeaps) :
    ev'.KnowsAt c l v k := by
  unfold KnowsAt
  rwa [hh]

/-! ## Searches and choices -/

theorem KnowsAt.search {c : ClientId} {k : K} {e : CacheEntry F} {v : F} (h : ev.KnowsAt c e.lambdaVal v k)
    (hk : d.lookup k = some e) (hc : c ∈ e.clients) {x : List K} (hx : k ∉ x) (m : ClientId) :
    (ev.getMinValueKeyForClient m d x).2.KnowsAt c e.lambdaVal v k := by
  obtain ⟨hs, hlook, hh⟩ := h
  by_cases hcm : c = m
  · subst hcm
    have hlive : clientStale c d x e.lambdaVal (toLex (v, k)) = false :=
      clientStale_eq_false.mpr ⟨e, hk, rfl, mem_clients.mp hc, hx⟩
    refine ⟨(HeapGroup.search (clientStale c d x) hs).2, ?_, (HeapGroup.mem_search_iff hlive).mpr hh⟩
    unfold getMinValueKeyForClient
    rw [hlook]
    exact Dict.lookup_set_self _ _ _
  · exact ⟨hs, (lookup_clientHeaps_of_ne ev hcm d x).trans hlook, hh⟩

@[simp] theorem globalHeaps_getMinValueKeyForClient (ev : FairEvictor md K F) (m : ClientId)
    (d : Dict K (CacheEntry F)) (x : List K) :
    (ev.getMinValueKeyForClient m d x).2.globalHeaps = ev.globalHeaps := by
  unfold getMinValueKeyForClient
  split
  · rfl
  · rfl

namespace Recorded

/-- The same heaps have the records of whatever blocks are left. -/
theorem mono (h : Recorded ev d gone) (hglobal : ev'.globalHeaps = ev.globalHeaps)
    (hclient : ev'.clientHeaps = ev.clientHeaps)
    (hdict : ∀ k e, d'.lookup k = some e → k ∉ gone' → d.lookup k = some e ∧ k ∉ gone) : Recorded ev' d' gone' := by
  refine ⟨?_, ?_⟩
  · intro k e hk hg
    obtain ⟨hk', hg'⟩ := hdict k e hk hg
    rw [hglobal]
    exact h.global k e hk' hg'
  · intro k e c hk hg hc
    obtain ⟨hk', hg'⟩ := hdict k e hk hg
    exact (h.client k e c hk' hg' hc).congr hclient

/-- A global search loses records of blocks that are gone only. -/
theorem searchGlobal (h : Recorded ev d gone) : Recorded (ev.getMinValueKey d gone).2 d gone := by
  refine ⟨?_, ?_⟩
  · intro k e hk hg
    have hlive : globalStale d gone e.lambdaVal (toLex (e.value, k)) = false :=
      globalStale_eq_false.mpr ⟨e, hk, rfl, rfl, hg⟩
    exact (HeapGroup.mem_search_iff hlive).mpr (h.global k e hk hg)
  · intro k e c hk hg hc
    exact (h.client k e c hk hg hc).congr rfl

/-- So does a client's. -/
theorem searchClient (h : Recorded ev d gone) (m : ClientId) :
    Recorded (ev.getMinValueKeyForClient m d gone).2 d gone := by
  refine ⟨?_, ?_⟩
  · intro k e hk hg
    rw [globalHeaps_getMinValueKeyForClient]
    exact h.global k e hk hg
  · intro k e c hk hg hc
    exact (h.client k e c hk hg hc).search hk hc hg m

theorem dropClient (h : Recorded ev d gone) (m : ClientId) : Recorded (ev.dropClient m) d gone :=
  h.mono rfl rfl fun _ _ hk hg => ⟨hk, hg⟩

variable [Field F]

theorem select (h : Recorded ev d gone) (k : K) (e : CacheEntry F) : Recorded (ev.select k e) d (gone ++ [k]) :=
  h.mono rfl rfl fun _ _ hj hg => ⟨hj, fun hmem => hg (List.mem_append_left _ hmem)⟩

/-- **Both passes** keep the records of the blocks that they do not choose. -/
theorem chooseVictims [FloatMath F] {cacheSize : ℕ} {r ks : List K} {now : F} {who : Option ClientId} {st : PutStatus}
    (h : Recorded ev d []) (hres : ev.chooseVictims d cacheSize r now = (ev', who, ks, st)) : Recorded ev' d ks := by
  have hlow : Recorded (evictBelowThreshold d cacheSize r now ev []).1 d
      (evictBelowThreshold d cacheSize r now ev []).2 := by
    apply evictBelowThreshold_rule (P := fun ev ks => Recorded ev d ks) _ _ ev [] h
    · intro ev ks hr _
      exact hr.searchGlobal
    · intro ev ks k e hr _ _ _ _
      exact hr.searchGlobal.select k e
  refine (evictFromMaxClient_rule (P := fun ev ks => Recorded ev d ks) ?_ ?_ _ none _ hlow hres).1
  · intro ev ks m hr _ _ _
    exact (hr.searchClient m).dropClient m
  · intro ev ks m k e hr _ _ _ _ _ _
    exact (hr.searchClient m).select k e

end Recorded

/-! ## The read side -/

/-- An access recorded adds its record to the heaps of the sharers. -/
theorem KnowsAt.recordValue {key k : K} {c₀ c : ClientId} {e : CacheEntry F} {sharers : List ClientId} {l v : F}
    (h : ev.KnowsAt c l v k ∨ (c ∈ sharers ∧ l = e.lambdaVal ∧ v = e.value ∧ k = key)) :
    (ev.recordValue key c₀ e sharers).KnowsAt c l v k := by
  have hpush : ∀ (ev : FairEvictor md K F) (s : ClientId), ev.KnowsAt c l v k →
      (ev.updateClientHeap s e.lambdaVal key e.value).KnowsAt c l v k := by
    rintro ev s ⟨hs, hlook, hh⟩
    unfold KnowsAt updateClientHeap
    simp only [Dict.lookup_upsert]
    by_cases hcs : c = s
    · subst hcs
      exact ⟨HeapGroup.push hs e.lambdaVal e.value key, by simp [hlook], hh.push _ _ _⟩
    · exact ⟨hs, by rw [if_neg hcs, hlook], hh⟩
  have hself : ∀ ev : FairEvictor md K F, (ev.updateClientHeap c e.lambdaVal key e.value).KnowsAt c e.lambdaVal e.value key := by
    intro ev
    unfold KnowsAt updateClientHeap
    simp only [Dict.lookup_upsert, if_true]
    exact ⟨_, rfl, HeapGroup.holds_push_self _ _ _ _⟩
  have hfold : ∀ ev : FairEvictor md K F, (ev.KnowsAt c l v k ∨ (c ∈ sharers ∧ l = e.lambdaVal ∧ v = e.value ∧ k = key)) →
      (sharers.foldl (fun ev cid => ev.updateClientHeap cid e.lambdaVal key e.value) ev).KnowsAt c l v k := by
    clear h
    induction sharers with
    | nil => exact fun ev h => h.resolve_right fun hc => absurd hc.1 List.not_mem_nil
    | cons s sharers ih =>
      rintro ev (h | ⟨hc, rfl, rfl, rfl⟩)
      · exact ih _ (Or.inl (hpush ev s h))
      · rcases List.mem_cons.mp hc with rfl | hc
        · exact ih _ (Or.inl (hself ev))
        · exact ih _ (Or.inr ⟨hc, rfl, rfl, rfl⟩)
  apply hfold
  exact h.imp_left fun h => h.congr rfl

theorem globalHeaps_recordValue (ev : FairEvictor md K F) (key : K) (c₀ : ClientId) (e : CacheEntry F)
    (sharers : List ClientId) :
    (ev.recordValue key c₀ e sharers).globalHeaps = ev.globalHeaps.push e.lambdaVal e.value key := by
  have hfold : ∀ ev' : FairEvictor md K F,
      (sharers.foldl (fun ev cid => ev.updateClientHeap cid e.lambdaVal key e.value) ev').globalHeaps =
        ev'.globalHeaps := by
    induction sharers with
    | nil => exact fun ev' => rfl
    | cons s sharers ih => exact fun ev' => ih _
  exact hfold _

/-- A block whose value was recorded for all its sharers has its record. -/
theorem Recorded.recordValue {key : K} {c₀ : ClientId} {e : CacheEntry F} {sharers : List ClientId}
    (h : Recorded ev (d.erase key) []) (hsharers : ∀ c ∈ e.clients, c ∈ sharers) :
    Recorded (ev.recordValue key c₀ e sharers) (d.set key e) [] := by
  have hold : ∀ k f, (d.set key e).lookup k = some f → (k = key ∧ f = e) ∨ (d.erase key).lookup k = some f := by
    intro k f hk
    rw [Dict.lookup_set] at hk
    split_ifs at hk with hkey
    · exact Or.inl ⟨hkey, (Option.some.inj hk).symm⟩
    · right
      rw [AList.lookup_erase_ne hkey]
      exact hk
  refine ⟨?_, ?_⟩
  · intro k f hk _
    rw [globalHeaps_recordValue]
    rcases hold k f hk with ⟨rfl, rfl⟩ | hk'
    · exact HeapGroup.holds_push_self _ _ _ _
    · exact (h.global k f hk' List.not_mem_nil).push _ _ _
  · intro k f c hk _ hc
    apply KnowsAt.recordValue
    rcases hold k f hk with ⟨rfl, rfl⟩ | hk'
    · exact Or.inr ⟨hsharers c hc, rfl, rfl, rfl⟩
    · exact Or.inl (h.client k f c hk' List.not_mem_nil hc)

theorem Recorded.erase (h : Recorded ev d []) (key : K) : Recorded ev (d.erase key) [] :=
  h.mono rfl rfl fun _ _ hk _ => ⟨(Dict.lookup_erase_eq_some.mp hk).2, List.not_mem_nil⟩

variable [Field F] [FloatMath F]

theorem Recorded.registerNewCache (h : Recorded ev d []) (key : K) (e : CacheEntry F) (he : e.accessMap = ∅)
    (c₀ : ClientId) (now : F) :
    Recorded (ev.registerNewCache key e c₀ now).1 (d.set key (ev.registerNewCache key e c₀ now).2) [] := by
  have hclients : (ev.registerNewCache key e c₀ now).2.clients = [c₀] := by
    simp [FairEvictor.registerNewCache, CacheEntry.clients, CacheEntry.updateAccessTime, CacheEntry.updateValue, he,
      Dict.keys_set]
  have hrecorded : Recorded (ev.recordValue key c₀ (ev.registerNewCache key e c₀ now).2 [c₀])
      (d.set key (ev.registerNewCache key e c₀ now).2) [] := by
    apply (h.erase key).recordValue
    intro c hc
    rwa [hclients] at hc
  exact hrecorded.mono rfl rfl fun _ _ hk hg => ⟨hk, hg⟩

theorem Recorded.updateOnGet (h : Recorded ev d []) (key : K) (c : ClientId) (now : F) :
    Recorded (ev.updateOnGet key c d now).1 (ev.updateOnGet key c d now).2 [] := by
  unfold FairEvictor.updateOnGet
  cases hk : d.lookup key with
  | none => exact h
  | some old =>
    let e := (old.updateAccessTime c now).updateValue
    have hrecorded : Recorded (ev.recordValue key c e e.clients) (d.set key e) [] :=
      (h.erase key).recordValue fun _ hc => hc
    exact hrecorded.mono rfl rfl fun _ _ hj hg => ⟨hj, hg⟩

end FairEvictor

/-! ## Runs -/

namespace LMCLocalFairBackend

open FairEvictor

variable [Field F] {b b' : LMCLocalFairBackend md K F R}

theorem heaps_remove (b : LMCLocalFairBackend md K F R) (k : K) :
    (b.remove k).evictor.globalHeaps = b.evictor.globalHeaps ∧
      (b.remove k).evictor.clientHeaps = b.evictor.clientHeaps := by
  unfold remove
  cases b.dict.lookup k with
  | none => exact ⟨rfl, rfl⟩
  | some e => exact ⟨rfl, rfl⟩

/-- What is removed takes no record of another block with it. -/
theorem recorded_remove (h : Recorded b.evictor b.dict []) (k : K) : Recorded (b.remove k).evictor (b.remove k).dict [] := by
  apply h.mono (heaps_remove b k).1 (heaps_remove b k).2
  intro j e hj _
  rw [lookup_remove] at hj
  split_ifs at hj
  exact ⟨hj, List.not_mem_nil⟩

/-- Once the blocks that are gone are removed, none is. -/
theorem recorded_foldl_remove {ks : List K} (h : Recorded b.evictor b.dict ks) :
    Recorded (ks.foldl remove b).evictor (ks.foldl remove b).dict [] := by
  have hheaps : (ks.foldl remove b).evictor.globalHeaps = b.evictor.globalHeaps ∧
      (ks.foldl remove b).evictor.clientHeaps = b.evictor.clientHeaps := by
    clear h
    induction ks generalizing b with
    | nil => exact ⟨rfl, rfl⟩
    | cons k ks ih => exact ⟨ih.1.trans (heaps_remove b k).1, ih.2.trans (heaps_remove b k).2⟩
  apply h.mono hheaps.1 hheaps.2
  intro j e hj _
  rw [lookup_foldl_remove] at hj
  split_ifs at hj with hmem
  exact ⟨hj, hmem⟩

theorem recorded_dropOld (h : Recorded b.evictor b.dict []) (k : K) :
    Recorded (b.dropOld k).2.evictor (b.dropOld k).2.dict [] := by
  unfold dropOld
  cases b.dict.lookup k with
  | none => exact h
  | some e => exact (recorded_remove h k).mono rfl rfl fun _ _ hj hg => ⟨hj, hg⟩

variable [FloatMath F] {a : PutArgs K F R}

/-- A put that loses no record: its chunk is too large, or it is accepted, or it is refused before it chose a victim. -/
def LosslessPut (b : LMCLocalFairBackend md K F R) (a : PutArgs K F R) : Prop :=
  md.maxBytes < chunkBytes md a ∨ (b.victims a).2.2.2 = .legal ∨ (b.victims a).2.2.1 = []

instance (b : LMCLocalFairBackend md K F R) (a : PutArgs K F R) : Decidable (b.LosslessPut a) :=
  inferInstanceAs (Decidable (_ ∨ _))

/-- **A put that loses no record** leaves every block with its records. -/
theorem recorded_putSections (h : Recorded b.evictor b.dict []) (ha : b.LosslessPut a) (hput : b.putSections a = .ok b') :
    Recorded b'.evictor b'.dict [] := by
  have hold := recorded_dropOld h a.key
  by_cases hbig : md.maxBytes < chunkBytes md a
  · rw [putSections_tooLarge hbig] at hput
    cases hput
    exact hold.mono rfl rfl fun _ _ hj hg => ⟨hj, hg⟩
  · have hle := not_lt.mp hbig
    cases hv : b.victims a with
    | mk ev rest =>
      obtain ⟨who, ks, st⟩ := rest
      have hks : Recorded ev (b.dropOld a.key).2.dict ks := hold.chooseVictims hv
      cases st with
      | illegal =>
        obtain rfl : ks = [] := by
          rcases ha with hbig' | hlegal | hnil
          · exact absurd hbig' hbig
          · rw [hv] at hlegal
            cases hlegal
          · rwa [hv] at hnil
        rw [putSections_illegal hle hv] at hput
        cases hput
        exact hks.mono rfl rfl fun _ _ hj hg => ⟨hj, hg⟩
      | legal =>
        rw [putSections_legal hle hv] at hput
        cases hslot : (b.evicted a ev ks).mpool.allocate a.kvChunk with
        | error e =>
          rw [hslot] at hput
          cases hput
        | ok op =>
          obtain ⟨o, p⟩ := op
          rw [hslot] at hput
          cases hput
          have hevicted : Recorded (b.evicted a ev ks).evictor (b.evicted a ev ks).dict [] := by
            apply recorded_foldl_remove
            exact hks.mono rfl rfl fun _ _ hj hg => ⟨hj, hg⟩
          exact hevicted.registerNewCache a.key _ rfl a.clientId a.storedAt

/-- The accesses of a retrieval lose no record. -/
theorem recorded_updateAfterGet (h : Recorded b.evictor b.dict []) (ctx : Option ClientId) (ks : List K) (clock : ℕ → F) :
    Recorded (b.updateAfterGet ctx ks clock).evictor (b.updateAfterGet ctx ks clock).dict [] :=
  updateAfterGet_rule (P := fun b => Recorded b.evictor b.dict []) (fun _ k c now _ _ h => h.updateOnGet k c now) h

/-- One call, as `put`, an eviction or `update_after_get` make it. -/
inductive Act (K F R : Type)
  | put (a : PutArgs K F R)
  | evict (key : K)
  | updateOnGet (key : K) (clientId : ClientId) (now : F)

/-- The state after a call. -/
def act (b : LMCLocalFairBackend md K F R) : Act K F R → Except PyError (LMCLocalFairBackend md K F R)
  | .put a => b.putSections a
  | .evict key => .ok (b.remove key)
  | .updateOnGet key clientId now => .ok (b.updateOnGet key clientId now)

/-- The puts among the calls lose no record. -/
def Lossless (b : LMCLocalFairBackend md K F R) (o : Act K F R) : Prop := ∀ a, o = .put a → b.LosslessPut a

/-- The puts among the calls are accepted. -/
def Accepts (b : LMCLocalFairBackend md K F R) (o : Act K F R) : Prop :=
  ∀ a, o = .put a → chunkBytes md a ≤ md.maxBytes ∧ (b.victims a).2.2.2 = .legal

instance (b : LMCLocalFairBackend md K F R) : ∀ o, Decidable (b.Accepts o)
  | .put a => decidable_of_iff (chunkBytes md a ≤ md.maxBytes ∧ (b.victims a).2.2.2 = .legal)
    ⟨fun h a' ha => by cases ha; exact h, fun h => h a rfl⟩
  | .evict _ => .isTrue fun _ h => by cases h
  | .updateOnGet _ _ _ => .isTrue fun _ h => by cases h

theorem Accepts.lossless {o : Act K F R} (h : b.Accepts o) : b.Lossless o := fun a ha => Or.inr (Or.inl (h a ha).2)

omit [Field F] [FloatMath F] in
theorem recorded_new : Recorded (new md K F R).evictor (new md K F R).dict [] :=
  ⟨fun _ _ h => (by cases h), fun _ _ _ h => (by cases h)⟩

theorem recorded_act {o : Act K F R} (h : Recorded b.evictor b.dict []) (ho : b.Lossless o) (hact : b.act o = .ok b') :
    Recorded b'.evictor b'.dict [] := by
  cases o with
  | put a => exact recorded_putSections h (ho a rfl) hact
  | evict key =>
    cases hact
    exact recorded_remove h key
  | updateOnGet key c now =>
    cases hact
    exact h.updateOnGet key c now

/-- **Runs** whose puts lose no record leave every block with its records. -/
theorem recorded_of_run {ops : List (Act K F R)} (hrun : Reaches act (new md K F R) ops b)
    (hops : Along act Lossless (new md K F R) ops) : Recorded b.evictor b.dict [] := by
  have hstep : ∀ (b : LMCLocalFairBackend md K F R) (o : Act K F R) b', Recorded b.evictor b.dict [] → b.Lossless o →
      b.act o = .ok b' → Recorded b'.evictor b'.dict [] := fun _ _ _ h ho hact => recorded_act h ho hact
  exact reaches_invariant hstep recorded_new hops hrun

/-- **The global search.** After every run of accepted puts, evictions and accesses it answers, of the blocks that are not
excluded, one of least value, and `None` only if there is none. -/
theorem getMinValueKey_least {ops : List (Act K F R)} (hrun : Reaches act (new md K F R) ops b)
    (hops : Along act Accepts (new md K F R) ops) (excluded : List K) :
    (∀ k, (b.evictor.getMinValueKey b.dict excluded).1 = some k → k ∉ excluded ∧ ∃ e, b.dict.lookup k = some e ∧
      ∀ j f, b.dict.lookup j = some f → j ∉ excluded → e.value ≤ f.value) ∧
    ((b.evictor.getMinValueKey b.dict excluded).1 = none → ∀ j ∈ b.dict, j ∈ excluded) := by
  have hrecorded := recorded_of_run hrun (hops.imp fun _ _ ho => ho.lossless)
  have hlive : ∀ j f, b.dict.lookup j = some f → j ∉ excluded →
      globalStale b.dict excluded f.lambdaVal (toLex (f.value, j)) = false :=
    fun j f hj hx => globalStale_eq_false.mpr ⟨f, hj, rfl, rfl, hx⟩
  refine ⟨?_, ?_⟩
  · intro k hk
    obtain ⟨l, v, -, hstale, hleast⟩ := HeapGroup.search_some hk
    obtain ⟨e, he, -, rfl, hx⟩ := globalStale_eq_false.mp hstale
    refine ⟨hx, e, he, ?_⟩
    intro j f hj hjx
    exact hleast _ _ _ (hrecorded.global j f hj List.not_mem_nil) (hlive j f hj hjx)
  · intro hnone j hj
    by_contra hjx
    obtain ⟨f, hf⟩ := (Dict.mem_iff_lookup _ _).mp hj
    have hstale := HeapGroup.search_none hnone (hrecorded.global j f hf List.not_mem_nil)
    rw [hlive j f hf hjx] at hstale
    cases hstale

/-- Four puts, of which the last one evicts, and two accesses: without the keys 2 and 3 the search answers the key 1. -/
theorem getMinValueKey_least_evicted : ∃ b, Reaches act (new .threeChunks ℕ ℚ Unit)
      [.put (argsOf 0 2 []), .put (argsOf 1 2 []), .put (argsOf 2 2 []), .put (argsOf 3 2 []), .updateOnGet 1 2 4,
        .updateOnGet 1 1 5] b ∧
    (b.evictor.getMinValueKey b.dict [2, 3]).1 = some 1 ∧ ∃ e, b.dict.lookup 1 = some e ∧
      ∀ j f, b.dict.lookup j = some f → j ∉ [2, 3] → e.value ≤ f.value := by
  have hrun : ∃ b, Reaches act (new .threeChunks ℕ ℚ Unit)
        [.put (argsOf 0 2 []), .put (argsOf 1 2 []), .put (argsOf 2 2 []), .put (argsOf 3 2 []), .updateOnGet 1 2 4,
          .updateOnGet 1 1 5] b ∧ (b.evictor.getMinValueKey b.dict [2, 3]).1 = some 1 := by decide +kernel
  obtain ⟨b, hb, hk⟩ := hrun
  exact ⟨b, hb, hk, ((getMinValueKey_least hb (by decide +kernel) [2, 3]).1 1 hk).2⟩

end LMCLocalFairBackend

end FairCache
