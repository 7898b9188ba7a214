import FairCache.Fair.Entry
import FairCache.Lib.LazyHeap
import Mathlib.Data.Finset.Insert
import Mathlib.Data.List.MinMax

/-!
# The fair evictor

`FairEvictor` keeps the size ledger, each client's usage and the heaps the victims are searched in.

* `getMinValueKey`, `getMinValueKeyForClient` : the two victim searches, which clean the heaps they look at;
* `select` : what choosing a victim changes;
* `evictBelowThreshold`, `evictFromMaxClient` : the two passes of `updateOnPut`;
* `updateOnGet`, `registerNewCache` : the read side.
-/

namespace FairCache

open Lib

/-- The evictor of a fair cache over the pool `md`. -/
structure FairEvictor (md : LMCacheMemPoolMetadata) (K F : Type) [LinearOrder K] [LinearOrder F] where
  currentCacheSize : ℤ
  /-- `client_heaps[client_id][lambda_val]` -/
  clientHeaps : Dict ClientId (HeapGroup F F K)
  /-- `global_heaps[lambda_val]` -/
  globalHeaps : HeapGroup F F K
  clientCacheSizes : Dict ClientId F
  keyToClients : Dict K (Finset ClientId)

namespace FairEvictor

variable {md : LMCacheMemPoolMetadata} {K F : Type} [LinearOrder K] [LinearOrder F]

/-- An evictor that has seen nothing. -/
def new (md : LMCacheMemPoolMetadata) (K F : Type) [LinearOrder K] [LinearOrder F] : FairEvictor md K F :=
  { currentCacheSize := 0, clientHeaps := ∅, globalHeaps := ∅, clientCacheSizes := ∅, keyToClients := ∅ }

/-- `MAX_CACHE_SIZE`. -/
def maxCacheSize (_ : FairEvictor md K F) : ℕ := md.maxBytes

/-- `cache_size` more bytes fit: the test that ends both passes. -/
def HasRoom (ev : FairEvictor md K F) (cacheSize : ℕ) : Prop := cacheSize + ev.currentCacheSize ≤ ev.maxCacheSize

instance (ev : FairEvictor md K F) (cacheSize : ℕ) : Decidable (ev.HasRoom cacheSize) :=
  inferInstanceAs (Decidable (_ ≤ _))

theorem hasRoom_iff (ev : FairEvictor md K F) (cacheSize : ℕ) :
    ev.HasRoom cacheSize ↔ cacheSize + ev.currentCacheSize ≤ md.maxBytes := Iff.rfl

theorem hasRoom_congr {ev ev' : FairEvictor md K F} (h : ev'.currentCacheSize = ev.currentCacheSize)
    (cacheSize : ℕ) : ev'.HasRoom cacheSize ↔ ev.HasRoom cacheSize := by rw [hasRoom_iff, hasRoom_iff, h]

/-! ## Heaps and searches -/

/-- `_update_client_heap`. -/
def updateClientHeap (ev : FairEvictor md K F) (clientId : ClientId) (lambdaVal : F) (key : K) (value : F) :
    FairEvictor md K F :=
  { ev with clientHeaps := ev.clientHeaps.upsert clientId fun hs => (hs.getD ∅).push lambdaVal value key }

/-- `_update_global_heap`. -/
def updateGlobalHeap (ev : FairEvictor md K F) (lambdaVal : F) (key : K) (value : F) : FairEvictor md K F :=
  { ev with globalHeaps := ev.globalHeaps.push lambdaVal value key }

/-- `_get_max_client_id` : the first client of maximal recorded usage. -/
def getMaxClientId (ev : FairEvictor md K F) : Option ClientId :=
  (ev.clientCacheSizes.entries.argmax (·.2)).map (·.1)

/-- A record of the global heaps that the search drops: the block is gone or excluded, or the record is outdated. -/
def globalStale (cacheDict : Dict K (CacheEntry F)) (excluded : List K) (lambdaVal : F) (r : F ×ₗ K) : Bool :=
  match cacheDict.lookup (ofLex r).2 with
  | none => true
  | some entry =>
    decide (entry.lambdaVal ≠ lambdaVal ∨ entry.value ≠ (ofLex r).1 ∨ (ofLex r).2 ∈ excluded)

/-- `_get_min_value_key` : a resident key of least value, and the evictor with its heaps cleaned. -/
def getMinValueKey (ev : FairEvictor md K F) (cacheDict : Dict K (CacheEntry F)) (excluded : List K) :
    Option K × FairEvictor md K F :=
  let (bestKey, heaps) := ev.globalHeaps.search (globalStale cacheDict excluded)
  (bestKey, { ev with globalHeaps := heaps })

/-- A record of a client's heaps that the search drops. Unlike `globalStale` it does not compare the value. -/
def clientStale (clientId : ClientId) (cacheDict : Dict K (CacheEntry F)) (excluded : List K) (lambdaVal : F)
    (r : F ×ₗ K) : Bool :=
  match cacheDict.lookup (ofLex r).2 with
  | none => true
  | some entry =>
    decide (entry.lambdaVal ≠ lambdaVal ∨ clientId ∉ entry.accessMap ∨ (ofLex r).2 ∈ excluded)

/-- `_get_min_value_key_for_client`. -/
def getMinValueKeyForClient (ev : FairEvictor md K F) (clientId : ClientId) (cacheDict : Dict K (CacheEntry F))
    (excluded : List K) : Option K × FairEvictor md K F :=
  match ev.clientHeaps.lookup clientId with
  | none => (none, ev)
  | some hs =>
    let (bestKey, heaps) := hs.search (clientStale clientId cacheDict excluded)
    (bestKey, { ev with clientHeaps := ev.clientHeaps.set clientId heaps })

/-- A record the global search keeps: it is up to date and not excluded. -/
theorem globalStale_eq_false {d : Dict K (CacheEntry F)} {x : List K} {l v : F} {k : K} :
    globalStale d x l (toLex (v, k)) = false ↔
      ∃ e, d.lookup k = some e ∧ e.lambdaVal = l ∧ e.value = v ∧ k ∉ x := by
  unfold globalStale
  rw [ofLex_toLex]
  cases d.lookup k <;> simp

/-- A record a client's search keeps. -/
theorem clientStale_eq_false {c : ClientId} {d : Dict K (CacheEntry F)} {x : List K} {l v : F} {k : K} :
    clientStale c d x l (toLex (v, k)) = false ↔
      ∃ e, d.lookup k = some e ∧ e.lambdaVal = l ∧ c ∈ e.accessMap ∧ k ∉ x := by
  unfold clientStale
  rw [ofLex_toLex]
  cases d.lookup k <;> simp

/-- Excluding more keys keeps what was stale stale. -/
theorem globalStale_mono {d : Dict K (CacheEntry F)} {x y : List K} (hxy : ∀ k ∈ x, k ∈ y) (l : F) (r : F ×ₗ K)
    (h : globalStale d x l r = true) : globalStale d y l r = true := by
  by_contra hy
  obtain ⟨v, k⟩ := r
  obtain ⟨e, he, hl, hv, hk⟩ := globalStale_eq_false.mp (Bool.eq_false_of_not_eq_true hy)
  have hlive : globalStale d x l (toLex (v, k)) = false :=
    globalStale_eq_false.mpr ⟨e, he, hl, hv, fun hx => hk (hxy _ hx)⟩
  exact Bool.noConfusion (h.symm.trans hlive)

/-- A search changes no answer of a later search that excludes at least as much. -/
theorem getMinValueKey_getMinValueKey (ev : FairEvictor md K F) (d : Dict K (CacheEntry F)) {x y : List K}
    (hxy : ∀ k ∈ x, k ∈ y) : ((ev.getMinValueKey d x).2.getMinValueKey d y).1 = (ev.getMinValueKey d y).1 := by
  have hsearch := congrArg Prod.fst (HeapGroup.search_search (globalStale_mono (d := d) hxy) ev.globalHeaps)
  exact hsearch

theorem getMinValueKey_some {ev ev' : FairEvictor md K F} {d : Dict K (CacheEntry F)} {x : List K} {k : K}
    (h : ev.getMinValueKey d x = (some k, ev')) : k ∉ x ∧ ∃ e, d.lookup k = some e := by
  obtain ⟨l, v, -, hlive, -⟩ := HeapGroup.search_some (congrArg Prod.fst h)
  obtain ⟨e, he, -, -, hx⟩ := globalStale_eq_false.mp hlive
  exact ⟨hx, e, he⟩

theorem getMinValueKeyForClient_some {ev ev' : FairEvictor md K F} {c : ClientId} {d : Dict K (CacheEntry F)}
    {x : List K} {k : K} (h : ev.getMinValueKeyForClient c d x = (some k, ev')) :
    k ∉ x ∧ ∃ e, d.lookup k = some e ∧ c ∈ e.accessMap := by
  unfold getMinValueKeyForClient at h
  cases hc : ev.clientHeaps.lookup c with
  | none => rw [hc] at h; cases h
  | some hs =>
    rw [hc] at h
    obtain ⟨l, v, -, hlive, -⟩ := HeapGroup.search_some (congrArg Prod.fst h)
    obtain ⟨e, he, -, hmem, hx⟩ := clientStale_eq_false.mp hlive
    exact ⟨hx, e, he, hmem⟩

/-- A client's search looks at this client's heaps only. -/
theorem getMinValueKeyForClient_congr {ev ev' : FairEvictor md K F} {c : ClientId}
    (h : ev'.clientHeaps.lookup c = ev.clientHeaps.lookup c) (d : Dict K (CacheEntry F)) (x : List K) :
    (ev'.getMinValueKeyForClient c d x).1 = (ev.getMinValueKeyForClient c d x).1 := by
  simp only [getMinValueKeyForClient, h]
  cases ev.clientHeaps.lookup c <;> rfl

@[simp] theorem currentCacheSize_getMinValueKey (ev : FairEvictor md K F) (d : Dict K (CacheEntry F))
    (x : List K) : (ev.getMinValueKey d x).2.currentCacheSize = ev.currentCacheSize := rfl

@[simp] theorem clientCacheSizes_getMinValueKey (ev : FairEvictor md K F) (d : Dict K (CacheEntry F))
    (x : List K) : (ev.getMinValueKey d x).2.clientCacheSizes = ev.clientCacheSizes := rfl

@[simp] theorem clientHeaps_getMinValueKey (ev : FairEvictor md K F) (d : Dict K (CacheEntry F))
    (x : List K) : (ev.getMinValueKey d x).2.clientHeaps = ev.clientHeaps := rfl

@[simp] theorem currentCacheSize_getMinValueKeyForClient (ev : FairEvictor md K F) (c : ClientId)
    (d : Dict K (CacheEntry F)) (x : List K) :
    (ev.getMinValueKeyForClient c d x).2.currentCacheSize = ev.currentCacheSize := by
  unfold getMinValueKeyForClient; split <;> rfl

@[simp] theorem clientCacheSizes_getMinValueKeyForClient (ev : FairEvictor md K F) (c : ClientId)
    (d : Dict K (CacheEntry F)) (x : List K) :
    (ev.getMinValueKeyForClient c d x).2.clientCacheSizes = ev.clientCacheSizes := by
  unfold getMinValueKeyForClient; split <;> rfl

theorem getMaxClientId_mem {ev : FairEvictor md K F} {m : ClientId} (h : ev.getMaxClientId = some m) :
    m ∈ ev.clientCacheSizes := by
  obtain ⟨e, he, rfl⟩ := Option.map_eq_some_iff.mp h
  exact Dict.mem_of_lookup ((Dict.lookup_eq_some_iff _ e.1 e.2).mpr (List.argmax_mem he))

theorem getMaxClientId_le {ev : FairEvictor md K F} {m : ClientId} (h : ev.getMaxClientId = some m) {c : ClientId}
    {v : F} (hv : ev.clientCacheSizes.lookup c = some v) :
    ∃ w, ev.clientCacheSizes.lookup m = some w ∧ v ≤ w := by
  obtain ⟨e, he, rfl⟩ := Option.map_eq_some_iff.mp h
  have hmem : (⟨c, v⟩ : Sigma fun _ : ClientId => F) ∈ ev.clientCacheSizes.entries :=
    (Dict.lookup_eq_some_iff _ _ _).mp hv
  exact ⟨e.2, (Dict.lookup_eq_some_iff _ e.1 e.2).mpr (List.argmax_mem he), List.le_of_mem_argmax hmem he⟩

/-! ## Usage -/

section Usage
variable [Field F]

/-- `value_threshold`, which the backend leaves at its default `0.01`. -/
def valueThreshold (_ : FairEvictor md K F) : F := 1 / 100

/-- Take a block's shares off its clients: `client_cache_sizes[cid] = max(0, client_cache_sizes[cid] - share)` for
each sharer the table knows. -/
def dropShares (sizes : Dict ClientId F) (entry : CacheEntry F) : Dict ClientId F :=
  if entry.clients.length = 0 then sizes
  else
    let perClientSize := (entry.kvObj.size : F) / entry.clients.length
    sizes.adjustAll entry.clients fun v => max 0 (v - perClientSize)

@[simp] theorem keys_dropShares (sizes : Dict ClientId F) (entry : CacheEntry F) :
    (dropShares sizes entry).keys = sizes.keys := by
  unfold dropShares; split_ifs <;> simp

theorem size_dropShares (sizes : Dict ClientId F) (entry : CacheEntry F) :
    (dropShares sizes entry).size = sizes.size := by
  rw [← Dict.length_keys, keys_dropShares, Dict.length_keys]

/-- Choose a victim: its size leaves the ledger, its shares leave the clients' usage. The block itself stays in the
dictionary until the backend removes it. -/
def select (ev : FairEvictor md K F) (key : K) (entry : CacheEntry F) : FairEvictor md K F :=
  { ev with
    currentCacheSize := ev.currentCacheSize - entry.kvObj.size
    clientCacheSizes := dropShares ev.clientCacheSizes entry
    keyToClients := ev.keyToClients.erase key }

end Usage

/-- Take a client off the usage table. -/
def dropClient (ev : FairEvictor md K F) (clientId : ClientId) : FairEvictor md K F :=
  { ev with clientCacheSizes := ev.clientCacheSizes.erase clientId }

@[simp] theorem mem_dropClient (ev : FairEvictor md K F) (m c : ClientId) :
    c ∈ (ev.dropClient m).clientCacheSizes ↔ c ≠ m ∧ c ∈ ev.clientCacheSizes := AList.mem_erase

/-! ## `updateOnPut` -/

/-- The keys a pass can still choose. -/
def unselected (cacheDict : Dict K (CacheEntry F)) (evictKeys : List K) : List K :=
  cacheDict.keys.filter (· ∉ evictKeys)

omit [LinearOrder F] in
theorem unselected_lt {d : Dict K (CacheEntry F)} {x : List K} {k : K} (hk : k ∈ d) (hx : k ∉ x) :
    (unselected d (x ++ [k])).length < (unselected d x).length := by
  have hmem : k ∈ unselected d x := List.mem_filter.mpr ⟨AList.mem_keys.mp hk, by simpa using hx⟩
  have heq : unselected d (x ++ [k]) = (unselected d x).filter (· ≠ k) := by
    rw [unselected, unselected, List.filter_filter]
    refine List.filter_congr fun j _ => ?_
    by_cases h1 : j ∈ x <;> by_cases h2 : j = k <;> simp [h1, h2]
  rw [heq]
  refine List.length_filter_lt_length_iff_exists.mpr ⟨k, hmem, by simp⟩

variable [Field F] [FloatMath F]

/-- Step 1: choose blocks whose value is below the threshold, the least first, while space is lacking. The chosen
keys double as the excluded ones. -/
def evictBelowThreshold (cacheDict : Dict K (CacheEntry F)) (cacheSize : ℕ) (retrievedKeys : List K)
    (currentTime : F) (ev : FairEvictor md K F) (evictKeys : List K) : FairEvictor md K F × List K :=
  if ev.HasRoom cacheSize then (ev, evictKeys)
  else
    match _h : ev.getMinValueKey cacheDict evictKeys with
    | (none, ev') => (ev', evictKeys)
    | (some minKey, ev') =>
      if minKey ∈ retrievedKeys then (ev', evictKeys)
      else
        match cacheDict.lookup minKey with
        -- no run: the search answers resident keys
        | none => (ev', evictKeys)
        | some minEntry =>
          if ev.valueThreshold ≤ minEntry.instantValue currentTime then (ev', evictKeys)
          else
            evictBelowThreshold cacheDict cacheSize retrievedKeys currentTime (ev'.select minKey minEntry)
              (evictKeys ++ [minKey])
termination_by (unselected cacheDict evictKeys).length
decreasing_by
  obtain ⟨hx, e, he⟩ := getMinValueKey_some _h
  exact unselected_lt (Dict.mem_of_lookup he) hx

/-- Step 2: while space is lacking, choose the least block of the client of maximal usage; a client without a block
to give leaves the table. It is refused when the table runs empty. -/
def evictFromMaxClient (cacheDict : Dict K (CacheEntry F)) (cacheSize : ℕ) (retrievedKeys : List K)
    (ev : FairEvictor md K F) (evictClientId : Option ClientId) (evictKeys : List K) :
    FairEvictor md K F × Option ClientId × List K × PutStatus :=
  if ev.HasRoom cacheSize then (ev, evictClientId, evictKeys, .legal)
  else
    match _hm : ev.getMaxClientId with
    | none => (ev, evictClientId, evictKeys, .illegal)
    | some maxClientId =>
      match _h : ev.getMinValueKeyForClient maxClientId cacheDict evictKeys with
      | (none, ev') =>
        evictFromMaxClient cacheDict cacheSize retrievedKeys (ev'.dropClient maxClientId) evictClientId evictKeys
      | (some minKey, ev') =>
        if minKey ∈ retrievedKeys then
          evictFromMaxClient cacheDict cacheSize retrievedKeys (ev'.dropClient maxClientId) evictClientId evictKeys
        else
          match cacheDict.lookup minKey with
          -- no run: the search answers resident keys
          | none => (ev', evictClientId, evictKeys, .illegal)
          | some evictEntry =>
            evictFromMaxClient cacheDict cacheSize retrievedKeys (ev'.select minKey evictEntry) (some maxClientId)
              (evictKeys ++ [minKey])
termination_by (unselected cacheDict evictKeys).length + ev.clientCacheSizes.size
decreasing_by
  all_goals
    have hsizes : ev'.clientCacheSizes = ev.clientCacheSizes := by
      rw [← clientCacheSizes_getMinValueKeyForClient ev maxClientId cacheDict evictKeys, _h]
    have hmax := getMaxClientId_mem _hm
  · rw [← hsizes] at hmax ⊢
    have := Dict.size_erase hmax
    simp only [dropClient]
    omega
  · rw [← hsizes] at hmax ⊢
    have := Dict.size_erase hmax
    simp only [dropClient]
    omega
  · obtain ⟨hx, e, he, -⟩ := getMinValueKeyForClient_some _h
    have := unselected_lt (Dict.mem_of_lookup he) hx
    rw [select, size_dropShares, hsizes]
    omega

/-- Both passes of `update_on_put`, one after the other. -/
def chooseVictims (ev : FairEvictor md K F) (cacheDict : Dict K (CacheEntry F)) (cacheSize : ℕ)
    (retrievedKeys : List K) (currentTime : F) : FairEvictor md K F × Option ClientId × List K × PutStatus :=
  let pass₁ := evictBelowThreshold cacheDict cacheSize retrievedKeys currentTime ev []
  evictFromMaxClient cacheDict cacheSize retrievedKeys pass₁.1 none pass₁.2

/-- `update_on_put` : make room for `cacheSize` bytes. It answers the last client that lost a block to step 2, the
keys to remove and whether the put may go on. -/
def updateOnPut (ev : FairEvictor md K F) (cacheDict : Dict K (CacheEntry F)) (cacheSize : ℕ)
    (retrievedKeys : List K) (currentTime : F) : FairEvictor md K F × Option ClientId × List K × PutStatus :=
  if ev.maxCacheSize < cacheSize then (ev, none, [], .illegal)
  else
    match ev.chooseVictims cacheDict cacheSize retrievedKeys currentTime with
    | (ev, _, _, .illegal) => (ev, none, [], .illegal)
    | (ev, evictClientId, evictKeys, .legal) =>
      ({ ev with currentCacheSize := ev.currentCacheSize + cacheSize }, evictClientId, evictKeys, .legal)

/-! ## The read side -/

/-- What an access changes in the usage table; `old` is the entry before the access and `entry` after it. -/
def accessSizes (sizes : Dict ClientId F) (old entry : CacheEntry F) (clientId : ClientId) : Dict ClientId F :=
  let cacheSize : F := entry.kvObj.size
  let oldPerClientSize := cacheSize / old.clients.length
  let newPerClientSize := cacheSize / entry.clients.length
  if clientId ∉ old.accessMap ∧ 0 < old.clients.length then
    let sizes := sizes.upsertAll (entry.clients.filter (· ≠ clientId)) fun
      | some v => max 0 (v - oldPerClientSize + newPerClientSize)
      | none => newPerClientSize
    sizes.upsert clientId fun v => v.getD 0 + newPerClientSize
  else if entry.clients.length = 1 then
    -- also the way of a sole owner that comes back
    sizes.upsert clientId fun v => v.getD 0 + cacheSize
  else sizes

/-- Record an access in `key_to_clients` and push the block's value on the heaps of every sharer. -/
def recordValue (ev : FairEvictor md K F) (key : K) (clientId : ClientId) (entry : CacheEntry F)
    (sharers : List ClientId) : FairEvictor md K F :=
  let ev := { ev with keyToClients := ev.keyToClients.upsert key fun cs => insert clientId (cs.getD ∅) }
  let ev := ev.updateGlobalHeap entry.lambdaVal key entry.value
  sharers.foldl (fun ev cid => ev.updateClientHeap cid entry.lambdaVal key entry.value) ev

omit [Field F] [FloatMath F] in
/-- An access recorded changes neither the ledger nor the usage table. -/
theorem sizes_recordValue (ev : FairEvictor md K F) (key : K) (c : ClientId) (e : CacheEntry F)
    (sharers : List ClientId) : (ev.recordValue key c e sharers).currentCacheSize = ev.currentCacheSize ∧
      (ev.recordValue key c e sharers).clientCacheSizes = ev.clientCacheSizes := by
  have hfold : ∀ ev' : FairEvictor md K F, ev'.currentCacheSize = ev.currentCacheSize ∧
      ev'.clientCacheSizes = ev.clientCacheSizes →
      (sharers.foldl (fun ev cid => ev.updateClientHeap cid e.lambdaVal key e.value) ev').currentCacheSize =
        ev.currentCacheSize ∧
      (sharers.foldl (fun ev cid => ev.updateClientHeap cid e.lambdaVal key e.value) ev').clientCacheSizes =
        ev.clientCacheSizes := by
    induction sharers with
    | nil => exact fun ev' h => h
    | cons s sharers ih => exact fun ev' h => ih _ h
  exact hfold _ ⟨rfl, rfl⟩

omit [Field F] [FloatMath F] in
@[simp] theorem currentCacheSize_recordValue (ev : FairEvictor md K F) (key : K) (c : ClientId) (e : CacheEntry F)
    (sharers : List ClientId) : (ev.recordValue key c e sharers).currentCacheSize = ev.currentCacheSize :=
  (sizes_recordValue ev key c e sharers).1

omit [Field F] [FloatMath F] in
@[simp] theorem clientCacheSizes_recordValue (ev : FairEvictor md K F) (key : K) (c : ClientId) (e : CacheEntry F)
    (sharers : List ClientId) : (ev.recordValue key c e sharers).clientCacheSizes = ev.clientCacheSizes :=
  (sizes_recordValue ev key c e sharers).2

/-- `update_on_get` : `clientId` accessed `key` at `now`. -/
def updateOnGet (ev : FairEvictor md K F) (key : K) (clientId : ClientId) (cacheDict : Dict K (CacheEntry F))
    (now : F) : FairEvictor md K F × Dict K (CacheEntry F) :=
  match cacheDict.lookup key with
  | none => (ev, cacheDict)
  | some old =>
    let entry := (old.updateAccessTime clientId now).updateValue
    let ev := ev.recordValue key clientId entry entry.clients
    ({ ev with clientCacheSizes := accessSizes ev.clientCacheSizes old entry clientId }, cacheDict.set key entry)

/-- `register_new_cache` : record the first access of a new block, whose whole size its client is charged. -/
def registerNewCache (ev : FairEvictor md K F) (key : K) (entry : CacheEntry F) (clientId : ClientId) (now : F) :
    FairEvictor md K F × CacheEntry F :=
  let entry := (entry.updateAccessTime clientId now).updateValue
  let ev := ev.recordValue key clientId entry [clientId]
  ({ ev with clientCacheSizes := ev.clientCacheSizes.upsert clientId fun v => v.getD 0 + entry.kvObj.size }, entry)

end FairEvictor

end FairCache
