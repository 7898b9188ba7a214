import FairCache.Cache.Retrieve
import FairCache.Lib.Prefixes

/-!
# Chunks and the chunks that they extend

* `CacheConfig.Before k j` : chunk `j` extends chunk `k`; `before_chunkKey` : what a chunk extends is the chunks before it;
* `PrefixClosed` : with a chunk all chunks before it are cached; `mem_residentRun` : then a retrieval gets to it;
* `keysFrom_eq`, `chunksToPut_missing` : a store of the missing chunks puts them all.
-/

namespace FairCache

open Lib

namespace CacheConfig

variable {T : Type} (cfg : CacheConfig T)

/-- The tokens of chunk `j` continue those of chunk `k`. -/
def Before (k j : CacheEngineKey) : Prop :=
  ∃ tokens m n, m < n ∧ n * cfg.chunkSize < tokens.length ∧ k = cfg.chunkKey tokens m ∧ j = cfg.chunkKey tokens n

/-- A chunk extends those before it. -/
theorem before_of_lt {tokens : List T} {m n : ℕ} (hmn : m < n) (hn : n * cfg.chunkSize < tokens.length) :
    cfg.Before (cfg.chunkKey tokens m) (cfg.chunkKey tokens n) := ⟨tokens, m, n, hmn, hn, rfl, rfl⟩

variable (hinj : Function.Injective2 cfg.hash) (hinit : ∀ tokens prefixHash, cfg.hash tokens prefixHash ≠ getInitHash)
include hinj hinit

/-- **And no others.** -/
theorem before_chunkKey {tokens : List T} {n : ℕ} (hn : n * cfg.chunkSize < tokens.length) {k : CacheEngineKey} :
    cfg.Before k (cfg.chunkKey tokens n) ↔ ∃ m < n, k = cfg.chunkKey tokens m := by
  constructor
  · rintro ⟨tokens', m, n', hm, hn', rfl, hkey⟩
    have hchunks := chainHash_injective hinj hinit (congrArg CacheEngineKey.chunkHash hkey)
    obtain ⟨rfl, -⟩ := cfg.chunkKey_injective hinj hinit hn hn' hkey
    refine ⟨m, hm, ?_⟩
    have htake := congrArg (List.take (m + 1)) hchunks
    rw [List.take_take, List.take_take, Nat.min_eq_left (by omega)] at htake
    unfold chunkKey
    rw [htake]
  · rintro ⟨m, hm, rfl⟩
    exact cfg.before_of_lt hm hn

/-- Different chunks of a list of tokens have different keys. -/
theorem chunkKey_ne {tokens : List T} {m n : ℕ} (hmn : m ≠ n) (hm : m * cfg.chunkSize < tokens.length)
    (hn : n * cfg.chunkSize < tokens.length) : cfg.chunkKey tokens m ≠ cfg.chunkKey tokens n :=
  fun h => hmn (cfg.chunkKey_injective hinj hinit hm hn h).1

omit hinj hinit in
/-- The keys from a chunk on, one by one. -/
theorem keysFrom_eq (tokens : List T) (n : ℕ) :
    cfg.keysFrom tokens n = (List.range' n ((cfg.chunkTokens tokens).length - n)).map (cfg.chunkKey tokens) := by
  apply List.ext_getElem?
  intro j
  have hlt : n + j < (cfg.chunkTokens tokens).length ↔ (n + j) * cfg.chunkSize < tokens.length :=
    lt_length_chunks cfg.chunkSize_pos tokens (n + j)
  rw [getElem?_keysFrom, List.getElem?_map]
  by_cases hj : j < (cfg.chunkTokens tokens).length - n
  · rw [if_pos (hlt.mp (by omega)), List.getElem?_range' hj, Nat.one_mul]
    rfl
  · rw [if_neg fun h => hj (by have := hlt.mpr h; omega), List.getElem?_eq_none (by rw [List.length_range']; omega)]
    rfl

end CacheConfig

namespace LMCacheEngine

variable {md : LMCacheMemPoolMetadata} {T F R : Type} [LinearOrder F] (cfg : CacheConfig T)

/-- **With a chunk all chunks before it are cached.** -/
def PrefixClosed (s : LMCacheEngine md F R) : Prop :=
  ∀ tokens n, s.Resident cfg tokens n → ∀ m < n, s.Resident cfg tokens m

variable {cfg} {s : LMCacheEngine md F R} {tokens : List T} {m n : ℕ}

theorem prefixClosed_iff : s.PrefixClosed cfg ↔ ClosedUpTo cfg.Before ∅ {k | k ∈ s.backend.dict} := by
  constructor
  · rintro h _ hj _ ⟨tokens, m, n, hm, hn, rfl, rfl⟩
    exact Or.inl (h tokens n ⟨hn, hj⟩ m hm).2
  · intro h tokens n hn m hm
    have hlt : m * cfg.chunkSize ≤ n * cfg.chunkSize := Nat.mul_le_mul_right _ (by omega)
    rcases h _ hn.2 _ (cfg.before_of_lt hm hn.1) with hmem | hmem
    · exact ⟨lt_of_le_of_lt hlt hn.1, hmem⟩
    · exact absurd hmem (Set.notMem_empty _)

/-- The run of cached chunks depends on the cached keys only. -/
theorem residentRun_congr {s' : LMCacheEngine md F R} (h : ∀ k, k ∈ s'.backend.dict ↔ k ∈ s.backend.dict)
    (tokens : List T) (n : ℕ) : s'.residentRun cfg tokens n = s.residentRun cfg tokens n := by
  have hcontains : s'.backend.contains = s.backend.contains := funext fun k => decide_eq_decide.mpr (h k)
  unfold residentRun
  rw [hcontains]

/-- So does closedness. -/
theorem PrefixClosed.congr {s' : LMCacheEngine md F R} (hs : s.PrefixClosed cfg)
    (h : ∀ k, k ∈ s'.backend.dict ↔ k ∈ s.backend.dict) : s'.PrefixClosed cfg := by
  intro tokens n hn m hm
  have hold := hs tokens n ⟨hn.1, (h _).mp hn.2⟩ m hm
  exact ⟨hold.1, (h _).mpr hold.2⟩

/-- From the first missing chunk on nothing is cached. -/
theorem PrefixClosed.not_resident (h : s.PrefixClosed cfg) (hm : ¬ s.Resident cfg tokens m) (hmn : m ≤ n) :
    ¬ s.Resident cfg tokens n := by
  intro hn
  rcases Nat.lt_or_eq_of_le hmn with hlt | rfl
  · exact hm (h tokens n hn m hlt)
  · exact hm hn

/-- Then a retrieval gets to every cached chunk. -/
theorem PrefixClosed.mem_residentRun (h : s.PrefixClosed cfg) (hn : s.Resident cfg tokens n) :
    cfg.chunkKey tokens n ∈ s.residentRun cfg tokens 0 := by
  have hstop : ¬ s.Resident cfg tokens (0 + (s.residentRun cfg tokens 0).length) :=
    not_resident_length_residentRun cfg
  rw [Nat.zero_add] at hstop
  have hlen : n < (s.residentRun cfg tokens 0).length := by
    by_contra hle
    exact h.not_resident hstop (not_lt.mp hle) hn
  have hkey := (getElem?_residentRun cfg hlen).2
  rw [Nat.zero_add] at hkey
  exact List.mem_of_getElem? hkey

section Path
variable (hinj : Function.Injective2 cfg.hash)
  (hinit : ∀ tokens prefixHash, cfg.hash tokens prefixHash ≠ CacheConfig.getInitHash)
include hinj hinit

/-- A run of cached chunks has no chunk twice. -/
theorem nodup_residentRun : (s.residentRun cfg tokens n).Nodup := by
  refine List.nodup_iff_getElem?_ne_getElem?.mpr fun i j hij hj heq => ?_
  obtain ⟨⟨hi, -⟩, hgeti⟩ := getElem?_residentRun cfg (hij.trans hj)
  obtain ⟨⟨hj, -⟩, hgetj⟩ := getElem?_residentRun cfg hj
  have hkeys := Option.some.inj (hgeti.symm.trans (heq.trans hgetj))
  have := (cfg.chunkKey_injective hinj hinit hi hj hkeys).1
  omega

/-- What a chunk of the leading run extends comes before it in the run. -/
theorem before_residentRun {i : ℕ} {j k : CacheEngineKey} (hi : (s.residentRun cfg tokens 0)[i]? = some j)
    (hb : cfg.Before k j) : ∃ m < i, (s.residentRun cfg tokens 0)[m]? = some k := by
  have hlt : i < (s.residentRun cfg tokens 0).length := (List.getElem?_eq_some_iff.mp hi).1
  obtain ⟨hres, hkey⟩ := getElem?_residentRun cfg hlt
  obtain rfl : cfg.chunkKey tokens (0 + i) = j := Option.some.inj (hkey.symm.trans hi)
  obtain ⟨m, hm, rfl⟩ := (cfg.before_chunkKey hinj hinit hres.1).mp hb
  rw [Nat.zero_add] at hm
  have hbefore := (getElem?_residentRun cfg (hm.trans hlt)).2
  rw [Nat.zero_add] at hbefore
  exact ⟨m, hm, hbefore⟩

end Path

/-! ## Stores of what is missing -/

/-- The search for the first missing chunk ends at once. -/
theorem findMissing_head {l : List (String × ℕ)} {chunkHash : String} {i c : ℕ} (h : l.head? = some (chunkHash, i))
    (hmissing : s.backend.contains (cfg.makeKey chunkHash) = false) : s.findMissing cfg l c = (some i, c) := by
  obtain ⟨l, rfl⟩ := List.head?_eq_some_iff.mp h
  rw [findMissing, hmissing]
  rfl

/-- The chunks of a store from chunk `m` on, if this one is missing. -/
theorem makeChunks_missing {kvTensors : List R} (hrows : tokens.length = kvTensors.length + m * cfg.chunkSize)
    (hm : m * cfg.chunkSize < tokens.length) (hmissing : ¬ s.Resident cfg tokens m) :
    s.makeChunks cfg tokens kvTensors m true =
      .ok ((cfg.prefixHash (cfg.chunkTokens tokens) m).zip (chunks cfg.chunkSize kvTensors)) := by
  have hcs := cfg.chunkSize_pos
  have hne : kvTensors ≠ [] := by
    intro hnil
    rw [hnil, List.length_nil] at hrows
    omega
  have hhash := cfg.getElem?_prefixHash tokens m 0
  rw [Nat.add_zero, if_pos hm] at hhash
  have hstart : (rangeStep kvTensors.length cfg.chunkSize)[0]? = some (0 * cfg.chunkSize) := by
    rw [getElem?_rangeStep hcs, Nat.zero_mul, if_pos (List.length_pos_iff.mpr hne)]
  rw [Nat.zero_mul] at hstart
  have hhead : ((cfg.prefixHash (cfg.chunkTokens tokens) m).zip (rangeStep kvTensors.length cfg.chunkSize)).head? =
      some (chainHash cfg.hash CacheConfig.getInitHash ((cfg.chunkTokens tokens).take (m + 1)), 0) := by
    rw [List.head?_eq_getElem?]
    exact List.getElem?_zip_eq_some.mpr ⟨hhash, hstart⟩
  have hno : s.backend.contains (cfg.chunkKey tokens m) = false := decide_eq_false fun hmem => hmissing ⟨hm, hmem⟩
  unfold makeChunks makeChunksSkipExisting
  rw [if_pos rfl]
  dsimp only
  rw [findMissing_head hhead hno]
  dsimp only
  rw [List.drop_zero, CacheConfig.sliceKvAt, List.drop_zero, cfg.split_of_ne_nil hne]

/-- **A store from the first missing chunk on puts all chunks from there.** -/
theorem chunksToPut_missing {a : StoreArgs T F R} (hmask : a.tokens.length = a.mask.length)
    (hskip : numSkipTok a.mask = m * cfg.chunkSize) (hrows : a.tokens.length = a.kvTensors.length + m * cfg.chunkSize)
    (hexisting : a.skipExisting = true) (hm : m * cfg.chunkSize < a.tokens.length)
    (hmissing : ¬ s.Resident cfg a.tokens m) :
    ∃ kvs, s.chunksToPut cfg a = .ok kvs ∧ kvs.map (·.1) = cfg.keysFrom a.tokens m := by
  have hcs := cfg.chunkSize_pos
  have hdiv : numSkipTok a.mask / cfg.chunkSize = m := by rw [hskip, Nat.mul_div_cancel _ hcs]
  have hcheck : checkStore cfg a = .ok () := by
    unfold checkStore
    rw [hdiv, hskip, if_neg (not_not.mpr hmask), if_neg (not_not.mpr rfl), if_neg (not_not.mpr hrows)]
  have hlength : (cfg.prefixHash (cfg.chunkTokens a.tokens) m).length ≤ (chunks cfg.chunkSize a.kvTensors).length := by
    by_contra hlt
    have hhash := cfg.getElem?_prefixHash a.tokens m (chunks cfg.chunkSize a.kvTensors).length
    have hrow := lt_length_chunks hcs a.kvTensors (chunks cfg.chunkSize a.kvTensors).length
    rw [List.getElem?_eq_getElem (not_le.mp hlt)] at hhash
    split_ifs at hhash with hin
    rw [Nat.add_mul] at hin
    exact absurd (hrow.mpr (by omega)) (lt_irrefl _)
  unfold chunksToPut
  rw [hcheck, hdiv, hexisting, makeChunks_missing hrows hm hmissing]
  refine ⟨_, rfl, ?_⟩
  rw [List.map_map, CacheConfig.keysFrom]
  conv_rhs => rw [← List.map_fst_zip hlength, List.map_map]
  rfl

end LMCacheEngine

end FairCache
