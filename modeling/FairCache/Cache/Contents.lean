import FairCache.Cache.Engine
import FairCache.Fair.Contents
import FairCache.Lib.History

/-!
# What the engine's stores leave in the cache

* `CacheConfig.chunkKey tokens k` : the key of chunk `k`; `chunkKey_injective` : two lists of tokens share the key of
  a chunk only if they agree through that chunk;
* `puts s a` : what `store` puts at `s`; `of_mem_puts` : the key of a chunk with the rows supplied for its tokens;
* `LastStored` : the last store that put a key; `exists_lastStored` : a resident chunk has the rows of that store.
-/

namespace FairCache

open Lib

namespace CacheConfig

variable {T R : Type} (cfg : CacheConfig T)

/-- The key of chunk `k` : it hashes the chunks through `k`. -/
def chunkKey (tokens : List T) (k : ℕ) : CacheEngineKey :=
  cfg.makeKey (chainHash cfg.hash getInitHash ((cfg.chunkTokens tokens).take (k + 1)))

theorem getElem?_prefixHash (tokens : List T) (n j : ℕ) :
    (cfg.prefixHash (cfg.chunkTokens tokens) n)[j]? =
      if (n + j) * cfg.chunkSize < tokens.length then
        some (chainHash cfg.hash getInitHash ((cfg.chunkTokens tokens).take (n + j + 1)))
      else none := by
  rw [prefixHash, List.getElem?_drop, getElem?_prefixHashes]
  exact if_congr (lt_length_chunks cfg.chunkSize_pos tokens (n + j)) rfl rfl

theorem getElem?_keysFrom (tokens : List T) (n j : ℕ) :
    (cfg.keysFrom tokens n)[j]? =
      if (n + j) * cfg.chunkSize < tokens.length then some (cfg.chunkKey tokens (n + j)) else none := by
  rw [keysFrom, List.getElem?_map, getElem?_prefixHash]
  split_ifs <;> rfl

/-- **Equal keys of chunks mean equal tokens through the chunk.** -/
theorem chunkKey_injective (hinj : Function.Injective2 cfg.hash)
    (hinit : ∀ tokens prefixHash, cfg.hash tokens prefixHash ≠ getInitHash) {tokens tokens' : List T} {k k' : ℕ}
    (hk : k * cfg.chunkSize < tokens.length) (hk' : k' * cfg.chunkSize < tokens'.length)
    (h : cfg.chunkKey tokens k = cfg.chunkKey tokens' k') :
    k = k' ∧ tokens.take ((k + 1) * cfg.chunkSize) = tokens'.take ((k + 1) * cfg.chunkSize) := by
  have hcs := cfg.chunkSize_pos
  have hchunks := chainHash_injective hinj hinit (congrArg CacheEngineKey.chunkHash h)
  have hlt := (lt_length_chunks hcs tokens k).mpr hk
  have hlt' := (lt_length_chunks hcs tokens' k').mpr hk'
  obtain rfl : k = k' := by
    have := congrArg List.length hchunks
    rw [List.length_take, List.length_take, chunkTokens, chunkTokens] at this
    omega
  refine ⟨rfl, ?_⟩
  rw [← flatten_take_chunks hcs, ← flatten_take_chunks hcs]
  exact congrArg List.flatten hchunks

theorem split_of_ne_nil {kvTensors : List R} (h : kvTensors ≠ []) :
    cfg.split kvTensors = chunks cfg.chunkSize kvTensors := by
  rw [split, if_neg (by rwa [List.isEmpty_iff])]

/-- What fits a chunk is split into itself. -/
theorem headD_split {kvTensors : List R} (h : kvTensors.length ≤ cfg.chunkSize) :
    (cfg.split kvTensors).headD [] = kvTensors := by
  cases kvTensors with
  | nil => rfl
  | cons r rs =>
    have h0 := getElem?_chunks cfg.chunkSize_pos (r :: rs) 0
    rw [if_pos (by simp), Nat.zero_mul, List.drop_zero, List.take_of_length_le h] at h0
    rw [split_of_ne_nil cfg (List.cons_ne_nil r rs), List.headD_eq_head?_getD, List.head?_eq_getElem?, h0]
    rfl

end CacheConfig

namespace LMCacheEngine

variable {md : LMCacheMemPoolMetadata} {T F R : Type} [LinearOrder F] (cfg : CacheConfig T) (s : LMCacheEngine md F R)

/-! ## The chunks of a store -/

/-- What the search answers is in the list, at its number. -/
theorem findMissing_some {l : List (String × ℕ)} {c₀ c idx : ℕ} (h : s.findMissing cfg l c₀ = (some idx, c)) :
    ∃ j chunkHash, c = c₀ + j ∧ l[j]? = some (chunkHash, idx) := by
  induction l generalizing c₀ with
  | nil => cases h
  | cons e l ih =>
    obtain ⟨chunkHash, i⟩ := e
    simp only [findMissing] at h
    split_ifs at h with hc
    · obtain ⟨j, hash', rfl, hj⟩ := ih h
      exact ⟨j + 1, hash', by omega, hj⟩
    · cases h
      exact ⟨0, chunkHash, rfl, rfl⟩

theorem mem_of_mem_drop_zip {α β : Type} {l : List α} {l' : List β} {n : ℕ} {x : α × β}
    (h : x ∈ (l.drop n).zip (l'.drop n)) : x ∈ l.zip l' := by
  rw [List.zip, ← List.drop_zipWith] at h
  exact List.mem_of_mem_drop h

variable {s}

/-- The chunks of a store are hashes zipped with the pieces of its rows. -/
theorem mem_zip_of_mem_makeChunks {tokens : List T} {kvTensors : List R} {n : ℕ} {skipExisting : Bool}
    {l : List (String × List R)} (h : s.makeChunks cfg tokens kvTensors n skipExisting = .ok l)
    (hlen : tokens.length = kvTensors.length + n * cfg.chunkSize) {x : String × List R} (hx : x ∈ l) :
    x ∈ (cfg.prefixHash (cfg.chunkTokens tokens) n).zip (chunks cfg.chunkSize kvTensors) := by
  have hcs := cfg.chunkSize_pos
  unfold makeChunks at h
  split_ifs at h with hskip hn
  · cases h
    unfold makeChunksSkipExisting at hx
    simp only at hx
    split at hx
    · exact absurd hx List.not_mem_nil
    · rename_i idx c hfind
      obtain ⟨j, chunkHash, rfl, hj⟩ := findMissing_some cfg s hfind
      obtain ⟨-, hidx⟩ := List.getElem?_zip_eq_some.mp hj
      rw [getElem?_rangeStep hcs] at hidx
      split_ifs at hidx with hlt
      obtain rfl : j * cfg.chunkSize = idx := Option.some.inj hidx
      have hne : kvTensors.drop (j * cfg.chunkSize) ≠ [] := by
        rw [Ne, List.drop_eq_nil_iff]
        omega
      rw [CacheConfig.sliceKvAt, cfg.split_of_ne_nil hne, chunks_drop hcs, Nat.zero_add] at hx
      exact mem_of_mem_drop_zip hx
  · obtain rfl : n = 0 := not_not.mp hn
    cases h
    cases kvTensors with
    | nil =>
      have htokens : tokens = [] := List.eq_nil_of_length_eq_zero (by simpa using hlen)
      rw [htokens, CacheConfig.chunkTokens, chunks_nil hcs] at hx
      exact absurd hx List.not_mem_nil
    | cons r rs =>
      rwa [CacheConfig.sliceKvAt, List.drop_zero, cfg.split_of_ne_nil (List.cons_ne_nil r rs)] at hx

omit [LinearOrder F] in
/-- The assertions of `store`, when they pass. -/
theorem checkStore_ok {a : StoreArgs T F R} {u : Unit} (h : checkStore cfg a = .ok u) :
    numSkipTok a.mask = numSkipTok a.mask / cfg.chunkSize * cfg.chunkSize ∧
      a.tokens.length = a.kvTensors.length + numSkipTok a.mask := by
  unfold checkStore at h
  split_ifs at h with h₁ h₂ h₃
  exact ⟨not_not.mp h₂, not_not.mp h₃⟩

/-- What `store` puts at `s` : nothing without a client. -/
def puts (s : LMCacheEngine md F R) (a : StoreArgs T F R) : List (CacheEngineKey × List R) :=
  match activeClient a.clientIdCtx, s.chunksToPut cfg a with
  | some _, .ok keysAndChunks => keysAndChunks
  | _, _ => []

theorem puts_of_none {a : StoreArgs T F R} (h : activeClient a.clientIdCtx = none) : s.puts cfg a = [] := by
  rw [puts, h]

theorem puts_of_some {a : StoreArgs T F R} {c : ClientId} {kvs : List (CacheEngineKey × List R)}
    (hc : activeClient a.clientIdCtx = some c) (h : s.chunksToPut cfg a = .ok kvs) : s.puts cfg a = kvs := by
  rw [puts, hc, h]

/-- **A store puts, under the key of a chunk, the rows supplied for the chunk's tokens.** -/
theorem of_mem_puts {a : StoreArgs T F R} {key : CacheEngineKey} {rows : List R} (h : (key, rows) ∈ s.puts cfg a) :
    ∃ k, k * cfg.chunkSize < a.tokens.length ∧ numSkipTok a.mask ≤ k * cfg.chunkSize ∧
      a.tokens.length = a.kvTensors.length + numSkipTok a.mask ∧ key = cfg.chunkKey a.tokens k ∧
      rows = (a.kvTensors.drop (k * cfg.chunkSize - numSkipTok a.mask)).take cfg.chunkSize := by
  unfold puts at h
  split at h
  · rename_i c l hc hput
    obtain ⟨u, hcheck, hput⟩ := bind_ok hput
    obtain ⟨hashes, hmake, hput⟩ := bind_ok hput
    cases hput
    obtain ⟨halign, hlen⟩ := checkStore_ok cfg hcheck
    obtain ⟨x, hx, hkey⟩ := List.mem_map.mp h
    have hzip := mem_zip_of_mem_makeChunks cfg hmake (halign ▸ hlen) hx
    obtain ⟨j, hj⟩ := List.getElem?_of_mem hzip
    obtain ⟨hhash, hrows⟩ := List.getElem?_zip_eq_some.mp hj
    rw [CacheConfig.getElem?_prefixHash] at hhash
    rw [getElem?_chunks cfg.chunkSize_pos] at hrows
    split_ifs at hhash with hlt
    split_ifs at hrows with hlt'
    cases hkey
    have hmul := Nat.add_mul (numSkipTok a.mask / cfg.chunkSize) j cfg.chunkSize
    refine ⟨numSkipTok a.mask / cfg.chunkSize + j, hlt, by omega, hlen, ?_, ?_⟩
    · rw [CacheConfig.chunkKey, Option.some.inj hhash]
    · rw [← Option.some.inj hrows, show _ - _ = j * cfg.chunkSize by omega]
  · exact absurd h List.not_mem_nil

/-! ## Runs -/

variable [Field F] [FloatMath F]

/-- What an operation writes, in the order it writes it. -/
def writes (s : LMCacheEngine md F R) : Op T F R → List (CacheEngineKey × List R)
  | .store a => (s.puts cfg a).reverse
  | .evict _ => []
  | .retrieve _ => []

/-- Without a client a batch of puts puts nothing. -/
theorem batchedPut_of_none {a : StoreArgs T F R} (hc : activeClient a.clientIdCtx = none)
    (b : LMCLocalFairBackend md CacheEngineKey F R) (kvs : List (CacheEngineKey × List R)) :
    batchedPut a b kvs = .ok b := by
  unfold batchedPut
  induction kvs.reverse.zipIdx with
  | nil => rfl
  | cons x l ih =>
    have hput : ∀ key rows i, b.put a.clientIdCtx a.requestType key rows a.blocking a.retrievedKeys none
        (a.clock i).1 (a.clock i).2 = .ok b := by
      intro key rows i
      unfold LMCLocalFairBackend.put
      rw [hc]
    rw [List.foldlM_cons, hput]
    exact ih

theorem holds_batchedPut {a : StoreArgs T F R} {c : ClientId} (hc : activeClient a.clientIdCtx = some c)
    {kvs : List (CacheEngineKey × List R)} {m : CacheEngineKey → Option (List R)}
    {b b' : LMCLocalFairBackend md CacheEngineKey F R} (h : b.Holds m) (hput : batchedPut a b kvs = .ok b') :
    b'.Holds (writeAll m kvs.reverse) := by
  have hfold : ∀ (l : List ((CacheEngineKey × List R) × ℕ)) (m : CacheEngineKey → Option (List R))
      (b : LMCLocalFairBackend md CacheEngineKey F R), b.Holds m →
      l.foldlM (fun b x => b.put a.clientIdCtx a.requestType x.1.1 x.1.2 a.blocking a.retrievedKeys none
        (a.clock x.2).1 (a.clock x.2).2) b = .ok b' → b'.Holds (writeAll m (l.map Prod.fst)) := by
    intro l
    induction l with
    | nil => intro m b h hput; cases hput; exact h
    | cons x l ih =>
      intro m b h hput
      rw [List.foldlM_cons] at hput
      obtain ⟨b₁, hb₁, hput⟩ := bind_ok hput
      exact ih _ _ (h.put hc hb₁) hput
  have := hfold _ m b h hput
  rwa [List.zipIdx_map_fst] at this

/-- **Every operation writes its puts and may lose chunks.** -/
theorem holds_step {m : CacheEngineKey → Option (List R)} {s s' : LMCacheEngine md F R} {op : Op T F R}
    (h : s.backend.Holds m) (hstep : step cfg s op = .ok s') : s'.backend.Holds (writeAll m (s.writes cfg op)) := by
  cases op with
  | store a =>
    obtain ⟨kvs, hkvs, hstep⟩ := bind_ok hstep
    obtain ⟨b, hb, hstep⟩ := bind_ok hstep
    cases hstep
    cases hc : activeClient a.clientIdCtx with
    | none =>
      rw [batchedPut_of_none hc] at hb
      cases hb
      rw [writes, puts_of_none cfg hc]
      exact h
    | some c =>
      rw [writes, puts_of_some cfg hc hkvs]
      exact holds_batchedPut hc h hb
  | evict key => cases hstep; exact h.remove key
  | retrieve a =>
    cases hstep
    exact h.updateAfterGet _ _ _

/-- `a` is the last store of the run that put something under `key`. -/
def LastStored (md : LMCacheMemPoolMetadata) (ops : List (Op T F R)) (key : CacheEngineKey) (a : StoreArgs T F R) :
    Prop :=
  ∃ rows s, LastWrite (step cfg) (writes cfg) (new md F R) ops key rows s (.store a)

/-- **A resident chunk has the rows that the last store of its key supplied for the same tokens.** -/
theorem exists_lastStored (hinj : Function.Injective2 cfg.hash)
    (hinit : ∀ tokens prefixHash, cfg.hash tokens prefixHash ≠ CacheConfig.getInitHash) {ops : List (Op T F R)}
    {s : LMCacheEngine md F R} (hrun : Reaches (step cfg) (new md F R) ops s) {tokens : List T} {k : ℕ}
    (hk : k * cfg.chunkSize < tokens.length) {e : CacheEntry F}
    (he : s.backend.dict.lookup (cfg.chunkKey tokens k) = some e) :
    ∃ a : StoreArgs T F R, LastStored cfg md ops (cfg.chunkKey tokens k) a ∧
      a.tokens.take ((k + 1) * cfg.chunkSize) = tokens.take ((k + 1) * cfg.chunkSize) ∧
      numSkipTok a.mask ≤ k * cfg.chunkSize ∧ a.tokens.length = a.kvTensors.length + numSkipTok a.mask ∧
      s.backend.mpool.data e.kvObj =
        (a.kvTensors.drop (k * cfg.chunkSize - numSkipTok a.mask)).take cfg.chunkSize := by
  obtain ⟨m, hm, hlast⟩ := exists_lastWrite (fun m (s : LMCacheEngine md F R) => s.backend.Holds m)
    (fun m s op s' h hstep => holds_step cfg h hstep) (LMCLocalFairBackend.holds_new fun _ => none) hrun
  rcases hlast _ _ (hm.rows _ e he) with ⟨s', op, h⟩ | ⟨-, h⟩
  · have hw := h.mem
    cases op with
    | store a =>
      obtain ⟨k', hk', hskip, hlen, hkey, hrows⟩ := of_mem_puts cfg (List.mem_reverse.mp hw)
      obtain ⟨rfl, htokens⟩ := cfg.chunkKey_injective hinj hinit hk hk' hkey
      exact ⟨a, ⟨_, s', h⟩, htokens.symm, hskip, hlen, hrows⟩
    | evict key => exact absurd hw List.not_mem_nil
    | retrieve a => exact absurd hw List.not_mem_nil
  · cases h

end LMCacheEngine

end FairCache
