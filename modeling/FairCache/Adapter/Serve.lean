import FairCache.Adapter.RetrieveKv
import FairCache.Adapter.StoreKv
import FairCache.Cache.Prefixes
import FairCache.Fair.LeafFirst

/-!
# Requests one after another

A request is served in two calls of the adapter: `lmcache_retrieve_kv` touches the cached prefix of its prompt, and
`lmcache_store_kv` puts the chunks after it, with those retrieved protected.

* `ClientRequest`, `Serving`, `serve` : a request, the engine with the clock, and what serving does;
* `Serving.puts` : the puts of a request, the last chunk first; `reaches_of_store` : the backend after them;
* `KeepsPrefixes` : the requests whose puts evict leaves first; `prefixClosed_of_run` : with these no cached chunk is out of
  the reach of a retrieval.
-/

namespace FairCache

open Lib LMCLocalFairBackend FairEvictor

/-- A request: its client, its prompt and the KV rows of the prompt. -/
structure ClientRequest (T R : Type) where
  clientId : ClientId
  requestId : String
  tokenIds : List T
  kvCache : ℕ → R

/-- The engine, and how often the clock was read. -/
structure Serving (md : LMCacheMemPoolMetadata) (F R : Type) [LinearOrder F] where
  engine : LMCacheEngine md F R
  readings : ℕ

namespace ClientRequest

variable {T F R : Type} (clock : ℕ → F) (readings : ℕ) (q : ClientRequest T R)

/-- Its sequence when the KV is retrieved: vLLM has computed none of it. -/
def batchSeq : BatchSeq T F :=
  { clientId := q.clientId, preempted := none, tokenIds := q.tokenIds, seqLen := q.tokenIds.length
    numRequiredTokens := q.tokenIds.length, clock := fun i => clock (readings + i), seqLen_le := le_rfl
    numRequiredTokens_le := le_rfl }

/-- Its sequence when the KV is stored, in a group of its own. -/
def storeSeq : StoreGroup T F R × StoreSeq T F R :=
  let x : StoreSeq T F R :=
    { tokenIds := q.tokenIds, seqLen := q.tokenIds.length, kvCache := q.kvCache
      clock := fun i => (clock (readings + 2 * i), clock (readings + 2 * i + 1)), seqLen_le := le_rfl }
  ({ clientId := q.clientId, requestId := q.requestId, doSample := true, seqs := [x] }, x)

/-- The `i`-th put of its store. -/
def putArgs [Field F] (a : StoreArgs T F R) (x : (CacheEngineKey × List R) × ℕ) : PutArgs CacheEngineKey F R :=
  { clientId := q.clientId, key := x.1.1, kvChunk := x.1.2, retrievedKeys := a.retrievedKeys
    lambdaVal := if a.requestType = some "chat" then lambdaLow else lambdaHigh
    now := (a.clock x.2).1, storedAt := (a.clock x.2).2 }

end ClientRequest

namespace Serving

variable {md : LMCacheMemPoolMetadata} {T F R : Type} [LinearOrder F] [Field F] [FloatMath F] (cfg : CacheConfig T)
  (clock : ℕ → F)

/-- Nothing was served yet. -/
def new (md : LMCacheMemPoolMetadata) (F R : Type) [LinearOrder F] : Serving md F R :=
  { engine := .new md F R, readings := 0 }

/-- `lmcache_retrieve_kv` : the keys that it retrieves. -/
def retrieve (s : Serving md F R) (q : ClientRequest T R) : List CacheEngineKey × Serving md F R :=
  let (r, engine) := LMCacheAdapter.retrieveSeq .prefill cfg s.engine (q.batchSeq clock s.readings)
  (r.retrieved.retrievedKeys, { engine := engine, readings := s.readings + r.retrieved.retrievedKeys.length })

/-- The call of `engine.store` that `lmcache_store_kv` makes, if it makes one, and the engine after it. -/
def visit (s : Serving md F R) (q : ClientRequest T R) (retrievedKeys : List CacheEngineKey) :
    LMCacheAdapter.StoreVisit md T F R × Except PyError (LMCacheEngine md F R × Bool) :=
  LMCacheAdapter.storeEntry cfg s.engine (q.storeSeq clock s.readings) .prefill retrievedKeys none

/-- The puts of this call: the last chunk first. -/
def puts (s : Serving md F R) (q : ClientRequest T R) (retrievedKeys : List CacheEngineKey) :
    List (PutArgs CacheEngineKey F R) :=
  match (s.visit cfg clock q retrievedKeys).1.stored with
  | none => []
  | some a => (s.engine.puts cfg a).reverse.zipIdx.map (q.putArgs a)

/-- `lmcache_store_kv`. -/
def store (s : Serving md F R) (q : ClientRequest T R) (retrievedKeys : List CacheEngineKey) :
    Except PyError (Serving md F R) :=
  (s.visit cfg clock q retrievedKeys).2.map fun (engine, _) =>
    { engine := engine, readings := s.readings + 2 * (s.puts cfg clock q retrievedKeys).length }

/-- Both calls, for one request. -/
def serve (s : Serving md F R) (q : ClientRequest T R) : Except PyError (Serving md F R) :=
  let (retrievedKeys, s) := s.retrieve cfg clock q
  s.store cfg clock q retrievedKeys

/-! ## What a request does to the backend -/

section Calls
variable {cfg clock} {s s' : Serving md F R} {q : ClientRequest T R} {c : ClientId} {r : List CacheEngineKey}

omit [Field F] [FloatMath F] in
theorem retrieveArgs_eq : (q.batchSeq clock s.readings).retrieveArgs .prefill =
    { tokens := q.tokenIds, mask := some (List.replicate q.tokenIds.length true), clientIdCtx := some q.clientId
      clock := fun i => clock (s.readings + i) } := by
  simp [BatchSeq.retrieveArgs, BatchSeq.totalSeqLen, BatchSeq.tokenMask, BatchSeq.vllmNumComputedTokens,
    ClientRequest.batchSeq]

/-- With a client the leading cached chunks are retrieved. -/
theorem retrieve_keys (hc : activeClient (some q.clientId) = some c) :
    (s.retrieve cfg clock q).1 = s.engine.residentRun cfg q.tokenIds 0 := by
  unfold retrieve LMCacheAdapter.retrieveSeq
  dsimp only
  rw [retrieveArgs_eq, LMCacheEngine.retrieve_retrievedKeys cfg (show SuffixMask _ _ 0 from Or.inl rfl)]
  dsimp only
  rw [hc, Nat.zero_div]

theorem backend_retrieve : (s.retrieve cfg clock q).2.engine.backend = s.engine.backend.updateAfterGet (some q.clientId)
    (s.retrieve cfg clock q).1 (fun i => clock (s.readings + i)) := by
  unfold retrieve LMCacheAdapter.retrieveSeq
  dsimp only
  rw [retrieveArgs_eq, LMCacheEngine.retrieve_backend]

theorem mem_retrieve (k : CacheEngineKey) :
    k ∈ (s.retrieve cfg clock q).2.engine.backend.dict ↔ k ∈ s.engine.backend.dict := by
  rw [backend_retrieve]
  exact mem_updateAfterGet _ _ _ _ k

/-- What is stored, if anything is missing. -/
theorem visit_cases {engine : LMCacheEngine md F R} {advances : Bool}
    (h : (s.visit cfg clock q r).2 = .ok (engine, advances)) :
    (s.visit cfg clock q r).1.stored = none ∧ engine = s.engine ∨
    ∃ a, (s.visit cfg clock q r).1.stored = some a ∧ s.engine.store cfg a = .ok engine ∧
      s.engine.lookup cfg q.tokenIds < q.tokenIds.length ∧
      a = LMCacheAdapter.storeArgs (q.storeSeq clock s.readings) q.tokenIds.length (s.engine.lookup cfg q.tokenIds) r := by
  have htake : q.tokenIds.take q.tokenIds.length = q.tokenIds := List.take_length
  unfold visit LMCacheAdapter.storeEntry at h ⊢
  dsimp only [Option.getD_none, ClientRequest.storeSeq] at h ⊢
  rw [if_neg fun hd => absurd hd.1 (by decide)] at h ⊢
  rw [htake] at h ⊢
  split_ifs at h ⊢ with hle hlt hmod
  · obtain ⟨engine', hengine, heq⟩ := map_ok h
    cases heq
    exact Or.inr ⟨_, rfl, hengine, hlt, rfl⟩
  · cases h
    exact Or.inl ⟨rfl, rfl⟩

/-- **The backend after a store is the one after its puts.** -/
theorem reaches_of_store (h : s.store cfg clock q r = .ok s') :
    Reaches putSections s.engine.backend (s.puts cfg clock q r) s'.engine.backend := by
  obtain ⟨⟨engine, advances⟩, hvisit, rfl⟩ := map_ok h
  rcases visit_cases hvisit with ⟨hnone, rfl⟩ | ⟨a, hsome, hstore, -, ha⟩
  · rw [puts, hnone]
    exact reaches_nil.mpr rfl
  · obtain ⟨kvs, hkvs, hstore⟩ := bind_ok hstore
    obtain ⟨b, hput, hstore⟩ := bind_ok hstore
    cases hstore
    have hctx : a.clientIdCtx = some q.clientId := by rw [ha]; rfl
    have hblocking : a.blocking = false := by rw [ha]; rfl
    rw [puts, hsome]
    dsimp only
    cases hc : activeClient a.clientIdCtx with
    | none =>
      rw [LMCacheEngine.batchedPut_of_none hc] at hput
      rw [LMCacheEngine.puts_of_none cfg hc]
      exact reaches_nil.mpr (Except.ok.inj hput)
    | some c =>
      obtain rfl : c = q.clientId := by
        rw [hctx] at hc
        exact ((Option.filter_eq_some_iff.mp hc).1 |> Option.some.inj).symm
      rw [LMCacheEngine.puts_of_some cfg hc hkvs, Reaches, List.foldlM_map]
      refine Eq.trans ?_ hput
      unfold LMCacheEngine.batchedPut LMCLocalFairBackend.put
      rw [hc, hblocking]
      rfl

end Calls

/-! ## The puts of one request -/

/-- The keys of the chunks from `m` on before chunk `n`. -/
def pendingKeys (cfg : CacheConfig T) (tokens : List T) (m n : ℕ) : Set CacheEngineKey :=
  {k | ∃ i, m ≤ i ∧ i < n ∧ k = cfg.chunkKey tokens i}

/-- **A store on its way**: the chunks before `m` were retrieved, and those from `m` on that come before `n` are missing. -/
structure Completing (cfg : CacheConfig T) (tokens : List T) (m n : ℕ) (b : LMCLocalFairBackend md CacheEngineKey F R) :
    Prop where
  recorded : Recorded b.evictor b.dict []
  closed : ClosedUpTo cfg.Before (pendingKeys cfg tokens m n) {k | k ∈ b.dict}
  retrieved : ∀ i < m, cfg.chunkKey tokens i ∈ b.dict
  missing : ∀ i, m ≤ i → i < n → cfg.chunkKey tokens i ∉ b.dict

section Puts
variable {cfg} {tokens : List T} {m n : ℕ} {b b' : LMCLocalFairBackend md CacheEngineKey F R}
  {a : PutArgs CacheEngineKey F R} {r : List CacheEngineKey} (hinj : Function.Injective2 cfg.hash)
  (hinit : ∀ tokens prefixHash, cfg.hash tokens prefixHash ≠ CacheConfig.getInitHash)
include hinj hinit

/-- The next put is that of the last missing chunk. -/
theorem Completing.put (h : Completing cfg tokens m (n + 1) b) (hmn : m ≤ n) (hn : n * cfg.chunkSize < tokens.length)
    (hkey : a.key = cfg.chunkKey tokens n) (hprotected : ∀ i < m, cfg.chunkKey tokens i ∈ a.retrievedKeys)
    (hkeeps : b.KeepsLeaves cfg.Before a) (hput : b.putSections a = .ok b') :
    b.EvictsLeaves cfg.Before a ∧ Completing cfg tokens m n b' := by
  have hnew : a.key ∉ b.dict := hkey ▸ h.missing n hmn (Nat.lt_succ_self n)
  have hlt : ∀ i ≤ n, i * cfg.chunkSize < tokens.length :=
    fun i hi => lt_of_le_of_lt (Nat.mul_le_mul_right _ hi) hn
  have hpending : pendingKeys cfg tokens m (n + 1) = insert a.key (pendingKeys cfg tokens m n) := by
    ext k
    constructor
    · rintro ⟨i, hi, hin, rfl⟩
      rcases Nat.lt_succ_iff_lt_or_eq.mp hin with hin | rfl
      · exact Or.inr ⟨i, hi, hin, rfl⟩
      · exact Or.inl hkey.symm
    · rintro (rfl | ⟨i, hi, hin, rfl⟩)
      · exact ⟨n, hmn, Nat.lt_succ_self n, hkey⟩
      · exact ⟨i, hi, by omega, rfl⟩
  have hbefore : ∀ i, cfg.Before i a.key → i ∈ b.dict ∧ i ∈ a.retrievedKeys ∨ i ∈ pendingKeys cfg tokens m n := by
    intro i hi
    rw [hkey] at hi
    obtain ⟨l, hl, rfl⟩ := (cfg.before_chunkKey hinj hinit hn).mp hi
    by_cases hlm : l < m
    · exact Or.inl ⟨h.retrieved l hlm, hprotected l hlm⟩
    · exact Or.inr ⟨l, by omega, hl, rfl⟩
  refine ⟨hkeeps.evictsLeaves hnew h.recorded, ?_, ?_, ?_, ?_⟩
  · exact hkeeps.recorded hnew h.recorded hput
  · exact hkeeps.closedUpTo hnew h.recorded (hpending ▸ h.closed) hbefore hput
  · intro i hi
    refine (hkeeps.mem_putSections hnew hput _).mpr (Or.inr ⟨h.retrieved i hi, ?_⟩)
    exact notMem_victims hnew (hprotected i hi)
  · intro i hi hin hmem
    rcases (hkeeps.mem_putSections hnew hput _).mp hmem with heq | ⟨hold, -⟩
    · exact cfg.chunkKey_ne hinj hinit (by omega) (hlt i (by omega)) (hlt n le_rfl) (heq.trans hkey)
    · exact h.missing i hi (by omega) hold

/-- **The puts of a request**, by induction on the chunks that are still missing. -/
theorem Completing.puts (hr : ∀ i < m, cfg.chunkKey tokens i ∈ r) :
    ∀ (j : ℕ) (b : LMCLocalFairBackend md CacheEngineKey F R) (l : List (PutArgs CacheEngineKey F R)),
      (∀ i < m + j, i * cfg.chunkSize < tokens.length) →
      l.map (·.key) = ((List.range' m j).map (cfg.chunkKey tokens)).reverse → (∀ a ∈ l, a.retrievedKeys = r) →
      Completing cfg tokens m (m + j) b → Along putSections (KeepsLeaves cfg.Before) b l → Reaches putSections b l b' →
      Along putSections (EvictsLeaves cfg.Before) b l ∧ Completing cfg tokens m m b' := by
  intro j
  induction j with
  | zero =>
    intro b l _ hkeys _ h _ hrun
    obtain rfl : l = [] := List.map_eq_nil_iff.mp hkeys
    obtain rfl : b = b' := reaches_nil.mp hrun
    exact ⟨trivial, h⟩
  | succ j ih =>
    intro b l hlt hkeys hprotected h hkeeps hrun
    rw [List.range'_concat, List.map_append, List.reverse_append, Nat.one_mul] at hkeys
    obtain ⟨a, l, rfl, hkey, hkeys⟩ := List.map_eq_cons_iff.mp hkeys
    obtain ⟨b₁, hput, hrun⟩ := reaches_cons.mp hrun
    have hrows : ∀ i < m, cfg.chunkKey tokens i ∈ a.retrievedKeys := by
      rw [hprotected a List.mem_cons_self]
      exact hr
    obtain ⟨hleaves, h₁⟩ := h.put hinj hinit (Nat.le_add_right m j) (hlt (m + j) (by omega)) hkey hrows hkeeps.1 hput
    obtain ⟨hrest, hdone⟩ := ih b₁ l (fun i hi => hlt i (by omega)) hkeys
      (fun a ha => hprotected a (List.mem_cons_of_mem _ ha)) h₁ (hkeeps.2 b₁ hput) hrun
    refine ⟨⟨hleaves, fun b₂ hb₂ => ?_⟩, hdone⟩
    obtain rfl : b₁ = b₂ := Except.ok.inj (hput.symm.trans hb₂)
    exact hrest

end Puts

/-! ## Requests -/

section Requests
variable {cfg clock} {s s' : Serving md F R} {q : ClientRequest T R} {c : ClientId} {r : List CacheEngineKey}

/-- What is put is what is missing, the last chunk first. -/
theorem keys_puts {a : StoreArgs T F R} (hc : activeClient (some q.clientId) = some c)
    (hsome : (s.visit cfg clock q r).1.stored = some a) (hlt : s.engine.lookup cfg q.tokenIds < q.tokenIds.length)
    (ha : a = LMCacheAdapter.storeArgs (q.storeSeq clock s.readings) q.tokenIds.length (s.engine.lookup cfg q.tokenIds) r) :
    (s.puts cfg clock q r).map (·.key) =
      (cfg.keysFrom q.tokenIds (s.engine.residentRun cfg q.tokenIds 0).length).reverse ∧
      ∀ p ∈ s.puts cfg clock q r, p.retrievedKeys = r := by
  have hlookup := LMCacheAdapter.lookup_eq cfg s.engine q.tokenIds
  have hstop : ¬ s.engine.Resident cfg q.tokenIds (0 + (s.engine.residentRun cfg q.tokenIds 0).length) :=
    LMCacheEngine.not_resident_length_residentRun cfg
  rw [Nat.zero_add] at hstop
  generalize (s.engine.residentRun cfg q.tokenIds 0).length = m at hlookup hstop ⊢
  have hskip : s.engine.lookup cfg q.tokenIds = m * cfg.chunkSize := by omega
  have htokens : a.tokens = q.tokenIds := by
    rw [ha]
    exact List.take_length
  have hmask : a.mask = List.replicate (m * cfg.chunkSize) false ++
      List.replicate (q.tokenIds.length - m * cfg.chunkSize) true := by
    rw [ha, hskip]
    simp [StoreArgs.mask, LMCacheAdapter.storeArgs, ClientRequest.storeSeq]
  have hrows : a.kvTensors.length = q.tokenIds.length - m * cfg.chunkSize := by
    rw [ha, hskip]
    simp [LMCacheAdapter.storeArgs]
  have hlength : a.tokens.length = a.mask.length := by
    rw [htokens, hmask, List.length_append, List.length_replicate, List.length_replicate]
    omega
  have hcount : numSkipTok a.mask = m * cfg.chunkSize := by
    rw [hmask]
    simp [numSkipTok, List.count_replicate]
  have hmissing : ¬ s.engine.Resident cfg a.tokens m := htokens.symm ▸ hstop
  obtain ⟨kvs, hkvs, hkeys⟩ := LMCacheEngine.chunksToPut_missing hlength hcount
    (by rw [htokens, hrows]; omega) (by rw [ha]; rfl) (by rw [htokens]; omega) hmissing
  have hctx : activeClient a.clientIdCtx = some c := by
    rw [ha]
    exact hc
  rw [puts, hsome]
  dsimp only
  rw [LMCacheEngine.puts_of_some cfg hctx hkvs]
  refine ⟨?_, fun p hp => ?_⟩
  · have hfst : kvs.reverse.zipIdx.map (fun x => x.1.1) = kvs.reverse.map (·.1) := by
      rw [← List.zipIdx_map_fst 0 kvs.reverse, List.map_map, List.zipIdx_map_fst]
      rfl
    rw [List.map_map, ← htokens, ← hkeys, ← List.map_reverse]
    exact hfst
  · obtain ⟨x, -, rfl⟩ := List.mem_map.mp hp
    show a.retrievedKeys = r
    rw [ha]
    rfl

/-- Either nothing is put, or there is a client and something is missing. -/
theorem puts_cases (h : s.store cfg clock q r = .ok s') : s.puts cfg clock q r = [] ∨
    ∃ c a, activeClient (some q.clientId) = some c ∧ (s.visit cfg clock q r).1.stored = some a ∧
      s.engine.lookup cfg q.tokenIds < q.tokenIds.length ∧
      a = LMCacheAdapter.storeArgs (q.storeSeq clock s.readings) q.tokenIds.length (s.engine.lookup cfg q.tokenIds) r := by
  obtain ⟨⟨engine, advances⟩, hvisit, -⟩ := map_ok h
  rcases visit_cases hvisit with ⟨hnone, -⟩ | ⟨a, hsome, -, hlt, ha⟩
  · rw [puts, hnone]
    exact Or.inl rfl
  · cases hc : activeClient (some q.clientId) with
    | none =>
      have hctx : activeClient a.clientIdCtx = none := by
        rw [ha]
        exact hc
      rw [puts, hsome]
      dsimp only
      rw [LMCacheEngine.puts_of_none cfg hctx]
      exact Or.inl rfl
    | some c => exact Or.inr ⟨c, a, rfl, hsome, hlt, ha⟩

variable (cfg clock) in
/-- Each put of the request keeps leaves last. -/
def KeepsPrefixes (s : Serving md F R) (q : ClientRequest T R) : Prop :=
  Along putSections (KeepsLeaves cfg.Before) (s.retrieve cfg clock q).2.engine.backend
    ((s.retrieve cfg clock q).2.puts cfg clock q (s.retrieve cfg clock q).1)

variable (cfg clock) in
/-- **No put of the request evicts a chunk while one that extends it stays.** -/
def EvictsLeafFirst (s : Serving md F R) (q : ClientRequest T R) : Prop :=
  Along putSections (EvictsLeaves cfg.Before) (s.retrieve cfg clock q).2.engine.backend
    ((s.retrieve cfg clock q).2.puts cfg clock q (s.retrieve cfg clock q).1)

/-- What holds between requests: every block has its records, and with a chunk all chunks before it are cached. -/
structure Sound (cfg : CacheConfig T) (s : Serving md F R) : Prop where
  recorded : Recorded s.engine.backend.evictor s.engine.backend.dict []
  closed : s.engine.PrefixClosed cfg

omit [Field F] [FloatMath F] in
theorem sound_new (cfg : CacheConfig T) : (new md F R).Sound cfg :=
  ⟨recorded_new, fun _ _ h => absurd h.2 (AList.notMem_empty _)⟩

variable (cfg clock) in
/-- With a client a retrieval gets to every cached chunk of its prompt. -/
def RetrievesCached (s : Serving md F R) : Prop :=
  ∀ (q : ClientRequest T R) c, activeClient (some q.clientId) = some c → ∀ n, s.engine.Resident cfg q.tokenIds n →
    cfg.chunkKey q.tokenIds n ∈ (s.retrieve cfg clock q).1

/-- Then no cached chunk is out of the reach of a retrieval. -/
theorem Sound.retrievesCached (h : s.Sound cfg) (clock : ℕ → F) : s.RetrievesCached cfg clock := by
  intro q c hc n hn
  rw [retrieve_keys hc]
  exact h.closed.mem_residentRun hn

/-- A retrieval changes none of it. -/
theorem Sound.retrieve (h : s.Sound cfg) (clock : ℕ → F) (q : ClientRequest T R) : (s.retrieve cfg clock q).2.Sound cfg := by
  refine ⟨?_, h.closed.congr mem_retrieve⟩
  rw [backend_retrieve]
  exact recorded_updateAfterGet h.recorded _ _ _

omit [Field F] [FloatMath F] in
/-- What is missing of a prompt is what comes after the leading cached chunks. -/
theorem Sound.completing (h : s.Sound cfg) (tokens : List T) :
    Completing cfg tokens (s.engine.residentRun cfg tokens 0).length (cfg.chunkTokens tokens).length s.engine.backend := by
  have hstop : ¬ s.engine.Resident cfg tokens (0 + (s.engine.residentRun cfg tokens 0).length) :=
    LMCacheEngine.not_resident_length_residentRun cfg
  rw [Nat.zero_add] at hstop
  refine ⟨h.recorded, ?_, ?_, ?_⟩
  · exact (LMCacheEngine.prefixClosed_iff.mp h.closed).mono fun k hk => absurd hk (Set.notMem_empty k)
  · intro i hi
    have hres := (LMCacheEngine.getElem?_residentRun cfg hi).1
    rw [Nat.zero_add] at hres
    exact hres.2
  · intro i hi hn hmem
    have hlt : i * cfg.chunkSize < tokens.length := (lt_length_chunks cfg.chunkSize_pos tokens i).mp hn
    exact h.closed.not_resident hstop hi ⟨hlt, hmem⟩

/-- **One request**: if its puts keep leaves last, they evict leaves first, and afterwards everything holds again. -/
theorem Sound.serve (hinj : Function.Injective2 cfg.hash)
    (hinit : ∀ tokens prefixHash, cfg.hash tokens prefixHash ≠ CacheConfig.getInitHash) (h : s.Sound cfg)
    (hkeeps : s.KeepsPrefixes cfg clock q) (hserve : s.serve cfg clock q = .ok s') :
    s.EvictsLeafFirst cfg clock q ∧ s'.Sound cfg := by
  have hstore : (s.retrieve cfg clock q).2.store cfg clock q (s.retrieve cfg clock q).1 = .ok s' := hserve
  have hrun := reaches_of_store hstore
  have h₁ := h.retrieve clock q
  have hkeys : ∀ c, activeClient (some q.clientId) = some c → (s.retrieve cfg clock q).1 =
      (s.retrieve cfg clock q).2.engine.residentRun cfg q.tokenIds 0 := by
    intro c hc
    rw [retrieve_keys hc]
    exact (LMCacheEngine.residentRun_congr mem_retrieve _ _).symm
  unfold KeepsPrefixes at hkeeps
  unfold EvictsLeafFirst
  generalize (s.retrieve cfg clock q).2 = s₁ at *
  generalize (s.retrieve cfg clock q).1 = r at *
  rcases puts_cases hstore with hnil | ⟨c, a, hc, hsome, hlt, ha⟩
  · rw [hnil] at hrun ⊢
    have hbackend := reaches_nil.mp hrun
    exact ⟨trivial, hbackend ▸ h₁.recorded, h₁.closed.congr fun k => by rw [hbackend]⟩
  · obtain ⟨hmap, hprotected⟩ := keys_puts hc hsome hlt ha
    have hcompleting := h₁.completing q.tokenIds
    have hretrieved : ∀ i < (s₁.engine.residentRun cfg q.tokenIds 0).length, cfg.chunkKey q.tokenIds i ∈ r := by
      intro i hi
      have hkey := (LMCacheEngine.getElem?_residentRun cfg hi).2
      rw [Nat.zero_add] at hkey
      rw [hkeys c hc]
      exact List.mem_of_getElem? hkey
    have hle : (s₁.engine.residentRun cfg q.tokenIds 0).length ≤ (cfg.chunkTokens q.tokenIds).length := by
      by_contra hlong
      have hres := (LMCacheEngine.getElem?_residentRun cfg (not_le.mp hlong)).1.1
      rw [Nat.zero_add] at hres
      exact absurd ((lt_length_chunks cfg.chunkSize_pos q.tokenIds _).mpr hres) (lt_irrefl _)
    rw [cfg.keysFrom_eq] at hmap
    generalize (s₁.engine.residentRun cfg q.tokenIds 0).length = m at *
    have hsum : m + ((cfg.chunkTokens q.tokenIds).length - m) = (cfg.chunkTokens q.tokenIds).length := by omega
    have hin : ∀ i < m + ((cfg.chunkTokens q.tokenIds).length - m), i * cfg.chunkSize < q.tokenIds.length :=
      fun i hi => (lt_length_chunks cfg.chunkSize_pos q.tokenIds i).mp (hsum ▸ hi)
    obtain ⟨hleaves, hdone⟩ := Completing.puts hinj hinit hretrieved _ _ _ hin hmap hprotected
      (hsum.symm ▸ hcompleting) hkeeps hrun
    refine ⟨hleaves, hdone.recorded, LMCacheEngine.prefixClosed_iff.mpr (hdone.closed.mono ?_)⟩
    rintro k ⟨i, hi, him, -⟩
    omega

end Requests

/-! ## Runs -/

/-- **The resident set stays prefix-closed.** In a run of requests whose puts keep leaves last no chunk is evicted while one
that extends it stays, and after every request a retrieval gets to every cached chunk. -/
theorem prefixClosed_of_run (hinj : Function.Injective2 cfg.hash)
    (hinit : ∀ tokens prefixHash, cfg.hash tokens prefixHash ≠ CacheConfig.getInitHash) {qs : List (ClientRequest T R)}
    {t : Serving md F R} (hkeeps : Along (serve cfg clock) (KeepsPrefixes cfg clock) (new md F R) qs)
    (hrun : Reaches (serve cfg clock) (new md F R) qs t) :
    Along (serve cfg clock) (EvictsLeafFirst cfg clock) (new md F R) qs ∧
      EveryState (serve cfg clock) (fun s => s.engine.PrefixClosed cfg ∧ s.RetrievesCached cfg clock) (new md F R) qs := by
  have hstep : ∀ (s : Serving md F R) q s', s.Sound cfg → s.KeepsPrefixes cfg clock q → s.serve cfg clock q = .ok s' →
      s.EvictsLeafFirst cfg clock q ∧ s'.Sound cfg := fun s q s' hs hk hserve => hs.serve hinj hinit hk hserve
  obtain ⟨hleaves, hsound⟩ := along_and_everyState_of_along hstep (sound_new cfg) hkeeps hrun
  exact ⟨hleaves, hsound.imp fun s hs => ⟨hs.closed, hs.retrievesCached clock⟩⟩

/-! ## Runs on concrete inputs -/

section Examples
open LMCacheEngine

/-- A request of client 1. -/
def asked (tokens : List ℕ) : ClientRequest ℕ ℕ :=
  { clientId := 1, requestId := "api-1", tokenIds := tokens, kvCache := fun i => 10 * i }

/-- A clock that is read every fifty seconds. -/
def slowClock (n : ℕ) : ℚ := 50 * n

theorem slowClock_strictMono : StrictMono slowClock := by
  intro m n h
  have : (m : ℚ) < n := Nat.cast_lt.mpr h
  unfold slowClock
  linarith

/-- The second request touches its first chunk before it stores the second one, and so the third request evicts the first
chunk while the second one stays. -/
theorem hit_prefix_evicted :
    StrictMono slowClock ∧ ∃ s,
      Reaches (serve twoTokens slowClock) (new .threeChunks ℚ ℕ) [asked [1, 2], asked [1, 2, 3, 4]] s ∧
      s.engine.Resident twoTokens [1, 2, 3, 4] 0 ∧ ∃ t, s.serve twoTokens slowClock (asked [5, 6, 7, 8]) = .ok t ∧
        (∀ x ∈ t.engine.backend.dict.entries, x.2.lambdaVal = lambdaHigh) ∧ ¬ t.engine.PrefixClosed twoTokens := by
  have hrun : ∃ s, Reaches (serve twoTokens slowClock) (new .threeChunks ℚ ℕ) [asked [1, 2], asked [1, 2, 3, 4]] s ∧
      twoTokens.chunkKey [1, 2, 3, 4] 0 ∈ s.engine.backend.dict ∧
      ∃ t, s.serve twoTokens slowClock (asked [5, 6, 7, 8]) = .ok t ∧
        (∀ x ∈ t.engine.backend.dict.entries, x.2.lambdaVal = lambdaHigh) ∧
        twoTokens.chunkKey [1, 2, 3, 4] 1 ∈ t.engine.backend.dict ∧
        twoTokens.chunkKey [1, 2, 3, 4] 0 ∉ t.engine.backend.dict := by decide +kernel
  obtain ⟨s, hs, hres, t, ht, hlambda, hmem, hgone⟩ := hrun
  refine ⟨slowClock_strictMono, s, hs, ⟨by decide, hres⟩, t, ht, hlambda, fun h => hgone ?_⟩
  exact (h [1, 2, 3, 4] 1 ⟨by decide, hmem⟩ 0 Nat.one_pos).2

/-- What `KeepsLeaves` asks of the runs on concrete inputs, so that it can be run: there is room, or nothing is protected,
all blocks are low, the first of them makes room, and a block whose hash another one continues is scored above it. -/
def Checked (b : LMCLocalFairBackend .threeChunks CacheEngineKey ℚ ℕ) (a : PutArgs CacheEngineKey ℚ ℕ) : Prop :=
  chunkBytes .threeChunks a ≤ LMCacheMemPoolMetadata.maxBytes .threeChunks ∧
    (b.evictor.HasRoom (chunkBytes .threeChunks a) ∨
      a.retrievedKeys = [] ∧ (b.evictor.updateOnPut b.dict (chunkBytes .threeChunks a) [] a.now).2.2.2 = .legal ∧
      (∃ k ∈ (b.evictor.getMinValueKey b.dict []).1, b.evictor.RoomWithout b.dict (chunkBytes .threeChunks a) [k]) ∧
      (∀ x ∈ b.dict.entries, b.evictor.Below a.now x.2) ∧
      ∀ x ∈ b.dict.entries, ∀ y ∈ b.dict.entries, x.1.chunkHash.toList <:+ y.1.chunkHash.toList → x.1 ≠ y.1 →
        b.evictor.place y.1 y.2 < b.evictor.place x.1 x.2)

instance (b : LMCLocalFairBackend .threeChunks CacheEngineKey ℚ ℕ) (a : PutArgs CacheEngineKey ℚ ℕ) :
    Decidable (Checked b a) := by
  unfold Checked RoomWithout Below
  infer_instance

theorem suffix_foldl_unaryHash (l : List (List ℕ)) :
    ∀ h : String, h.toList <:+ (l.foldl (fun h c => unaryHash c h) h).toList := by
  induction l with
  | nil => exact fun h => List.suffix_refl _
  | cons c l ih =>
    intro h
    have hone : h.toList <:+ (unaryHash c h).toList := by
      unfold unaryHash
      rw [String.toList_ofList]
      exact (List.suffix_cons '3' _).trans (List.suffix_append _ _)
    exact hone.trans (ih _)

/-- The hash of a chunk continues the hashes of those before it. -/
theorem suffix_of_before {k j : CacheEngineKey} (h : twoTokens.Before k j) :
    k.chunkHash.toList <:+ j.chunkHash.toList ∧ k ≠ j := by
  obtain ⟨tokens, m, n, hmn, hn, rfl, rfl⟩ := h
  have hm : m * 2 < tokens.length := by
    have : n * 2 < tokens.length := hn
    omega
  refine ⟨?_, twoTokens.chunkKey_ne unaryHash_injective unaryHash_ne hmn.ne hm hn⟩
  have hsplit := List.take_append_drop (m + 1) ((twoTokens.chunkTokens tokens).take (n + 1))
  rw [List.take_take, Nat.min_eq_left (by omega)] at hsplit
  show (chainHash unaryHash _ _).toList <:+ (chainHash unaryHash _ _).toList
  rw [← hsplit, chainHash, chainHash, List.foldl_append]
  exact suffix_foldl_unaryHash _ _

theorem Checked.keepsLeaves {b : LMCLocalFairBackend .threeChunks CacheEngineKey ℚ ℕ} {a : PutArgs CacheEngineKey ℚ ℕ}
    (h : Checked b a) : b.KeepsLeaves twoTokens.Before a := by
  obtain ⟨hfits, hroom | ⟨hr, hlegal, ⟨k, hk, hone⟩, hlow, hscores⟩⟩ := h
  · have hnone : b.evictor.RoomWithout b.dict (chunkBytes .threeChunks a) [] := by
      rw [hasRoom_iff] at hroom
      unfold RoomWithout
      simpa using hroom
    have hany : ∀ l, b.evictor.RoomWithout b.dict (chunkBytes .threeChunks a) l :=
      fun l => hnone.mono List.nodup_nil fun k hk => absurd hk List.not_mem_nil
    exact ⟨⟨hfits, hany _, fun hno => absurd (hany _) hno⟩, fun _ _ _ _ hno => absurd (hany _) hno⟩
  · have hall : ∀ k e, b.dict.lookup k = some e → b.evictor.Below a.now e :=
      fun k e he => hlow ⟨k, e⟩ ((Dict.lookup_eq_some_iff _ _ _).mp he)
    have hvictim : b.evictor.LowVictim b.dict a.retrievedKeys a.now k := by
      refine ⟨⟨[], hk⟩, fun x p _ hp => ⟨hr ▸ List.not_mem_nil, ?_⟩⟩
      obtain ⟨-, e, he⟩ := getMinValueKey_some (Prod.ext hp rfl)
      exact ⟨e, he, hall p e he⟩
    have hmem : k ∈ b.evictor.lowWithinReach b.dict a.retrievedKeys a.now := by
      obtain ⟨-, e, he⟩ := getMinValueKey_some (Prod.ext hk rfl)
      exact mem_lowWithinReach.mpr ⟨Dict.mem_of_lookup he, hvictim⟩
    have hmakes := hone.mono (List.nodup_singleton k) fun j hj => List.mem_singleton.mp hj ▸ hmem
    refine ⟨⟨hfits, ?_, fun hno => absurd hmakes hno⟩, ?_⟩
    · rw [hr]
      exact ((updateOnPut_legal_iff _ _ _ _ _).mp hlegal).2
    · intro i e hi _ _ j f hj hb
      obtain ⟨hsuffix, hne⟩ := suffix_of_before hb
      have hie := (Dict.lookup_eq_some_iff _ _ _).mp hi
      have hjf := (Dict.lookup_eq_some_iff _ _ _).mp hj
      exact hscores ⟨i, e⟩ hie ⟨j, f⟩ hjf hsuffix hne

/-- The two chunks of a prompt are touched together, so the second one is evicted. -/
theorem prefixClosed_of_run_touched :
    ∃ t, Reaches (serve twoTokens slowClock) (new .threeChunks ℚ ℕ)
        [asked [1, 2, 3, 4], asked [1, 2, 3, 4], asked [5, 6, 7, 8]] t ∧
      twoTokens.chunkKey [1, 2, 3, 4] 1 ∉ t.engine.backend.dict ∧ twoTokens.chunkKey [1, 2, 3, 4] 0 ∈ t.engine.backend.dict ∧
      Along (serve twoTokens slowClock) (EvictsLeafFirst twoTokens slowClock) (new .threeChunks ℚ ℕ)
        [asked [1, 2, 3, 4], asked [1, 2, 3, 4], asked [5, 6, 7, 8]] ∧
      EveryState (serve twoTokens slowClock)
        (fun s => s.engine.PrefixClosed twoTokens ∧ s.RetrievesCached twoTokens slowClock) (new .threeChunks ℚ ℕ)
        [asked [1, 2, 3, 4], asked [1, 2, 3, 4], asked [5, 6, 7, 8]] := by
  have hrun : ∃ t, Reaches (serve twoTokens slowClock) (new .threeChunks ℚ ℕ)
        [asked [1, 2, 3, 4], asked [1, 2, 3, 4], asked [5, 6, 7, 8]] t ∧
      twoTokens.chunkKey [1, 2, 3, 4] 1 ∉ t.engine.backend.dict ∧
      twoTokens.chunkKey [1, 2, 3, 4] 0 ∈ t.engine.backend.dict := by decide +kernel
  have hchecked : Along (serve twoTokens slowClock)
      (fun s q => Along putSections Checked (s.retrieve twoTokens slowClock q).2.engine.backend
        ((s.retrieve twoTokens slowClock q).2.puts twoTokens slowClock q (s.retrieve twoTokens slowClock q).1))
      (new .threeChunks ℚ ℕ) [asked [1, 2, 3, 4], asked [1, 2, 3, 4], asked [5, 6, 7, 8]] := by decide +kernel
  obtain ⟨t, ht, hgone, hmem⟩ := hrun
  have hkeeps := hchecked.imp fun s q h => h.imp fun b a hba => hba.keepsLeaves
  exact ⟨t, ht, hgone, hmem, prefixClosed_of_run twoTokens slowClock unaryHash_injective unaryHash_ne hkeeps ht⟩

end Examples

end Serving

end FairCache
