import FairCache.Adapter.Serve
import FairCache.Fair.Stamps

/-!
# Requests that hit all of their chunks or none

A retrieval touches a chunk after those that extend it, and so do the puts of a store among themselves. Only a request that
finds some of its chunks and puts those after them leaves a chunk with an older stamp than what extends it.

* `Timed` : between requests the stamps are in the order of the prefixes; `Timed.retrieve` : a retrieval keeps it so;
* `WholeHit` : the request finds all of its chunks or none; `Filling` : the store of such a request on its way;
* `prefixClosed_of_wholeHits` : in a run of these the puts that find room keep leaves last.
-/

namespace FairCache

open Lib LMCLocalFairBackend FairEvictor

variable {md : LMCacheMemPoolMetadata} {T F R : Type} [LinearOrder F] [Field F]

namespace ClientRequest

/-- The decay rate of its chunks. -/
def lambdaVal (q : ClientRequest T R) : F := if "chat-".toList.isPrefixOf q.requestId.toList then lambdaLow else lambdaHigh

omit [LinearOrder F] in
theorem lambdaVal_putArgs {clock : ℕ → F} {readings seqLen skip : ℕ} {q : ClientRequest T R} {r : List CacheEngineKey}
    (x : (CacheEngineKey × List R) × ℕ) :
    (q.putArgs (LMCacheAdapter.storeArgs (q.storeSeq clock readings) seqLen skip r) x).lambdaVal = q.lambdaVal := by
  unfold putArgs LMCacheAdapter.storeArgs lambdaVal storeSeq
  dsimp only
  split_ifs with hchat h h
  · rfl
  · exact absurd rfl h
  · exact absurd (Option.some.inj h) (by decide)
  · rfl

theorem lambdaVal_pos [IsStrictOrderedRing F] (q : ClientRequest T R) : 0 < (q.lambdaVal : F) := by
  unfold lambdaVal lambdaLow lambdaHigh
  split_ifs
  · positivity
  · positivity

end ClientRequest

namespace Serving

variable [FloatMath F] (cfg : CacheConfig T) (clock : ℕ → F)

/-! ## Retrievals -/

/-- **What holds between requests**: the stamps are in the order of the prefixes, and all before the next reading. -/
structure Timed (l : F) (s : Serving md F R) : Prop extends Sound cfg s where
  stamped : s.engine.backend.Stamped cfg.Before l (clock s.readings)

/-- All chunks of the request are cached, or none. -/
def WholeHit (s : Serving md F R) (q : ClientRequest T R) : Prop :=
  s.engine.lookup cfg q.tokenIds = 0 ∨ s.engine.lookup cfg q.tokenIds = q.tokenIds.length

/-- Each put of the request finds room. -/
def FindsRooms (s : Serving md F R) (q : ClientRequest T R) : Prop :=
  Along putSections (FindsRoom cfg.Before) (s.retrieve cfg clock q).2.engine.backend
    ((s.retrieve cfg clock q).2.puts cfg clock q (s.retrieve cfg clock q).1)

section Retrieve
variable {cfg clock} {l : F} {s : Serving md F R} {q : ClientRequest T R} (hinj : Function.Injective2 cfg.hash)
  (hinit : ∀ tokens prefixHash, cfg.hash tokens prefixHash ≠ CacheConfig.getInitHash)

theorem timed_new (l : F) : (new md F R).Timed cfg clock l := ⟨sound_new cfg, stamped_empty rfl⟩

include hinj hinit

/-- **A retrieval keeps the stamps in order.** -/
theorem Timed.retrieve (h : s.Timed cfg clock l) (hclock : StrictMono clock) (q : ClientRequest T R) :
    (s.retrieve cfg clock q).2.Timed cfg clock l := by
  refine ⟨h.toSound.retrieve clock q, ?_⟩
  have hreadings : (s.retrieve cfg clock q).2.readings = s.readings + (s.retrieve cfg clock q).1.length := rfl
  rw [backend_retrieve, hreadings]
  cases hc : activeClient (some q.clientId) with
  | none =>
    unfold updateAfterGet
    rw [hc]
    exact h.stamped.mono (hclock.monotone (Nat.le_add_right _ _))
  | some c =>
    rw [retrieve_keys hc]
    have hstart : StrictMono fun i => clock (s.readings + i) := fun i j hij => hclock (Nat.add_lt_add_left hij _)
    refine h.stamped.updateAfterGet hstart le_rfl (LMCacheEngine.nodup_residentRun hinj hinit) (fun k hk => ?_)
      (fun n j hn k hb => LMCacheEngine.before_residentRun hinj hinit hn hb) _
    obtain ⟨n, hn⟩ := List.mem_iff_getElem?.mp hk
    obtain ⟨hres, hkey⟩ := LMCacheEngine.getElem?_residentRun cfg (List.getElem?_eq_some_iff.mp hn).1
    obtain rfl := Option.some.inj (hkey.symm.trans hn)
    exact hres.2

end Retrieve

/-! ## Stores -/

/-- **A store on its way, where nothing was hit**: nobody else shares what extends the chunks that are still missing. -/
structure Filling (cfg : CacheConfig T) (tokens : List T) (n : ℕ) (c : ClientId) (l bound : F)
    (b : LMCLocalFairBackend md CacheEngineKey F R) : Prop extends Completing cfg tokens 0 n b where
  stamped : b.Stamped cfg.Before l bound
  fresh : ∀ i < n, ∀ j, cfg.Before (cfg.chunkKey tokens i) j → ∀ c' t, b.stamp j c' = some t → c' = c

variable {cfg clock} in
/-- What a put of the request has from it, and when its chunk is stored. -/
theorem args_puts {s : Serving md F R} {q : ClientRequest T R} {r : List CacheEngineKey} {seqLen skip : ℕ}
    {a : StoreArgs T F R} (hsome : (s.visit cfg clock q r).1.stored = some a)
    (ha : a = LMCacheAdapter.storeArgs (q.storeSeq clock s.readings) seqLen skip r) (i : ℕ) (p : PutArgs CacheEngineKey F R)
    (hp : (s.puts cfg clock q r)[i]? = some p) :
    p.clientId = q.clientId ∧ p.lambdaVal = q.lambdaVal ∧ p.storedAt = clock (s.readings + 2 * i + 1) := by
  rw [puts, hsome] at hp
  dsimp only at hp
  rw [List.getElem?_map, Option.map_eq_some_iff] at hp
  obtain ⟨x, hx, rfl⟩ := hp
  rw [List.getElem?_zipIdx, Option.map_eq_some_iff] at hx
  obtain ⟨kv, -, rfl⟩ := hx
  rw [ha]
  refine ⟨rfl, ClientRequest.lambdaVal_putArgs _, ?_⟩
  rw [Nat.zero_add]
  rfl

section Store
variable [IsStrictOrderedRing F] [LawfulFloatMath F] {cfg clock} {tokens : List T} {n : ℕ} {c : ClientId} {l bound : F}
  {b b' : LMCLocalFairBackend md CacheEngineKey F R} {a : PutArgs CacheEngineKey F R}
  (hinj : Function.Injective2 cfg.hash)
  (hinit : ∀ tokens prefixHash, cfg.hash tokens prefixHash ≠ CacheConfig.getInitHash)
include hinj hinit

/-- The next put. -/
theorem Filling.put (h : Filling cfg tokens (n + 1) c l bound b) (hl : 0 < l) (hn : n * cfg.chunkSize < tokens.length)
    (hkey : a.key = cfg.chunkKey tokens n) (hc : a.clientId = c) (hlambda : a.lambdaVal = l) (hbound : bound ≤ a.storedAt)
    {bound' : F} (hbound' : a.storedAt < bound') (hroom : b.FindsRoom cfg.Before a) (hput : b.putSections a = .ok b') :
    b.KeepsLeaves cfg.Before a ∧ Filling cfg tokens n c l bound' b' := by
  have hkeeps : b.KeepsLeaves cfg.Before a := ⟨hroom, h.stamped.scoresOrdered hl _ _ _⟩
  have hnew : a.key ∉ b.dict := hkey ▸ h.missing n (Nat.zero_le n) (Nat.lt_succ_self n)
  obtain ⟨-, hdone⟩ := h.toCompleting.put hinj hinit (Nat.zero_le n) hn hkey (fun i hi => absurd hi (Nat.not_lt_zero i))
    hkeeps hput
  refine ⟨hkeeps, hdone, ?_, ?_⟩
  · refine h.stamped.put hkeeps hnew hput hbound hbound' hlambda (fun k hk hb => ?_) fun j hb c' t ht => ?_
    · rw [hkey] at hb
      obtain ⟨i, hi, rfl⟩ := (cfg.before_chunkKey hinj hinit hn).mp hb
      exact hdone.missing i (Nat.zero_le i) hi hk
    · rw [hc]
      exact h.fresh n (Nat.lt_succ_self n) j (hkey ▸ hb) c' t ht
  · intro i hi j hb c' t ht
    rcases hkeeps.stamp_putSections hnew hput ht with ⟨-, hc', -⟩ | ⟨-, hold⟩
    · exact hc'.trans hc
    · exact h.fresh i (hi.trans (Nat.lt_succ_self n)) j hb c' t hold

/-- **The puts of a store where nothing was hit**, by induction on the chunks that are still missing; the clock is read twice
in each. -/
theorem Filling.puts (hclock : StrictMono clock) (hl : 0 < l) :
    ∀ (n r : ℕ) (b : LMCLocalFairBackend md CacheEngineKey F R) (puts : List (PutArgs CacheEngineKey F R)),
      (∀ i < n, i * cfg.chunkSize < tokens.length) →
      puts.map (·.key) = ((List.range' 0 n).map (cfg.chunkKey tokens)).reverse →
      (∀ (i : ℕ) a, puts[i]? = some a → a.clientId = c ∧ a.lambdaVal = l ∧ a.storedAt = clock (r + 2 * i + 1)) →
      Filling cfg tokens n c l (clock r) b → Along putSections (FindsRoom cfg.Before) b puts →
      Reaches putSections b puts b' →
      Along putSections (KeepsLeaves cfg.Before) b puts ∧ b'.Stamped cfg.Before l (clock (r + 2 * n)) := by
  intro n
  induction n with
  | zero =>
    intro r b puts _ hkeys _ h _ hrun
    obtain rfl : puts = [] := List.map_eq_nil_iff.mp hkeys
    obtain rfl : b = b' := reaches_nil.mp hrun
    exact ⟨trivial, h.stamped⟩
  | succ n ih =>
    intro r b puts hlt hkeys hargs h hroom hrun
    rw [List.range'_concat, List.map_append, List.reverse_append, Nat.one_mul, Nat.zero_add] at hkeys
    obtain ⟨a, puts, rfl, hkey, hkeys⟩ := List.map_eq_cons_iff.mp hkeys
    obtain ⟨b₁, hput, hrun⟩ := reaches_cons.mp hrun
    obtain ⟨hc, hlambda, hstored⟩ := hargs 0 a rfl
    have hbound : clock r ≤ a.storedAt := hstored ▸ (hclock (by omega)).le
    have hbound' : a.storedAt < clock (r + 2) := hstored ▸ hclock (by omega)
    obtain ⟨hkeeps, h₁⟩ := h.put hinj hinit hl (hlt n (Nat.lt_succ_self n)) hkey hc hlambda hbound hbound' hroom.1 hput
    obtain ⟨hrest, hdone⟩ := ih (r + 2) b₁ puts (fun i hi => hlt i (by omega)) hkeys
      (fun i a ha => by rw [show r + 2 + 2 * i + 1 = r + 2 * (i + 1) + 1 by omega]; exact hargs (i + 1) a ha) h₁
      (hroom.2 b₁ hput) hrun
    refine ⟨⟨hkeeps, fun b₂ hb₂ => ?_⟩, ?_⟩
    · obtain rfl : b₁ = b₂ := Except.ok.inj (hput.symm.trans hb₂)
      exact hrest
    · rw [show r + 2 * (n + 1) = r + 2 + 2 * n by omega]
      exact hdone

/-- **One request that hits all of its chunks or none.** -/
theorem Timed.serve {s s' : Serving md F R} {q : ClientRequest T R} (h : s.Timed cfg clock q.lambdaVal)
    (hclock : StrictMono clock) (hwhole : s.WholeHit cfg q) (hroom : s.FindsRooms cfg clock q)
    (hserve : s.serve cfg clock q = .ok s') :
    s.EvictsLeafFirst cfg clock q ∧ s'.Timed cfg clock q.lambdaVal := by
  have hstamps : s.KeepsPrefixes cfg clock q ∧ s'.engine.backend.Stamped cfg.Before q.lambdaVal (clock s'.readings) := by
    have hstore : (s.retrieve cfg clock q).2.store cfg clock q (s.retrieve cfg clock q).1 = .ok s' := hserve
    have hrun := reaches_of_store hstore
    have h₁ := h.retrieve hinj hinit hclock q
    have hlookup : (s.retrieve cfg clock q).2.engine.lookup cfg q.tokenIds = s.engine.lookup cfg q.tokenIds := by
      rw [LMCacheAdapter.lookup_eq, LMCacheAdapter.lookup_eq, LMCacheEngine.residentRun_congr mem_retrieve]
    unfold WholeHit at hwhole
    rw [← hlookup] at hwhole
    unfold FindsRooms at hroom
    unfold KeepsPrefixes
    generalize (s.retrieve cfg clock q).2 = s₁ at *
    generalize (s.retrieve cfg clock q).1 = r at *
    have hreadings : s'.readings = s₁.readings + 2 * (s₁.puts cfg clock q r).length := by
      obtain ⟨x, -, rfl⟩ := map_ok hstore
      rfl
    rcases puts_cases hstore with hnil | ⟨c, a, hc, hsome, hlt, ha⟩
    · rw [hnil] at hrun hreadings ⊢
      rw [← reaches_nil.mp hrun]
      exact ⟨trivial, hreadings ▸ h₁.stamped⟩
    · have hargs := args_puts hsome ha
      obtain ⟨hkeys, -⟩ := keys_puts hc hsome hlt ha
      have hcompleting := h₁.toSound.completing q.tokenIds
      have hnone : (s₁.engine.residentRun cfg q.tokenIds 0).length = 0 := by
        have hmin := LMCacheAdapter.lookup_eq cfg s₁.engine q.tokenIds
        have hskip : (s₁.engine.residentRun cfg q.tokenIds 0).length * cfg.chunkSize = 0 := by omega
        exact (Nat.mul_eq_zero.mp hskip).resolve_right cfg.chunkSize_pos.ne'
      rw [hnone] at hkeys hcompleting
      rw [cfg.keysFrom_eq, Nat.sub_zero] at hkeys
      have hlength : (s₁.puts cfg clock q r).length = (cfg.chunkTokens q.tokenIds).length := by
        have := congrArg List.length hkeys
        simpa using this
      have hfilling : Filling cfg q.tokenIds (cfg.chunkTokens q.tokenIds).length q.clientId q.lambdaVal (clock s₁.readings)
          s₁.engine.backend := by
        refine ⟨hcompleting, h₁.stamped, fun i hi j hb c' t ht => ?_⟩
        -- what extends a missing chunk is missing too
        rcases LMCacheEngine.prefixClosed_iff.mp h₁.closed j (mem_of_stamp ht) _ hb with hmem | hmem
        · exact absurd hmem (hcompleting.missing i (Nat.zero_le i) hi)
        · exact absurd hmem (Set.notMem_empty _)
      rw [hreadings, hlength]
      exact Filling.puts hinj hinit hclock q.lambdaVal_pos _ _ _ _
        (fun i hi => (lt_length_chunks cfg.chunkSize_pos q.tokenIds i).mp hi) hkeys hargs hfilling hroom hrun
  obtain ⟨hleaves, hsound⟩ := h.toSound.serve hinj hinit hstamps.1 hserve
  exact ⟨hleaves, hsound, hstamps.2⟩

end Store

/-! ## Runs -/

/-- **Requests that hit all of their chunks or none keep the resident set prefix-closed**: with a strictly increasing clock
and one decay rate, whoever they come from and whatever they share, as long as their puts find room. -/
theorem prefixClosed_of_wholeHits [IsStrictOrderedRing F] [LawfulFloatMath F] (hinj : Function.Injective2 cfg.hash)
    (hinit : ∀ tokens prefixHash, cfg.hash tokens prefixHash ≠ CacheConfig.getInitHash) (hclock : StrictMono clock) {l : F}
    {qs : List (ClientRequest T R)} {t : Serving md F R}
    (hwhole : Along (serve cfg clock) (fun s q => q.lambdaVal = l ∧ s.WholeHit cfg q ∧ s.FindsRooms cfg clock q)
      (new md F R) qs)
    (hrun : Reaches (serve cfg clock) (new md F R) qs t) :
    Along (serve cfg clock) (EvictsLeafFirst cfg clock) (new md F R) qs ∧
      EveryState (serve cfg clock) (fun s => s.engine.PrefixClosed cfg ∧ s.RetrievesCached cfg clock) (new md F R) qs := by
  have hstep : ∀ (s : Serving md F R) q s', s.Timed cfg clock l →
      q.lambdaVal = l ∧ s.WholeHit cfg q ∧ s.FindsRooms cfg clock q → s.serve cfg clock q = .ok s' →
      s.EvictsLeafFirst cfg clock q ∧ s'.Timed cfg clock l := by
    rintro s q s' hs ⟨rfl, hq, hroom⟩ hserve
    exact hs.serve hinj hinit hclock hq hroom hserve
  obtain ⟨hleaves, htimed⟩ := along_and_everyState_of_along hstep (timed_new l) hwhole hrun
  exact ⟨hleaves, htimed.imp fun s hs => ⟨hs.closed, hs.toSound.retrievesCached clock⟩⟩

end Serving

end FairCache
