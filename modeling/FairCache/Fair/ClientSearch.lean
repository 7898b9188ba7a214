import FairCache.Fair.Records

/-!
# The search for a client

`_get_min_value_key_for_client` takes a record for the value of its block, however old it is.

* `LeastForClient` : what the search should answer;
* `OldestOrdered` : of two blocks of a client the cheaper one has the earlier oldest record;
* `leastForClient_iff`, `everyState_leastForClient_iff` : this is when the searches answer what they should.
-/

namespace FairCache.LMCLocalFairBackend

open Lib FairEvictor

variable {md : LMCacheMemPoolMetadata} {K F R : Type} [LinearOrder K] [LinearOrder F]
  {b : LMCLocalFairBackend md K F R}

/-- The search for client `c` answers, of the resident blocks of the client that are not excluded, one of least value, and
`None` only if there is none. -/
def LeastForClient (b : LMCLocalFairBackend md K F R) (c : ClientId) (excluded : List K) : Prop :=
  (∀ k, (b.evictor.getMinValueKeyForClient c b.dict excluded).1 = some k → k ∉ excluded ∧
    ∃ e, b.dict.lookup k = some e ∧ c ∈ e.clients ∧
      ∀ j f, b.dict.lookup j = some f → c ∈ f.clients → j ∉ excluded → e.value ≤ f.value) ∧
  ((b.evictor.getMinValueKeyForClient c b.dict excluded).1 = none →
    ∀ j f, b.dict.lookup j = some f → c ∈ f.clients → j ∈ excluded)

/-- **The oldest records are ordered as the blocks are**: every block has a record in the heaps of each of its clients, and
of two blocks of a client the cheaper one has a record before all those of the other, outdated ones included. -/
structure OldestOrdered (b : LMCLocalFairBackend md K F R) : Prop where
  known : ∀ k e c, b.dict.lookup k = some e → c ∈ e.clients → b.evictor.Knows c e.lambdaVal k
  ordered : ∀ c hs, b.evictor.clientHeaps.lookup c = some hs → ∀ j f k e, b.dict.lookup j = some f →
    b.dict.lookup k = some e → c ∈ f.clients → c ∈ e.clients → f.value < e.value →
      ∀ v, HeapGroup.Holds hs e.lambdaVal v k →
        ∃ w, HeapGroup.Holds hs f.lambdaVal w j ∧ hs.rank f.lambdaVal w j < hs.rank e.lambdaVal v k

/-! ## Searches among few blocks -/

/-- Every resident key but these. -/
def others (b : LMCLocalFairBackend md K F R) (ks : List K) : List K := unselected b.dict ks

theorem mem_others {ks : List K} {k : K} : k ∈ b.others ks ↔ k ∈ b.dict ∧ k ∉ ks := by
  unfold others unselected
  rw [List.mem_filter, ← AList.mem_keys, decide_eq_true_eq]

/-- The heap of a client that the search looks at. -/
theorem search_of_lookup {c : ClientId} {hs : HeapGroup F F K} (h : b.evictor.clientHeaps.lookup c = some hs)
    (x : List K) :
    (b.evictor.getMinValueKeyForClient c b.dict x).1 = (hs.search (clientStale c b.dict x)).1 := by
  unfold getMinValueKeyForClient
  rw [h]

/-- A search that answers found a record that is not stale. -/
theorem exists_heaps_of_search {c : ClientId} {x : List K} {k : K}
    (h : (b.evictor.getMinValueKeyForClient c b.dict x).1 = some k) :
    ∃ hs, b.evictor.clientHeaps.lookup c = some hs ∧ (hs.search (clientStale c b.dict x)).1 = some k := by
  cases hlook : b.evictor.clientHeaps.lookup c with
  | none =>
    unfold getMinValueKeyForClient at h
    rw [hlook] at h
    cases h
  | some hs => exact ⟨hs, rfl, search_of_lookup hlook x ▸ h⟩

/-! ## When the searches are right -/

theorem OldestOrdered.least (h : b.OldestOrdered) (c : ClientId) (x : List K) : b.LeastForClient c x := by
  refine ⟨?_, ?_⟩
  · intro k hk
    obtain ⟨hs, hlook, hsearch⟩ := exists_heaps_of_search hk
    obtain ⟨l, v, hh, hstale, hleast⟩ := HeapGroup.search_eq_some_iff.mp hsearch
    obtain ⟨e, he, rfl, hc, hx⟩ := clientStale_eq_false.mp hstale
    refine ⟨hx, e, he, mem_clients.mpr hc, ?_⟩
    intro j f hj hcf hjx
    by_contra hlt
    obtain ⟨w, hw, hrank⟩ := h.ordered c hs hlook j f k e hj he hcf (mem_clients.mpr hc) (not_le.mp hlt) v hh
    have hlive : clientStale c b.dict x f.lambdaVal (toLex (w, j)) = false :=
      clientStale_eq_false.mpr ⟨f, hj, rfl, mem_clients.mp hcf, hjx⟩
    exact absurd (hleast _ _ _ hw hlive) (not_le.mpr hrank)
  · intro hnone j f hj hc
    by_contra hjx
    exact not_knows_of_search_none hnone hj hc hjx (h.known j f c hj hc)

theorem knows_of_least (h : ∀ c x, b.LeastForClient c x) {k : K} {e : CacheEntry F} {c : ClientId}
    (hk : b.dict.lookup k = some e) (hc : c ∈ e.clients) : b.evictor.Knows c e.lambdaVal k := by
  obtain ⟨hsome, hnone⟩ := h c (b.others [k])
  have hmem : k ∉ b.others [k] := fun hmem => (mem_others.mp hmem).2 (List.mem_singleton_self k)
  cases hsearch : (b.evictor.getMinValueKeyForClient c b.dict (b.others [k])).1 with
  | none => exact absurd (hnone hsearch k e hk hc) hmem
  | some j =>
    obtain ⟨hs, hlook, hanswer⟩ := exists_heaps_of_search hsearch
    obtain ⟨l, v, hh, hstale, -⟩ := HeapGroup.search_eq_some_iff.mp hanswer
    obtain ⟨f, hf, rfl, -, hx⟩ := clientStale_eq_false.mp hstale
    -- only `k` is left
    obtain rfl : j = k := by
      by_contra hne
      exact hx (mem_others.mpr ⟨Dict.mem_of_lookup hf, fun hmem => hne (List.mem_singleton.mp hmem)⟩)
    obtain rfl : f = e := Option.some.inj (hf.symm.trans hk)
    exact ⟨hs, v, hlook, hh⟩

/-- **The searches for the clients are right exactly if the oldest records are ordered as the blocks are.** -/
theorem leastForClient_iff (b : LMCLocalFairBackend md K F R) : (∀ c x, b.LeastForClient c x) ↔ b.OldestOrdered := by
  refine ⟨fun h => ⟨fun k e c hk hc => knows_of_least h hk hc, ?_⟩, fun h => h.least⟩
  intro c hs hlook j f k e hj hk hcf hce hlt v hv
  by_contra hno
  have hjx : j ∉ b.others [j, k] := fun hmem => (mem_others.mp hmem).2 List.mem_cons_self
  have hkx : k ∉ b.others [j, k] :=
    fun hmem => (mem_others.mp hmem).2 (List.mem_cons_of_mem _ (List.mem_singleton_self k))
  have hlive : clientStale c b.dict (b.others [j, k]) e.lambdaVal (toLex (v, k)) = false :=
    clientStale_eq_false.mpr ⟨e, hk, rfl, mem_clients.mp hce, hkx⟩
  cases hsearch : (hs.search (clientStale c b.dict (b.others [j, k]))).1 with
  | none =>
    rw [HeapGroup.search_none hsearch hv] at hlive
    cases hlive
  | some i =>
    obtain ⟨l, w, hw, hstale, hleast⟩ := HeapGroup.search_eq_some_iff.mp hsearch
    obtain ⟨g, hg, rfl, -, hx⟩ := clientStale_eq_false.mp hstale
    have hi : i = j ∨ i = k := by
      by_contra hne
      obtain ⟨hij, hik⟩ := not_or.mp hne
      apply hx
      refine mem_others.mpr ⟨Dict.mem_of_lookup hg, ?_⟩
      intro hmem
      rcases List.mem_cons.mp hmem with h' | h'
      · exact hij h'
      · exact hik (List.mem_singleton.mp h')
    rcases hi with rfl | rfl
    · -- a record of `j` would come before that of `k`
      obtain rfl : g = f := Option.some.inj (hg.symm.trans hj)
      have hle := hleast _ _ _ hv hlive
      rcases lt_or_eq_of_le hle with hrank | hrank
      · exact hno ⟨w, hw, hrank⟩
      · obtain rfl : i = k := HeapGroup.rank_inj hrank
        obtain rfl : g = e := Option.some.inj (hg.symm.trans hk)
        exact lt_irrefl _ hlt
    · -- the search prefers `k` although `j` is cheaper
      obtain ⟨-, e', he', -, hmin⟩ := (h c (b.others [j, i])).1 i (search_of_lookup hlook _ ▸ hsearch)
      obtain rfl : e' = e := Option.some.inj (he'.symm.trans hk)
      exact absurd (hmin j f hj hcf hjx) (not_le.mpr hlt)

variable [Field F] [FloatMath F]

/-- **Runs.** In every state of a run the searches for the clients are right exactly if in every state the oldest records
are ordered as the blocks are. -/
theorem everyState_leastForClient_iff (ops : List (Act K F R)) :
    EveryState act (fun b => ∀ c x, b.LeastForClient c x) (new md K F R) ops ↔
      EveryState act OldestOrdered (new md K F R) ops :=
  ⟨fun h => h.imp fun b => (leastForClient_iff b).mp, fun h => h.imp fun b => (leastForClient_iff b).mpr⟩

/-- In a run whose puts lose no record every block has one in the heaps of each of its clients. -/
theorem known_of_run {ops : List (Act K F R)} (hrun : Reaches act (new md K F R) ops b)
    (hops : Along act Lossless (new md K F R) ops) {k : K} {e : CacheEntry F} {c : ClientId}
    (hk : b.dict.lookup k = some e) (hc : c ∈ e.clients) : b.evictor.Knows c e.lambdaVal k :=
  ((recorded_of_run hrun hops).client k e c hk List.not_mem_nil hc).knows

/-- Client 1 puts a full chunk under the key `k` at time `t`. -/
def argsAt (k : ℕ) (t : ℚ) : PutArgs ℕ ℚ Unit := { argsOf k 2 [] with storedAt := t }

/-- Client 1 puts two blocks and comes back to the first: its search still answers this one, for the record of the put. -/
theorem outdated_record_wins : ∃ b, Reaches act (new .threeChunks ℕ ℚ Unit)
      [.put (argsAt 0 1), .put (argsAt 1 2), .updateOnGet 0 1 3] b ∧ ¬ b.LeastForClient 1 [] := by
  have hrun : ∃ b, Reaches act (new .threeChunks ℕ ℚ Unit)
        [.put (argsAt 0 1), .put (argsAt 1 2), .updateOnGet 0 1 3] b ∧
      (b.evictor.getMinValueKeyForClient 1 b.dict []).1 = some 0 ∧
      (b.dict.lookup 0).map (·.value) = some 3 ∧ (b.dict.lookup 1).map (·.value) = some 2 ∧
      (b.dict.lookup 1).map (·.clients) = some [1] := by decide +kernel
  obtain ⟨b, hb, hsearch, h0, h1, hclients⟩ := hrun
  refine ⟨b, hb, ?_⟩
  rintro ⟨hsome, -⟩
  obtain ⟨-, e, he, -, hleast⟩ := hsome 0 hsearch
  obtain ⟨f, hf, hvalue⟩ := Option.map_eq_some_iff.mp h1
  rw [hf] at hclients
  rw [he] at h0
  have hfirst : e.value = 3 := Option.some.inj h0
  have hshared : f.clients = [1] := Option.some.inj hclients
  have hle := hleast 1 f hf (hshared ▸ List.mem_singleton_self 1) List.not_mem_nil
  rw [hvalue, hfirst] at hle
  exact absurd hle (by norm_num)

end FairCache.LMCLocalFairBackend
