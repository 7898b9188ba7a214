import FairCache.Fair.Records

/-!
# Blocks that some put can evict

A block is out of reach of the second pass once no client that shares it is in the usage table.

* `Evictable` : every block has its records and a sharer in the table;
* `Attended` : every block has its records and all its sharers are in the table, unless it is gone;
* `FindsVictims` : the second pass gives up no client that has a block left, and makes room; `LeavesNoneBehind` : the
  puts of which this is true;
* `everyState_evictable` : they leave every block evictable.
-/

namespace FairCache

open Lib

variable {md : LMCacheMemPoolMetadata} {K F R : Type} [LinearOrder K] [LinearOrder F] [Field F]

namespace FairEvictor

/-- **Every block that is not gone has its records**, and it has sharers, which are all in the usage table. -/
structure Attended (ev : FairEvictor md K F) (d : Dict K (CacheEntry F)) (gone : List K) : Prop where
  recorded : Recorded ev d gone
  present : ∀ k e c, d.lookup k = some e → k ∉ gone → c ∈ e.clients → c ∈ ev.clientCacheSizes
  shared : ∀ k e, d.lookup k = some e → k ∉ gone → e.clients ≠ []

/-- The second pass makes room; where it looks at a client, the client's search answers a block that is not protected, or
the client has none left. -/
inductive FindsVictims (d : Dict K (CacheEntry F)) (cacheSize : ℕ) (r : List K) : FairEvictor md K F → List K → Prop
  | room {ev ks} (h : ev.HasRoom cacheSize) : FindsVictims d cacheSize r ev ks
  | take {ev ks m k} (hm : ev.getMaxClientId = some m) (hs : (ev.getMinValueKeyForClient m d ks).1 = some k) (hr : k ∉ r)
    (h : ∀ e, d.lookup k = some e →
      FindsVictims d cacheSize r ((ev.getMinValueKeyForClient m d ks).2.select k e) (ks ++ [k])) :
    FindsVictims d cacheSize r ev ks
  | giveUp {ev ks m} (hm : ev.getMaxClientId = some m) (hs : (ev.getMinValueKeyForClient m d ks).1 = none)
    (h : FindsVictims d cacheSize r ((ev.getMinValueKeyForClient m d ks).2.dropClient m) ks) :
    FindsVictims d cacheSize r ev ks

variable {ev ev' : FairEvictor md K F} {d d' : Dict K (CacheEntry F)} {gone gone' ks : List K} {cacheSize : ℕ}
  {r : List K} {now : F}

/-- One victim is enough. -/
theorem findsVictims_of_one {m : ClientId} {k : K} (hm : ev.getMaxClientId = some m)
    (hs : (ev.getMinValueKeyForClient m d ks).1 = some k) (hr : k ∉ r)
    (hroom : cacheSize + ev.currentCacheSize ≤ (md.maxBytes : ℤ) + blockSize d k) : FindsVictims d cacheSize r ev ks := by
  refine .take hm hs hr ?_
  intro e he
  apply FindsVictims.room
  rw [blockSize, he, Option.map_some, Option.getD_some] at hroom
  rw [hasRoom_iff]
  show cacheSize + ((ev.getMinValueKeyForClient m d ks).2.currentCacheSize - (e.kvObj.size : ℤ)) ≤ md.maxBytes
  rw [currentCacheSize_getMinValueKeyForClient]
  omega

/-! ## The passes -/

namespace Attended

omit [Field F] in
/-- The same heaps and a table of the same clients serve whatever blocks are left. -/
theorem mono (h : Attended ev d gone) (hglobal : ev'.globalHeaps = ev.globalHeaps)
    (hclient : ev'.clientHeaps = ev.clientHeaps) (htable : ∀ c ∈ ev.clientCacheSizes, c ∈ ev'.clientCacheSizes)
    (hdict : ∀ k e, d'.lookup k = some e → k ∉ gone' → d.lookup k = some e ∧ k ∉ gone) : Attended ev' d' gone' := by
  refine ⟨h.recorded.mono hglobal hclient hdict, ?_, ?_⟩
  · intro k e c hk hg hc
    obtain ⟨hk', hg'⟩ := hdict k e hk hg
    exact htable c (h.present k e c hk' hg' hc)
  · intro k e hk hg
    obtain ⟨hk', hg'⟩ := hdict k e hk hg
    exact h.shared k e hk' hg'

omit [Field F] in
theorem searchGlobal (h : Attended ev d gone) : Attended (ev.getMinValueKey d gone).2 d gone :=
  ⟨h.recorded.searchGlobal, h.present, h.shared⟩

omit [Field F] in
theorem searchClient (h : Attended ev d gone) (m : ClientId) : Attended (ev.getMinValueKeyForClient m d gone).2 d gone := by
  refine ⟨h.recorded.searchClient m, ?_, h.shared⟩
  rw [clientCacheSizes_getMinValueKeyForClient]
  exact h.present

theorem select (h : Attended ev d gone) (k : K) (e : CacheEntry F) : Attended (ev.select k e) d (gone ++ [k]) := by
  refine h.mono (by rfl) (by rfl) ?_ ?_
  · intro c hc
    exact (mem_dropShares _ _ _).mpr hc
  · intro j f hj hg
    exact ⟨hj, fun hmem => hg (List.mem_append_left _ hmem)⟩

omit [Field F] in
/-- A client whose search answers nothing has no block left. -/
theorem giveUp (h : Attended ev d gone) {m : ClientId} (hs : (ev.getMinValueKeyForClient m d gone).1 = none) :
    Attended ((ev.getMinValueKeyForClient m d gone).2.dropClient m) d gone := by
  have hsearch := h.searchClient m
  refine ⟨hsearch.recorded.dropClient m, ?_, h.shared⟩
  intro k e c hk hg hc
  rw [mem_dropClient]
  refine ⟨?_, hsearch.present k e c hk hg hc⟩
  rintro rfl
  exact not_knows_of_search_none hs hk hc hg (h.recorded.client k e c hk hg hc).knows

/-- **The second pass**, where it finds its victims, accepts the put and leaves the other blocks attended. -/
theorem evictFromMaxClient (hfinds : FindsVictims d cacheSize r ev ks) (h : Attended ev d ks)
    {who who' : Option ClientId} {ks' : List K} {st : PutStatus}
    (hres : evictFromMaxClient d cacheSize r ev who ks = (ev', who', ks', st)) : st = .legal ∧ Attended ev' d ks' := by
  fun_induction FairEvictor.evictFromMaxClient d cacheSize r ev who ks with
  | case1 ev who ks hroom =>
    cases hres
    exact ⟨rfl, h⟩
  | case2 ev who ks hroom hm =>
    cases hfinds with
    | room hfits => exact absurd hfits hroom
    | take hm' => rw [hm] at hm'; cases hm'
    | giveUp hm' => rw [hm] at hm'; cases hm'
  | case3 ev who ks hroom m hm ev₁ hs ih =>
    have hs₁ : (ev.getMinValueKeyForClient m d ks).1 = none := by rw [hs]
    have hleft := h.giveUp hs₁
    rw [hs] at hleft
    refine ih ?_ hleft hres
    cases hfinds with
    | room hfits => exact absurd hfits hroom
    | take hm' hs' =>
      obtain rfl := Option.some.inj (hm.symm.trans hm')
      rw [hs₁] at hs'
      cases hs'
    | giveUp hm' _ hnext =>
      obtain rfl := Option.some.inj (hm.symm.trans hm')
      rwa [hs] at hnext
  | case4 ev who ks hroom m hm k ev₁ hs hr ih =>
    have hs₁ : (ev.getMinValueKeyForClient m d ks).1 = some k := by rw [hs]
    cases hfinds with
    | room hfits => exact absurd hfits hroom
    | take hm' hs' hr' =>
      obtain rfl := Option.some.inj (hm.symm.trans hm')
      obtain rfl := Option.some.inj (hs₁.symm.trans hs')
      exact absurd hr hr'
    | giveUp hm' hs' =>
      obtain rfl := Option.some.inj (hm.symm.trans hm')
      rw [hs₁] at hs'
      cases hs'
  | case5 ev who ks hroom m hm k ev₁ hs hr hl =>
    obtain ⟨-, e, he, -⟩ := getMinValueKeyForClient_some hs
    rw [hl] at he
    cases he
  | case6 ev who ks hroom m hm k ev₁ hs hr e he ih =>
    have hs₁ : (ev.getMinValueKeyForClient m d ks).1 = some k := by rw [hs]
    have hleft := (h.searchClient m).select k e
    rw [hs] at hleft
    refine ih ?_ hleft hres
    cases hfinds with
    | room hfits => exact absurd hfits hroom
    | take hm' hs' _ hnext =>
      obtain rfl := Option.some.inj (hm.symm.trans hm')
      obtain rfl := Option.some.inj (hs₁.symm.trans hs')
      have hrest := hnext e he
      rwa [hs] at hrest
    | giveUp hm' hs' =>
      obtain rfl := Option.some.inj (hm.symm.trans hm')
      rw [hs₁] at hs'
      cases hs'

/-! ## The read side -/

omit [Field F] in
theorem erase (h : Attended ev d []) (key : K) : Attended ev (d.erase key) [] :=
  h.mono rfl rfl (fun _ hc => hc) fun _ _ hk _ => ⟨(Dict.lookup_erase_eq_some.mp hk).2, List.not_mem_nil⟩

theorem registerNewCache [FloatMath F] (h : Attended ev d []) (key : K) (e : CacheEntry F) (he : e.accessMap = ∅) (c₀ : ClientId)
    (now : F) :
    Attended (ev.registerNewCache key e c₀ now).1 (d.set key (ev.registerNewCache key e c₀ now).2) [] := by
  have hclients : (ev.registerNewCache key e c₀ now).2.clients = [c₀] := by
    simp [FairEvictor.registerNewCache, CacheEntry.clients, CacheEntry.updateAccessTime, CacheEntry.updateValue, he,
      Dict.keys_set]
  have htable : ∀ c, c ∈ (ev.registerNewCache key e c₀ now).1.clientCacheSizes ↔ c = c₀ ∨ c ∈ ev.clientCacheSizes := by
    intro c
    rw [FairEvictor.registerNewCache, clientCacheSizes_recordValue, Dict.mem_upsert]
  refine ⟨h.recorded.registerNewCache key e he c₀ now, ?_, ?_⟩
  · intro k f c hk _ hc
    rw [htable]
    rw [Dict.lookup_set] at hk
    split_ifs at hk
    · cases hk
      rw [hclients, List.mem_singleton] at hc
      exact Or.inl hc
    · exact Or.inr (h.present k f c hk List.not_mem_nil hc)
  · intro k f hk _
    rw [Dict.lookup_set] at hk
    split_ifs at hk
    · cases hk
      rw [hclients]
      exact List.cons_ne_nil _ _
    · exact h.shared k f hk List.not_mem_nil

/-- An access takes no client off the table and puts a new sharer on it. -/
theorem mem_accessSizes {sizes : Dict ClientId F} {old e : CacheEntry F} {c₀ c : ClientId}
    (h : c ∈ sizes ∨ (c = c₀ ∧ c₀ ∉ old.clients ∧ old.clients ≠ [])) : c ∈ accessSizes sizes old e c₀ := by
  unfold accessSizes
  dsimp only
  split_ifs with hnew hsole
  · rw [Dict.mem_upsert]
    rcases h with h | h
    · exact Or.inr (Dict.mem_upsertAll h _ _)
    · exact Or.inl h.1
  · rw [Dict.mem_upsert]
    exact h.symm.imp (fun h => h.1) id
  · refine h.resolve_right ?_
    rintro ⟨-, hc₀, hne⟩
    exact hnew ⟨fun hmem => hc₀ (mem_clients.mpr hmem), List.length_pos_iff.mpr hne⟩

theorem updateOnGet [FloatMath F] (h : Attended ev d []) (key : K) (c₀ : ClientId) (now : F) :
    Attended (ev.updateOnGet key c₀ d now).1 (ev.updateOnGet key c₀ d now).2 [] := by
  have hrecorded := h.recorded.updateOnGet key c₀ now
  unfold FairEvictor.updateOnGet at hrecorded ⊢
  cases hk : d.lookup key with
  | none => exact h
  | some old =>
    rw [hk] at hrecorded
    have hclients := old.clients_updateAccessTime c₀ now
    have hne := h.shared key old hk List.not_mem_nil
    refine ⟨hrecorded, ?_, ?_⟩
    · intro j f c hj _ hc
      apply mem_accessSizes
      rw [clientCacheSizes_recordValue]
      rw [Dict.lookup_set] at hj
      split_ifs at hj
      · cases hj
        rw [CacheEntry.clients_updateValue, hclients] at hc
        by_cases hc₀ : c₀ ∈ old.clients
        · rw [if_pos hc₀] at hc
          exact Or.inl (h.present key old c hk List.not_mem_nil hc)
        · rw [if_neg hc₀, List.mem_append, List.mem_singleton] at hc
          exact hc.imp (h.present key old c hk List.not_mem_nil) fun heq => ⟨heq, hc₀, hne⟩
      · exact Or.inl (h.present j f c hj List.not_mem_nil hc)
    · intro j f hj _
      rw [Dict.lookup_set] at hj
      split_ifs at hj
      · cases hj
        rw [CacheEntry.clients_updateValue, hclients]
        split_ifs
        · exact hne
        · exact List.append_ne_nil_of_right_ne_nil _ (List.cons_ne_nil _ _)
      · exact h.shared j f hj List.not_mem_nil

end Attended

end FairEvictor

/-! ## Runs -/

namespace LMCLocalFairBackend

open FairEvictor

variable {b b' : LMCLocalFairBackend md K F R} {a : PutArgs K F R}

omit [Field F] in
/-- **Every block can be evicted**: it has its records, in the global heaps and in those of its sharers, and one of the
sharers is in the usage table. -/
def Evictable (b : LMCLocalFairBackend md K F R) : Prop :=
  ∀ k e, b.dict.lookup k = some e → HeapGroup.Holds b.evictor.globalHeaps e.lambdaVal e.value k ∧
    (∀ c ∈ e.clients, b.evictor.KnowsAt c e.lambdaVal e.value k) ∧ ∃ c ∈ e.clients, c ∈ b.evictor.clientCacheSizes

omit [Field F] in
theorem evictable_of_attended (h : Attended b.evictor b.dict []) : b.Evictable := by
  intro k e hk
  obtain ⟨c, hc⟩ := List.exists_mem_of_ne_nil _ (h.shared k e hk List.not_mem_nil)
  exact ⟨h.recorded.global k e hk List.not_mem_nil, fun c hc => h.recorded.client k e c hk List.not_mem_nil hc,
    c, hc, h.present k e c hk List.not_mem_nil hc⟩

theorem attended_remove (h : Attended b.evictor b.dict []) (k : K) : Attended (b.remove k).evictor (b.remove k).dict [] := by
  apply h.mono (heaps_remove b k).1 (heaps_remove b k).2 fun c => (mem_table_remove b k c).mpr
  intro j e hj _
  rw [lookup_remove] at hj
  split_ifs at hj
  exact ⟨hj, List.not_mem_nil⟩

theorem attended_dropOld (h : Attended b.evictor b.dict []) (k : K) :
    Attended (b.dropOld k).2.evictor (b.dropOld k).2.dict [] := by
  unfold dropOld
  cases b.dict.lookup k with
  | none => exact h
  | some e => exact (attended_remove h k).mono rfl rfl (fun _ hc => hc) fun _ _ hj hg => ⟨hj, hg⟩

/-- Once the blocks that are gone are removed, none is. -/
theorem attended_foldl_remove {ks : List K} (h : Attended b.evictor b.dict ks) :
    Attended (ks.foldl remove b).evictor (ks.foldl remove b).dict [] := by
  have hdict : ∀ k e, (ks.foldl remove b).dict.lookup k = some e → b.dict.lookup k = some e ∧ k ∉ ks := by
    intro k e hk
    rw [lookup_foldl_remove] at hk
    split_ifs at hk with hks
    exact ⟨hk, hks⟩
  refine ⟨recorded_foldl_remove h.recorded, ?_, ?_⟩
  · intro k e c hk _ hc
    exact (mem_table_foldl_remove b ks c).mpr (h.present k e c (hdict k e hk).1 (hdict k e hk).2 hc)
  · intro k e hk _
    exact h.shared k e (hdict k e hk).1 (hdict k e hk).2

omit [Field F] in
/-- Of no blocks all is true. -/
theorem attended_of_empty {ev : FairEvictor md K F} {d : Dict K (CacheEntry F)} (h : ∀ k, k ∉ d) (gone : List K) :
    Attended ev d gone := by
  have hnone : ∀ k e, d.lookup k = some e → False := fun k e hk => h k (Dict.mem_of_lookup hk)
  exact ⟨⟨fun k e hk => (hnone k e hk).elim, fun k e _ hk => (hnone k e hk).elim⟩,
    fun k e _ hk => (hnone k e hk).elim, fun k e hk => (hnone k e hk).elim⟩

variable [FloatMath F]

/-- A put that leaves no block behind: its chunk is too large, or there is no block but the one it replaces, or the second
pass finds its victims. -/
def LeavesNoneBehind (b : LMCLocalFairBackend md K F R) (a : PutArgs K F R) : Prop :=
  md.maxBytes < chunkBytes md a ∨ (∀ k ∈ b.dict, k = a.key) ∨
    let b₁ := (b.dropOld a.key).2
    let pass₁ := evictBelowThreshold b₁.dict (chunkBytes md a) a.retrievedKeys a.now b₁.evictor []
    FindsVictims b₁.dict (chunkBytes md a) a.retrievedKeys pass₁.1 pass₁.2

/-- With room, the first pass chooses nothing and the second has nothing to do. -/
theorem leavesNoneBehind_of_room (h : (b.dropOld a.key).2.evictor.HasRoom (chunkBytes md a)) : b.LeavesNoneBehind a := by
  refine Or.inr (Or.inr (.room ?_))
  rw [evictBelowThreshold, if_pos h]
  exact h

/-- Such a put is accepted, or it chooses among no blocks. -/
theorem attended_victims (h : Attended b.evictor b.dict []) (ha : b.LeavesNoneBehind a)
    (hle : chunkBytes md a ≤ md.maxBytes) {ev : FairEvictor md K F} {who : Option ClientId} {ks : List K} {st : PutStatus}
    (hv : b.victims a = (ev, who, ks, st)) :
    Attended ev (b.dropOld a.key).2.dict ks ∧ (st = .illegal → ∀ k, k ∉ (b.dropOld a.key).2.dict) := by
  rcases ha with hbig | halone | hfinds
  · exact absurd hbig (not_lt.mpr hle)
  · have hempty : ∀ k, k ∉ (b.dropOld a.key).2.dict := by
      intro k hk
      obtain ⟨e, he⟩ := (Dict.mem_iff_lookup _ _).mp hk
      rw [lookup_dropOld] at he
      split_ifs at he with hkey
      exact hkey (halone k (Dict.mem_of_lookup he))
    exact ⟨attended_of_empty hempty ks, fun _ => hempty⟩
  · have hfirst : Attended (evictBelowThreshold (b.dropOld a.key).2.dict (chunkBytes md a) a.retrievedKeys a.now
          (b.dropOld a.key).2.evictor []).1 (b.dropOld a.key).2.dict
        (evictBelowThreshold (b.dropOld a.key).2.dict (chunkBytes md a) a.retrievedKeys a.now
          (b.dropOld a.key).2.evictor []).2 := by
      apply evictBelowThreshold_rule (P := fun ev ks => Attended ev (b.dropOld a.key).2.dict ks) _ _ _ _
        (attended_dropOld h a.key)
      · intro ev ks hp _
        exact hp.searchGlobal
      · intro ev ks k e hp _ _ _ _
        exact hp.searchGlobal.select k e
    obtain ⟨hst, hleft⟩ := Attended.evictFromMaxClient hfinds hfirst hv
    refine ⟨hleft, ?_⟩
    intro hill
    rw [hst] at hill
    cases hill

theorem attended_putSections (h : Attended b.evictor b.dict []) (ha : b.LeavesNoneBehind a)
    (hput : b.putSections a = .ok b') : Attended b'.evictor b'.dict [] := by
  by_cases hbig : md.maxBytes < chunkBytes md a
  · rw [putSections_tooLarge hbig] at hput
    cases hput
    exact (attended_dropOld h a.key).mono rfl rfl (fun _ hc => hc) fun _ _ hj hg => ⟨hj, hg⟩
  · have hle := not_lt.mp hbig
    cases hv : b.victims a with
    | mk ev rest =>
      obtain ⟨who, ks, st⟩ := rest
      obtain ⟨hleft, hill⟩ := attended_victims h ha hle hv
      cases st with
      | illegal =>
        rw [putSections_illegal hle hv] at hput
        cases hput
        exact attended_of_empty (hill rfl) []
      | legal =>
        rw [putSections_legal hle hv] at hput
        cases hslot : (b.evicted a ev ks).mpool.allocate a.kvChunk with
        | error e =>
          rw [hslot] at hput
          cases hput
        | ok op =>
          obtain ⟨o, p⟩ := op
          rw [hslot] at hput
          cases hput
          have hevicted : Attended (b.evicted a ev ks).evictor (b.evicted a ev ks).dict [] := by
            apply attended_foldl_remove
            exact hleft.mono rfl rfl (fun _ hc => hc) fun _ _ hj hg => ⟨hj, hg⟩
          exact hevicted.registerNewCache a.key _ rfl a.clientId a.storedAt

/-- The put that an operation executes, if it is one, leaves no block behind. -/
def KeepsEvictable (b : LMCLocalFairBackend md K F R) (op : Op K F R) : Prop := ∀ a, op.put? = some a → b.LeavesNoneBehind a

theorem attended_step {op : Op K F R} (h : Attended b.evictor b.dict []) (hop : b.KeepsEvictable op)
    (hstep : b.step op = .ok b') : Attended b'.evictor b'.dict [] := by
  cases op with
  | putBlocking a => exact attended_putSections h (hop a rfl) hstep
  | putNonblocking a => exact attended_putSections h (hop a rfl) hstep
  | get ctx k =>
    cases hstep
    exact h
  | updateAfterGet ctx ks clock =>
    cases hstep
    exact updateAfterGet_rule (P := fun b => Attended b.evictor b.dict []) (fun b k c now _ _ hb => hb.updateOnGet k c now) h

/-- **Runs** whose puts leave no block behind: every block of every state can be evicted. -/
theorem everyState_evictable {ops : List (Op K F R)} (hrun : Reaches step (new md K F R) ops b)
    (hops : Along step KeepsEvictable (new md K F R) ops) : EveryState step Evictable (new md K F R) ops := by
  have hstep : ∀ (b : LMCLocalFairBackend md K F R) (op : Op K F R) b', Attended b.evictor b.dict [] →
      b.KeepsEvictable op → b.step op = .ok b' → Attended b'.evictor b'.dict [] :=
    fun _ _ _ h hop hstep => attended_step h hop hstep
  have hnew : Attended (new md K F R).evictor (new md K F R).dict [] := attended_of_empty (fun k => AList.notMem_empty k) []
  exact (everyState_of_along hstep hnew hops hrun).imp fun b h => evictable_of_attended h

/-- Three puts find room, and the fourth one a victim. -/
theorem everyState_evictable_full :
    EveryState step Evictable (new .threeChunks ℕ ℚ Unit) ((List.range 3).map (putOf · 2) ++ [putOf 3 2]) := by
  have hfull : ∃ b, Reaches step (new .threeChunks ℕ ℚ Unit) ((List.range 3).map (putOf · 2) ++ [putOf 3 2]) b ∧
      3 ∈ b.dict := by decide +kernel
  obtain ⟨b, hb, -⟩ := hfull
  apply everyState_evictable hb
  have hroom : Along step (fun b op => ∀ a ∈ op.put?, (b.dropOld a.key).2.evictor.HasRoom (chunkBytes .threeChunks a))
      (new .threeChunks ℕ ℚ Unit) ((List.range 3).map (putOf · 2)) := by decide +kernel
  refine (hroom.imp fun b op hop a ha => leavesNoneBehind_of_room (hop a ha)).concat ?_
  rintro t ht a ⟨⟩
  have hthree : ∃ t, Reaches step (new .threeChunks ℕ ℚ Unit) ((List.range 3).map (putOf · 2)) t ∧
      let b₁ := (t.dropOld 3).2
      let pass₁ := evictBelowThreshold b₁.dict 4 [] 0 b₁.evictor []
      pass₁.1.getMaxClientId = some 1 ∧ (pass₁.1.getMinValueKeyForClient 1 b₁.dict pass₁.2).1 = some 0 ∧
        ((4 : ℕ) : ℤ) + pass₁.1.currentCacheSize ≤ (LMCacheMemPoolMetadata.maxBytes .threeChunks : ℕ) + blockSize b₁.dict 0 := by
    decide +kernel
  obtain ⟨t', ht', hmax, hsearch, hone⟩ := hthree
  obtain rfl : t = t' := Except.ok.inj (ht.symm.trans ht')
  exact Or.inr (Or.inr (findsVictims_of_one hmax hsearch List.not_mem_nil hone))

/-- Three blocks fill the cache and are all protected: a fourth put is refused, and no put can evict the three any more. -/
theorem refused_put_strands_blocks : ∃ b, Reaches step (new .threeChunks ℕ ℚ Unit)
      ((List.range 3).map (putOf · 2) ++ [.putBlocking (argsOf 3 2 [0, 1, 2])]) b ∧ ¬ b.Evictable := by
  have hrun : ∃ b, Reaches step (new .threeChunks ℕ ℚ Unit)
        ((List.range 3).map (putOf · 2) ++ [.putBlocking (argsOf 3 2 [0, 1, 2])]) b ∧
      b.evictor.clientCacheSizes.keys = [] ∧ 0 ∈ b.dict := by decide +kernel
  obtain ⟨b, hb, htable, hmem⟩ := hrun
  refine ⟨b, hb, ?_⟩
  intro h
  obtain ⟨e, he⟩ := (Dict.mem_iff_lookup _ _).mp hmem
  obtain ⟨-, -, c, -, hc⟩ := h 0 e he
  rw [AList.mem_keys, htable] at hc
  exact List.not_mem_nil hc

end LMCLocalFairBackend

end FairCache
