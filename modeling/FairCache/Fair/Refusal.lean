import FairCache.Fair.ClientSearch

/-!
# What `update_on_put` answers

* `updateOnPut_contract` : what an accepted put may rely on;
* `getMinValueKey_consistent`, `getMinValueKeyForClient_consistent` : searches that could have answered each other's key
  answer the same one;
* `LowVictim`, `VictimOf`, `CanGo` : the blocks that the passes can get at; `Evicting` : the invariant of the passes;
* `updateOnPut_legal_iff` : a put is accepted exactly if these blocks make room.
-/

namespace FairCache

namespace FairEvictor

open Lib

variable {md : LMCacheMemPoolMetadata} {K F : Type} [LinearOrder K] [LinearOrder F] [Field F]
  {ev ev' : FairEvictor md K F} {d : Dict K (CacheEntry F)} {cacheSize : ℕ} {r ks : List K} {now : F}
  {who : Option ClientId}

/-! ## Accepted puts -/

/-- **The contract of an accepted put**: its victims are distinct resident blocks that are not protected, the ledger loses
their sizes and gains that of the chunk, it stays within the limit, and there are no victims where none is needed. -/
theorem updateOnPut_contract [FloatMath F] (h : ev.updateOnPut d cacheSize r now = (ev', who, ks, .legal)) :
    ks.Nodup ∧ (∀ k ∈ ks, k ∈ d ∧ k ∉ r) ∧
      ev'.currentCacheSize = ev.currentCacheSize - ((ks.map (blockSize d)).sum : ℕ) + cacheSize ∧
      ev'.currentCacheSize ≤ ev'.maxCacheSize ∧ (ev.HasRoom cacheSize → ks = []) := by
  by_cases hbig : md.maxBytes < cacheSize
  · rw [updateOnPut_tooLarge hbig] at h
    cases h
  · have hle := not_lt.mp hbig
    cases hv : ev.chooseVictims d cacheSize r now with
    | mk ev₁ rest =>
      obtain ⟨who₁, ks₁, st⟩ := rest
      cases st with
      | illegal =>
        rw [updateOnPut_illegal hle hv] at h
        cases h
      | legal =>
        rw [updateOnPut_legal hle hv] at h
        cases h
        obtain ⟨hchosen, hroom, -⟩ := chosen_chooseVictims hv
        refine ⟨hchosen.nodup, fun k hk => ⟨hchosen.resident k hk, hchosen.unprotected k hk⟩, ?_, ?_, ?_⟩
        · show ev₁.currentCacheSize + cacheSize = _
          rw [hchosen.ledger]
        · have := hroom rfl
          rw [hasRoom_iff, add_comm] at this
          exact this
        · intro hfits
          rw [chooseVictims_of_room hfits] at hv
          cases hv
          rfl

/-! ## Consistent searches -/

omit [Field F] in
theorem getMinValueKey_consistent {x y : List K} {j k : K} (hx : (ev.getMinValueKey d x).1 = some j)
    (hy : (ev.getMinValueKey d y).1 = some k) (hj : j ∉ y) (hk : k ∉ x) : j = k := by
  obtain ⟨l, v, hh, hlive, hleast⟩ := HeapGroup.search_eq_some_iff.mp hx
  obtain ⟨l', v', hh', hlive', hleast'⟩ := HeapGroup.search_eq_some_iff.mp hy
  obtain ⟨e, he, rfl, rfl, -⟩ := globalStale_eq_false.mp hlive
  obtain ⟨e', he', rfl, rfl, -⟩ := globalStale_eq_false.mp hlive'
  have hjy := hleast' _ _ _ hh (globalStale_eq_false.mpr ⟨e, he, rfl, rfl, hj⟩)
  have hkx := hleast _ _ _ hh' (globalStale_eq_false.mpr ⟨e', he', rfl, rfl, hk⟩)
  exact HeapGroup.rank_inj (le_antisymm hkx hjy)

omit [Field F] in
theorem getMinValueKeyForClient_consistent {c : ClientId} {x y : List K} {j k : K}
    (hx : (ev.getMinValueKeyForClient c d x).1 = some j) (hy : (ev.getMinValueKeyForClient c d y).1 = some k)
    (hj : j ∉ y) (hk : k ∉ x) : j = k := by
  unfold getMinValueKeyForClient at hx hy
  cases hlook : ev.clientHeaps.lookup c with
  | none =>
    rw [hlook] at hx
    cases hx
  | some hs =>
    rw [hlook] at hx hy
    obtain ⟨l, v, hh, hlive, hleast⟩ := HeapGroup.search_eq_some_iff.mp hx
    obtain ⟨l', v', hh', hlive', hleast'⟩ := HeapGroup.search_eq_some_iff.mp hy
    obtain ⟨e, he, rfl, hc, -⟩ := clientStale_eq_false.mp hlive
    obtain ⟨e', he', rfl, hc', -⟩ := clientStale_eq_false.mp hlive'
    have hjy := hleast' _ _ _ hh (clientStale_eq_false.mpr ⟨e, he, rfl, hc, hj⟩)
    have hkx := hleast _ _ _ hh' (clientStale_eq_false.mpr ⟨e', he', rfl, hc', hk⟩)
    exact HeapGroup.rank_inj (le_antisymm hkx hjy)

omit [Field F] in
/-- A key that some search answers keeps every search that does not exclude it from answering nothing. -/
theorem getMinValueKey_ne_none {x y : List K} {k : K} (hx : (ev.getMinValueKey d x).1 = some k) (hk : k ∉ y) :
    (ev.getMinValueKey d y).1 ≠ none := by
  intro hnone
  obtain ⟨l, v, hh, hlive, -⟩ := HeapGroup.search_eq_some_iff.mp hx
  obtain ⟨e, he, hl, hv, -⟩ := globalStale_eq_false.mp hlive
  have hstale := HeapGroup.search_none hnone hh
  rw [globalStale_eq_false.mpr ⟨e, he, hl, hv, hk⟩] at hstale
  cases hstale

omit [Field F] in
theorem getMinValueKeyForClient_ne_none {c : ClientId} {x y : List K} {k : K}
    (hx : (ev.getMinValueKeyForClient c d x).1 = some k) (hk : k ∉ y) :
    (ev.getMinValueKeyForClient c d y).1 ≠ none := by
  intro hnone
  unfold getMinValueKeyForClient at hx hnone
  cases hlook : ev.clientHeaps.lookup c with
  | none =>
    rw [hlook] at hx
    cases hx
  | some hs =>
    rw [hlook] at hx hnone
    obtain ⟨l, v, hh, hlive, -⟩ := HeapGroup.search_eq_some_iff.mp hx
    obtain ⟨e, he, hl, hc, -⟩ := clientStale_eq_false.mp hlive
    have hstale := HeapGroup.search_none hnone hh
    rw [clientStale_eq_false.mpr ⟨e, he, hl, hc, hk⟩] at hstale
    cases hstale

/-! ## The blocks that the passes can get at -/

/-- The real value of the block is below the threshold. -/
def Low [FloatMath F] (ev : FairEvictor md K F) (d : Dict K (CacheEntry F)) (now : F) (k : K) : Prop :=
  ∃ e, d.lookup k = some e ∧ e.instantValue now < ev.valueThreshold

/-- The first pass can get at the block: the global search answers it, and before it only unprotected blocks below the
threshold. -/
def LowVictim [FloatMath F] (ev : FairEvictor md K F) (d : Dict K (CacheEntry F)) (r : List K) (now : F) (k : K) : Prop :=
  (∃ x, (ev.getMinValueKey d x).1 = some k) ∧
    ∀ x p, k ∉ x → (ev.getMinValueKey d x).1 = some p → p ∉ r ∧ ev.Low d now p

/-- The second pass can get at the block through the client: its search answers it, and before it only unprotected blocks. -/
def VictimOf (ev : FairEvictor md K F) (d : Dict K (CacheEntry F)) (r : List K) (c : ClientId) (k : K) : Prop :=
  c ∈ ev.clientCacheSizes ∧ (∃ x, (ev.getMinValueKeyForClient c d x).1 = some k) ∧
    ∀ x p, k ∉ x → (ev.getMinValueKeyForClient c d x).1 = some p → p ∉ r

/-- One of the passes can get at the block. -/
def CanGo [FloatMath F] (ev : FairEvictor md K F) (d : Dict K (CacheEntry F)) (r : List K) (now : F) (k : K) : Prop :=
  ev.LowVictim d r now k ∨ ∃ c, ev.VictimOf d r c k

/-- There is room once the blocks are gone. -/
def RoomWithout (ev : FairEvictor md K F) (d : Dict K (CacheEntry F)) (cacheSize : ℕ) (gone : List K) : Prop :=
  cacheSize + ev.currentCacheSize ≤ md.maxBytes + ((gone.map (blockSize d)).sum : ℕ)

/-- The resident blocks that are not protected. -/
def unprotected (d : Dict K (CacheEntry F)) (r : List K) : List K := unselected d r

open Classical in
/-- The resident blocks that the passes can get at. -/
noncomputable def withinReach [FloatMath F] (ev : FairEvictor md K F) (d : Dict K (CacheEntry F)) (r : List K) (now : F) :
    List K := d.keys.filter (ev.CanGo d r now ·)

theorem mem_withinReach [FloatMath F] {k : K} : k ∈ ev.withinReach d r now ↔ k ∈ d ∧ ev.CanGo d r now k := by
  classical
  unfold withinReach
  rw [List.mem_filter, ← AList.mem_keys]
  exact and_congr_right fun _ => decide_eq_true_iff

omit [Field F] in
theorem RoomWithout.mono {A B : List K} (hA : A.Nodup) (hsub : ∀ k ∈ A, k ∈ B) (h : ev.RoomWithout d cacheSize A) :
    ev.RoomWithout d cacheSize B := by
  obtain ⟨l, hperm, hsublist⟩ := List.subperm_of_subset hA hsub
  have hle : (A.map (blockSize d)).sum ≤ (B.map (blockSize d)).sum := by
    rw [← (hperm.map (blockSize d)).sum_eq]
    exact (hsublist.map (blockSize d)).sum_le_sum fun _ _ => Nat.zero_le _
  unfold RoomWithout at h ⊢
  omega

/-! ## The passes -/

/-- **The invariant of the passes** from `ev₀`, with the blocks `ks` chosen: they were within reach, the searches answer as
at the start, and a client that left the table has no block within reach any more. -/
structure Evicting [FloatMath F] (ev₀ : FairEvictor md K F) (d : Dict K (CacheEntry F)) (r : List K) (now : F)
    (ev : FairEvictor md K F) (ks : List K) : Prop where
  chosen : Chosen d r ev₀ ev ks
  canGo : ∀ k ∈ ks, ev₀.CanGo d r now k
  global : ∀ x, (∀ k ∈ ks, k ∈ x) → (ev.getMinValueKey d x).1 = (ev₀.getMinValueKey d x).1
  client : ∀ c x, (∀ k ∈ ks, k ∈ x) →
    (ev.getMinValueKeyForClient c d x).1 = (ev₀.getMinValueKeyForClient c d x).1
  table : ∀ c ∈ ev.clientCacheSizes, c ∈ ev₀.clientCacheSizes
  dropped : ∀ c ∈ ev₀.clientCacheSizes, c ∉ ev.clientCacheSizes → ∀ k, ev₀.VictimOf d r c k → k ∈ ks

namespace Evicting

variable [FloatMath F] {ev₀ : FairEvictor md K F}

theorem start (ev₀ : FairEvictor md K F) (d : Dict K (CacheEntry F)) (r : List K) (now : F) :
    Evicting ev₀ d r now ev₀ [] :=
  ⟨Chosen.refl d r ev₀, fun _ hk => absurd hk List.not_mem_nil, fun _ _ => rfl, fun _ _ _ => rfl, fun _ hc => hc,
    fun _ hc hno => absurd hc hno⟩

theorem searchGlobal (h : Evicting ev₀ d r now ev ks) : Evicting ev₀ d r now (ev.getMinValueKey d ks).2 ks := by
  refine ⟨h.chosen.congr rfl, h.canGo, ?_, ?_, h.table, h.dropped⟩
  · intro x hx
    rw [getMinValueKey_getMinValueKey ev d hx]
    exact h.global x hx
  · intro c x hx
    exact (getMinValueKeyForClient_congr (by rfl) d x).trans (h.client c x hx)

theorem searchClient (h : Evicting ev₀ d r now ev ks) (m : ClientId) :
    Evicting ev₀ d r now (ev.getMinValueKeyForClient m d ks).2 ks := by
  refine ⟨h.chosen.congr (currentCacheSize_getMinValueKeyForClient ..), h.canGo, ?_, ?_, ?_, ?_⟩
  · intro x hx
    have hheaps := congrArg (fun hs => (HeapGroup.search (globalStale d x) hs).1)
      (globalHeaps_getMinValueKeyForClient ev m d ks)
    exact hheaps.trans (h.global x hx)
  · intro c x hx
    rw [getMinValueKeyForClient_getMinValueKeyForClient ev m c d hx]
    exact h.client c x hx
  · rw [clientCacheSizes_getMinValueKeyForClient]
    exact h.table
  · rw [clientCacheSizes_getMinValueKeyForClient]
    exact h.dropped

/-- A block within reach is chosen. -/
theorem select (h : Evicting ev₀ d r now ev ks) {k : K} {e : CacheEntry F} (hk : d.lookup k = some e) (hks : k ∉ ks)
    (hr : k ∉ r) (hgo : ev₀.CanGo d r now k) : Evicting ev₀ d r now (ev.select k e) (ks ++ [k]) := by
  refine ⟨h.chosen.select hks hr hk, ?_, ?_, ?_, ?_, ?_⟩
  · intro j hj
    rcases List.mem_append.mp hj with hj | hj
    · exact h.canGo j hj
    · exact List.mem_singleton.mp hj ▸ hgo
  · intro x hx
    exact h.global x fun j hj => hx j (List.mem_append_left _ hj)
  · intro c x hx
    have := h.client c x fun j hj => hx j (List.mem_append_left _ hj)
    exact (getMinValueKeyForClient_congr (by rfl) d x).trans this
  · intro c hc
    exact h.table c ((mem_dropShares _ _ _).mp hc)
  · intro c hc hno j hj
    have hno' : c ∉ ev.clientCacheSizes := fun hmem => hno ((mem_dropShares _ _ _).mpr hmem)
    exact List.mem_append_left _ (h.dropped c hc hno' j hj)

/-- A client without a victim has no block within reach any more. -/
theorem drop (h : Evicting ev₀ d r now ev ks) {m : ClientId} (hno : ev.NoVictimOf d r ks m) :
    Evicting ev₀ d r now ((ev.getMinValueKeyForClient m d ks).2.dropClient m) ks := by
  have hs := h.searchClient m
  refine ⟨hs.chosen.congr rfl, hs.canGo, hs.global,
    fun c x hx => (getMinValueKeyForClient_congr (by rfl) d x).trans (hs.client c x hx), ?_, ?_⟩
  · intro c hc
    exact hs.table c ((mem_dropClient _ _ _).mp hc).2
  · intro c hc hnot k hk
    by_cases hcm : c = m
    · subst hcm
      by_contra hks
      obtain ⟨-, ⟨x, hx⟩, hbefore⟩ := hk
      obtain ⟨p, hp⟩ := Option.ne_none_iff_exists'.mp (getMinValueKeyForClient_ne_none hx hks)
      have hanswer := h.client c ks fun _ hj => hj
      exact hbefore ks p hks hp (hno p (hanswer.trans hp))
    · refine hs.dropped c hc ?_ k hk
      exact fun hmem => hnot ((mem_dropClient _ _ _).mpr ⟨hcm, hmem⟩)

/-- There is room exactly if the chosen blocks make it. -/
theorem hasRoom_iff (h : Evicting ev₀ d r now ev ks) (cacheSize : ℕ) :
    ev.HasRoom cacheSize ↔ ev₀.RoomWithout d cacheSize ks := by
  rw [FairEvictor.hasRoom_iff, h.chosen.ledger]
  unfold RoomWithout
  omega

/-- What a global search chooses was within reach. -/
theorem lowVictim (h : Evicting ev₀ d r now ev ks) (hlow : ∀ k ∈ ks, ev₀.Low d now k) {k : K}
    (hs : (ev.getMinValueKey d ks).1 = some k) (hr : k ∉ r) (hk : ev₀.Low d now k) : ev₀.LowVictim d r now k := by
  rw [h.global ks fun _ hj => hj] at hs
  refine ⟨⟨ks, hs⟩, ?_⟩
  intro x p hkx hp
  by_cases hpk : p ∈ ks
  · exact ⟨h.chosen.unprotected p hpk, hlow p hpk⟩
  · obtain rfl : p = k := getMinValueKey_consistent hp hs hpk hkx
    exact ⟨hr, hk⟩

/-- So was what a client's search chooses. -/
theorem victimOf (h : Evicting ev₀ d r now ev ks) {m : ClientId} (hm : m ∈ ev.clientCacheSizes) {k : K}
    (hs : (ev.getMinValueKeyForClient m d ks).1 = some k) (hr : k ∉ r) : ev₀.VictimOf d r m k := by
  rw [h.client m ks fun _ hj => hj] at hs
  refine ⟨h.table m hm, ⟨ks, hs⟩, ?_⟩
  intro x p hkx hp
  by_cases hpk : p ∈ ks
  · exact h.chosen.unprotected p hpk
  · obtain rfl : p = k := getMinValueKeyForClient_consistent hp hs hpk hkx
    exact hr

end Evicting

section Answer
variable [FloatMath F]

/-- **The rule of the first pass**: it chooses blocks that it can get at, in the order in which the searches from the start
answer them, and what of them it leaves, it leaves where there is room. -/
theorem evicting_evictBelowThreshold {J : List K → Prop} (hnil : J [])
    (hchoose : ∀ ks k, J ks → ¬ ev.RoomWithout d cacheSize ks → ev.LowVictim d r now k →
      (ev.getMinValueKey d ks).1 = some k → J (ks ++ [k]))
    (h : evictBelowThreshold d cacheSize r now ev [] = (ev', ks)) :
    Evicting ev d r now ev' ks ∧ J ks ∧ (ev'.HasRoom cacheSize ∨ ∀ k, ev.LowVictim d r now k → k ∈ ks) := by
  let low : FairEvictor md K F → List K → Prop :=
    fun ev₁ ks₁ => Evicting ev d r now ev₁ ks₁ ∧ (∀ k ∈ ks₁, ev.Low d now k) ∧ J ks₁
  have hstart : low ev [] := ⟨Evicting.start ev d r now, fun _ hk => absurd hk List.not_mem_nil, hnil⟩
  have hpass : low ev' ks ∧ (ev'.HasRoom cacheSize ∨
      ∃ ev₂, low ev₂ ks ∧ ev' = (ev₂.getMinValueKey d ks).2 ∧ ev₂.NoLowVictim d r now ks) := by
    refine evictBelowThreshold_exit ?_ ?_ ev [] hstart h
    · rintro ev₁ ks₁ ⟨he, hlow, hJ⟩ -
      exact ⟨he.searchGlobal, hlow, hJ⟩
    · rintro ev₁ ks₁ k e ⟨he, hlow, hJ⟩ hshort hs hr hk hv
      rw [he.hasRoom_iff] at hshort
      have hks := (getMinValueKey_some (Prod.ext hs rfl)).1
      have hlowk : ev.Low d now k := ⟨e, hk, hv⟩
      have hvictim := he.lowVictim hlow hs hr hlowk
      have hanswer := (he.global ks₁ fun _ hj => hj).symm.trans hs
      refine ⟨he.searchGlobal.select hk hks hr (Or.inl hvictim), ?_, hchoose ks₁ k hJ hshort hvictim hanswer⟩
      intro j hj
      rcases List.mem_append.mp hj with hj | hj
      · exact hlow j hj
      · exact List.mem_singleton.mp hj ▸ hlowk
  refine ⟨hpass.1.1, hpass.1.2.2, ?_⟩
  rcases hpass.2 with hroom | ⟨ev₂, ⟨he, -, -⟩, -, hno⟩
  · exact Or.inl hroom
  · right
    rintro k ⟨⟨x, hx⟩, hbefore⟩
    by_contra hks
    obtain ⟨p, hp⟩ := Option.ne_none_iff_exists'.mp (getMinValueKey_ne_none hx hks)
    obtain ⟨hpr, e, he', hv⟩ := hbefore ks p hks hp
    rcases hno p ((he.global ks fun _ hj => hj).trans hp) with hmem | ⟨e', he'', hv'⟩
    · exact hpr hmem
    · obtain rfl : e = e' := Option.some.inj (he'.symm.trans he'')
      exact absurd hv (not_lt.mpr hv')

/-- **The rule of the second pass**, which goes on from the first. -/
theorem evicting_evictFromMaxClient {J : List K → Prop}
    (hchoose : ∀ ks c k, J ks → ev.VictimOf d r c k → (ev.getMinValueKeyForClient c d ks).1 = some k → J (ks ++ [k]))
    {ev₁ : FairEvictor md K F} {ks₁ : List K} (he : Evicting ev d r now ev₁ ks₁) (hJ : J ks₁) {who₁ : Option ClientId}
    {st : PutStatus} (h : evictFromMaxClient d cacheSize r ev₁ who₁ ks₁ = (ev', who, ks, st)) :
    Evicting ev d r now ev' ks ∧ J ks := by
  refine (evictFromMaxClient_rule (P := fun ev₁ ks₁ => Evicting ev d r now ev₁ ks₁ ∧ J ks₁) ?_ ?_ ev₁ who₁ ks₁
    ⟨he, hJ⟩ h).1
  · rintro ev₁ ks₁ m ⟨he, hJ⟩ - - hno
    exact ⟨he.drop hno, hJ⟩
  · rintro ev₁ ks₁ m k e ⟨he, hJ⟩ - hm hs hr hk -
    have hks := (getMinValueKeyForClient_some (Prod.ext hs rfl)).1
    have hvictim := he.victimOf (getMaxClientId_mem hm) hs hr
    have hanswer := (he.client m ks₁ fun _ hj => hj).symm.trans hs
    exact ⟨(he.searchClient m).select hk hks hr (Or.inr ⟨m, hvictim⟩), hchoose ks₁ m k hJ hvictim hanswer⟩

/-- **Both passes.** The chosen blocks were within reach; without room in the end they are all that was. -/
theorem evicting_chooseVictims {st : PutStatus} (h : ev.chooseVictims d cacheSize r now = (ev', who, ks, st)) :
    Evicting ev d r now ev' ks ∧ (st = .illegal → ∀ k, ev.CanGo d r now k → k ∈ ks) := by
  obtain ⟨ev₁, ks₁, hpass⟩ : ∃ ev₁ ks₁, evictBelowThreshold d cacheSize r now ev [] = (ev₁, ks₁) := ⟨_, _, rfl⟩
  obtain ⟨he₁, -, hreach⟩ := evicting_evictBelowThreshold (J := fun _ => True) trivial (fun _ _ _ _ _ _ => trivial) hpass
  have hsecond : evictFromMaxClient d cacheSize r ev₁ none ks₁ = (ev', who, ks, st) := by
    unfold chooseVictims at h
    rw [hpass] at h
    exact h
  have he := (evicting_evictFromMaxClient (J := fun _ => True) (fun _ _ _ _ _ _ => trivial) he₁ trivial hsecond).1
  refine ⟨he, ?_⟩
  intro hst k hk
  have hill := ((evictFromMaxClient_rule (P := fun _ _ => True) (fun _ _ _ _ _ _ _ => trivial)
    (fun _ _ _ _ _ _ _ _ _ _ _ _ => trivial) ev₁ none ks₁ trivial hsecond).2.2 hst).2
  rcases hk with hlow | ⟨c, hc⟩
  · rcases hreach with hfits | hall
    · rw [evictFromMaxClient, if_pos hfits] at hsecond
      cases hsecond
      cases hst
    · exact (prefix_evictFromMaxClient hsecond).subset (hall k hlow)
  · refine he.dropped c hc.1 ?_ k hc
    rw [hill]
    exact AList.notMem_empty c

/-- **A put is accepted exactly if its chunk is not too large and the blocks within reach make room.** -/
theorem updateOnPut_legal_iff (ev : FairEvictor md K F) (d : Dict K (CacheEntry F)) (cacheSize : ℕ) (r : List K) (now : F) :
    (ev.updateOnPut d cacheSize r now).2.2.2 = .legal ↔
      cacheSize ≤ md.maxBytes ∧ ev.RoomWithout d cacheSize (ev.withinReach d r now) := by
  by_cases hbig : md.maxBytes < cacheSize
  · rw [updateOnPut_tooLarge hbig]
    exact ⟨fun h => (by cases h), fun h => absurd h.1 (not_le.mpr hbig)⟩
  · have hle := not_lt.mp hbig
    have hnodup : (ev.withinReach d r now).Nodup := d.keys_nodup.filter _
    cases hv : ev.chooseVictims d cacheSize r now with
    | mk ev₁ rest =>
      obtain ⟨who, ks, st⟩ := rest
      obtain ⟨he, hall⟩ := evicting_chooseVictims hv
      obtain ⟨-, hroom, hnoRoom⟩ := chosen_chooseVictims hv
      cases st with
      | legal =>
        rw [updateOnPut_legal hle hv]
        refine ⟨fun _ => ⟨hle, ?_⟩, fun _ => rfl⟩
        have hks : ev.RoomWithout d cacheSize ks := (he.hasRoom_iff cacheSize).mp (hroom rfl)
        exact hks.mono he.chosen.nodup fun k hk => mem_withinReach.mpr ⟨he.chosen.resident k hk, he.canGo k hk⟩
      | illegal =>
        rw [updateOnPut_illegal hle hv]
        refine ⟨fun h => (by cases h), ?_⟩
        rintro ⟨-, hreach⟩
        have hks : ev.RoomWithout d cacheSize ks := hreach.mono hnodup fun k hk => hall rfl k (mem_withinReach.mp hk).2
        exact absurd ((he.hasRoom_iff cacheSize).mpr hks) (hnoRoom rfl).1

/-- **A put is refused only when it must be**, unless the blocks that the passes cannot get at are what is missing. -/
theorem updateOnPut_legal_of_room_iff (ev : FairEvictor md K F) (d : Dict K (CacheEntry F)) (cacheSize : ℕ) (r : List K)
    (now : F) :
    (cacheSize ≤ md.maxBytes → ev.RoomWithout d cacheSize (unprotected d r) →
      (ev.updateOnPut d cacheSize r now).2.2.2 = .legal) ↔
    (cacheSize ≤ md.maxBytes → ev.RoomWithout d cacheSize (unprotected d r) →
      ev.RoomWithout d cacheSize (ev.withinReach d r now)) := by
  refine forall_congr' fun hle => forall_congr' fun _ => ?_
  rw [updateOnPut_legal_iff]
  exact and_iff_right hle

end Answer

end FairEvictor

/-! ## Runs on concrete inputs -/

namespace LMCLocalFairBackend

open Lib FairEvictor

/-- With three blocks the cache is full, and a fourth one is accepted for the first of them. -/
theorem updateOnPut_contract_full : ∃ b, Reaches act (new .threeChunks ℕ ℚ Unit)
      [.put (argsOf 0 2 []), .put (argsOf 1 2 []), .put (argsOf 2 2 [])] b ∧
    ∃ ev' who ks, b.evictor.updateOnPut b.dict 4 [] 0 = (ev', who, ks, .legal) ∧ ks = [0] ∧
      ev'.currentCacheSize = b.evictor.currentCacheSize - ((ks.map (blockSize b.dict)).sum : ℕ) + (4 : ℕ) := by
  have hrun : ∃ b, Reaches act (new .threeChunks ℕ ℚ Unit)
        [.put (argsOf 0 2 []), .put (argsOf 1 2 []), .put (argsOf 2 2 [])] b ∧
      (b.evictor.updateOnPut b.dict 4 [] 0).2.2 = ([0], .legal) := by decide +kernel
  obtain ⟨b, hb, hput⟩ := hrun
  have h : b.evictor.updateOnPut b.dict 4 [] 0 = (_, _, [0], .legal) := Prod.ext rfl (Prod.ext rfl hput)
  exact ⟨b, hb, _, _, _, h, rfl, (updateOnPut_contract h).2.2.1⟩

/-- A block is refused while the first of the three is protected, although the others are not and would make room. -/
theorem protected_block_refuses : ∃ b, Reaches act (new .threeChunks ℕ ℚ Unit)
      [.put (argsAt 0 1), .put (argsAt 1 2), .put (argsAt 2 3)] b ∧
    b.evictor.currentCacheSize = b.residentSize ∧
    (∀ k e, b.dict.lookup k = some e →
      ∃ c ∈ e.clients, c ∈ b.evictor.clientCacheSizes ∧ b.evictor.KnowsAt c e.lambdaVal e.value k) ∧
    ∃ cacheSize ≤ LMCacheMemPoolMetadata.maxBytes .threeChunks,
      b.evictor.RoomWithout b.dict cacheSize (unprotected b.dict [0]) ∧
      (b.evictor.updateOnPut b.dict cacheSize [0] 4).2.2.2 = .illegal := by
  have hrun : ∃ b, Reaches act (new .threeChunks ℕ ℚ Unit)
        [.put (argsAt 0 1), .put (argsAt 1 2), .put (argsAt 2 3)] b ∧
      b.evictor.currentCacheSize = b.residentSize ∧ b.evictor.clientCacheSizes.keys = [1] ∧
      (∀ x ∈ b.dict.entries, x.2.clients = [1]) ∧
      4 + b.evictor.currentCacheSize ≤ (LMCacheMemPoolMetadata.maxBytes .threeChunks : ℕ) +
        (((unprotected b.dict [0]).map (blockSize b.dict)).sum : ℕ) ∧
      (b.evictor.updateOnPut b.dict 4 [0] 4).2.2.2 = .illegal := by decide +kernel
  obtain ⟨b, hb, hledger, htable, hclients, hroom, hput⟩ := hrun
  have haccepts : Along act Accepts (new .threeChunks ℕ ℚ Unit)
      [.put (argsAt 0 1), .put (argsAt 1 2), .put (argsAt 2 3)] := by decide +kernel
  have hrecorded := recorded_of_run hb (haccepts.imp fun _ _ ho => ho.lossless)
  refine ⟨b, hb, hledger, ?_, 4, by decide +kernel, hroom, hput⟩
  intro k e hk
  have hone : e.clients = [1] := hclients _ ((Dict.lookup_eq_some_iff _ _ _).mp hk)
  have hmem : 1 ∈ e.clients := hone ▸ List.mem_singleton_self 1
  refine ⟨1, hmem, ?_, hrecorded.client k e 1 hk List.not_mem_nil hmem⟩
  rw [AList.mem_keys, htable]
  exact List.mem_singleton_self 1

end LMCLocalFairBackend

end FairCache
