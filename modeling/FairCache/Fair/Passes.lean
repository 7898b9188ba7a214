import FairCache.Fair.Evictor

/-!
# What the passes of `updateOnPut` do

* `evictBelowThreshold_rule`, `evictFromMaxClient_rule` : the invariant rules of the two loops, with what their exits say;
* `Chosen` : the keys the passes have chosen, and the ledger without them;
* `chosen_chooseVictims` : how both passes end; `updateOnPut_tooLarge`, `updateOnPut_illegal`, `updateOnPut_legal` :
  what `updateOnPut` makes of it;
* `Refuses` : there is neither room nor a victim. `chooseVictims_of_refuses` and `refuses_of_chooseVictims` say that
  this is when a put is refused without a victim chosen.
-/

namespace FairCache.FairEvictor

open Lib

variable {md : LMCacheMemPoolMetadata} {K F : Type} [LinearOrder K] [LinearOrder F] [Field F]
  {d : Dict K (CacheEntry F)} {cacheSize : ℕ} {r : List K} {now : F}

/-! ## Loop rules -/

/-- The search of step 1 has nothing to choose: no candidate, a protected one or one whose value is not low. -/
def NoLowVictim [FloatMath F] (ev : FairEvictor md K F) (d : Dict K (CacheEntry F)) (r : List K) (now : F)
    (ks : List K) : Prop :=
  ∀ k, (ev.getMinValueKey d ks).1 = some k →
    k ∈ r ∨ ∃ e, d.lookup k = some e ∧ ev.valueThreshold ≤ e.instantValue now

/-- The search of step 2 has nothing to choose for a client: no candidate or a protected one. -/
def NoVictimOf (ev : FairEvictor md K F) (d : Dict K (CacheEntry F)) (r : List K) (ks : List K) (c : ClientId) : Prop :=
  ∀ k, (ev.getMinValueKeyForClient c d ks).1 = some k → k ∈ r

/-- **The rule of step 1**, with what its exits say: there is room, or a search has found nothing to choose. -/
theorem evictBelowThreshold_exit [FloatMath F] {P : FairEvictor md K F → List K → Prop}
    (search : ∀ ev ks, P ev ks → ¬ ev.HasRoom cacheSize → P (ev.getMinValueKey d ks).2 ks)
    (choose : ∀ ev ks k e, P ev ks → ¬ ev.HasRoom cacheSize → (ev.getMinValueKey d ks).1 = some k → k ∉ r →
      d.lookup k = some e → e.instantValue now < ev.valueThreshold →
        P ((ev.getMinValueKey d ks).2.select k e) (ks ++ [k]))
    (ev : FairEvictor md K F) (ks : List K) (h : P ev ks) {ev' : FairEvictor md K F} {ks' : List K}
    (hres : evictBelowThreshold d cacheSize r now ev ks = (ev', ks')) :
    P ev' ks' ∧ (ev'.HasRoom cacheSize ∨
      ∃ ev₁, P ev₁ ks' ∧ ev' = (ev₁.getMinValueKey d ks').2 ∧ ev₁.NoLowVictim d r now ks') := by
  fun_induction evictBelowThreshold d cacheSize r now ev ks with
  | case1 ev ks hroom =>
    cases hres
    exact ⟨h, Or.inl hroom⟩
  | case2 ev ks hroom ev₂ hs =>
    cases hres
    have hkept := search ev _ h hroom
    rw [hs] at hkept
    exact ⟨hkept, Or.inr ⟨ev, h, by rw [hs], by simp [NoLowVictim, hs]⟩⟩
  | case3 ev ks hroom k ev₂ hs hr =>
    cases hres
    have hkept := search ev _ h hroom
    rw [hs] at hkept
    exact ⟨hkept, Or.inr ⟨ev, h, by rw [hs], by simp [NoLowVictim, hs, hr]⟩⟩
  | case4 ev ks hroom k ev₂ hs _ hl =>
    obtain ⟨-, e, he⟩ := getMinValueKey_some hs
    rw [hl] at he
    cases he
  | case5 ev ks hroom k ev₂ hs _ e he hv =>
    cases hres
    have hkept := search ev _ h hroom
    rw [hs] at hkept
    refine ⟨hkept, Or.inr ⟨ev, h, by rw [hs], ?_⟩⟩
    intro j hj
    rw [hs] at hj
    cases hj
    exact Or.inr ⟨e, he, hv⟩
  | case6 ev ks hroom k ev₂ hs hr e he hv ih =>
    refine ih ?_ hres
    have hkept := choose ev ks k e h hroom (by rw [hs]) hr he (not_le.mp hv)
    rwa [hs] at hkept

/-- What a search and a choice keep holds after step 1. -/
theorem evictBelowThreshold_rule [FloatMath F] {P : FairEvictor md K F → List K → Prop}
    (search : ∀ ev ks, P ev ks → ¬ ev.HasRoom cacheSize → P (ev.getMinValueKey d ks).2 ks)
    (choose : ∀ ev ks k e, P ev ks → ¬ ev.HasRoom cacheSize → (ev.getMinValueKey d ks).1 = some k → k ∉ r →
      d.lookup k = some e → P ((ev.getMinValueKey d ks).2.select k e) (ks ++ [k]))
    (ev : FairEvictor md K F) (ks : List K) (h : P ev ks) :
    P (evictBelowThreshold d cacheSize r now ev ks).1 (evictBelowThreshold d cacheSize r now ev ks).2 :=
  (evictBelowThreshold_exit search (fun ev ks k e h hroom hs hr he _ => choose ev ks k e h hroom hs hr he) ev ks h rfl).1

/-- **The rule of step 2**, with what its exits say. -/
theorem evictFromMaxClient_rule {P : FairEvictor md K F → List K → Prop}
    (drop : ∀ ev ks m, P ev ks → ¬ ev.HasRoom cacheSize → ev.getMaxClientId = some m → ev.NoVictimOf d r ks m →
      P ((ev.getMinValueKeyForClient m d ks).2.dropClient m) ks)
    (choose : ∀ ev ks m k e, P ev ks → ¬ ev.HasRoom cacheSize → ev.getMaxClientId = some m →
      (ev.getMinValueKeyForClient m d ks).1 = some k → k ∉ r → d.lookup k = some e → m ∈ e.accessMap →
      P ((ev.getMinValueKeyForClient m d ks).2.select k e) (ks ++ [k]))
    (ev : FairEvictor md K F) (who : Option ClientId) (ks : List K) (h : P ev ks) {ev' : FairEvictor md K F}
    {who' : Option ClientId} {ks' : List K} {st : PutStatus}
    (hres : evictFromMaxClient d cacheSize r ev who ks = (ev', who', ks', st)) :
    P ev' ks' ∧ (st = .legal → ev'.HasRoom cacheSize) ∧
      (st = .illegal → ¬ ev'.HasRoom cacheSize ∧ ev'.clientCacheSizes = ∅) := by
  fun_induction evictFromMaxClient d cacheSize r ev who ks with
  | case1 ev who ks hroom => cases hres; exact ⟨h, fun _ => hroom, by simp⟩
  | case2 ev who ks hroom hm =>
    cases hres
    refine ⟨h, by simp, fun _ => ⟨hroom, ?_⟩⟩
    exact (Dict.eq_empty_iff _).mpr (List.argmax_eq_none.mp (Option.map_eq_none_iff.mp hm))
  | case3 ev who ks hroom m hm ev' hs ih =>
    refine ih ?_ hres
    have := drop ev ks m h hroom hm (by simp [NoVictimOf, hs])
    rwa [hs] at this
  | case4 ev who ks hroom m hm k ev' hs hr ih =>
    refine ih ?_ hres
    have := drop ev ks m h hroom hm (by simpa [NoVictimOf, hs] using hr)
    rwa [hs] at this
  | case5 ev who ks hroom m hm k ev' hs hr hl =>
    obtain ⟨-, e, he, -⟩ := getMinValueKeyForClient_some hs
    rw [hl] at he; cases he
  | case6 ev who ks hroom m hm k ev' hs hr e he ih =>
    refine ih ?_ hres
    obtain ⟨-, e', he', hmem⟩ := getMinValueKeyForClient_some hs
    obtain rfl : e' = e := Option.some.inj (he'.symm.trans he)
    have := choose ev ks m k e' h hroom hm (by rw [hs]) hr he hmem
    rwa [hs] at this

/-! ## The chosen keys -/

/-- The size of the block under a key. -/
def blockSize (d : Dict K (CacheEntry F)) (k : K) : ℕ := ((d.lookup k).map (·.kvObj.size)).getD 0

/-- From `ev₀` the passes have chosen `ks` and are at `ev`. -/
structure Chosen (d : Dict K (CacheEntry F)) (r : List K) (ev₀ ev : FairEvictor md K F) (ks : List K) : Prop where
  nodup : ks.Nodup
  resident : ∀ k ∈ ks, k ∈ d
  unprotected : ∀ k ∈ ks, k ∉ r
  ledger : ev.currentCacheSize = ev₀.currentCacheSize - ((ks.map (blockSize d)).sum : ℕ)

namespace Chosen

omit [Field F] in
theorem refl (d : Dict K (CacheEntry F)) (r : List K) (ev : FairEvictor md K F) : Chosen d r ev ev [] :=
  ⟨List.nodup_nil, by simp, by simp, by simp⟩

variable {ev₀ ev ev' : FairEvictor md K F} {ks : List K}

omit [Field F] in
/-- A search and a client dropped leave the ledger alone. -/
theorem congr (h : Chosen d r ev₀ ev ks) (hc : ev'.currentCacheSize = ev.currentCacheSize) :
    Chosen d r ev₀ ev' ks :=
  ⟨h.nodup, h.resident, h.unprotected, hc.trans h.ledger⟩

theorem select (h : Chosen d r ev₀ ev ks) {k : K} {e : CacheEntry F} (hk : k ∉ ks) (hr : k ∉ r)
    (he : d.lookup k = some e) : Chosen d r ev₀ (ev.select k e) (ks ++ [k]) := by
  refine ⟨?_, ?_, ?_, ?_⟩
  · refine List.nodup_append.mpr ⟨h.nodup, List.nodup_singleton k, fun a ha b hb => ?_⟩
    rw [List.mem_singleton.mp hb]
    exact fun hak => hk (hak ▸ ha)
  · simpa [or_imp, forall_and] using ⟨h.resident, Dict.mem_of_lookup he⟩
  · simpa [or_imp, forall_and] using ⟨h.unprotected, hr⟩
  · have hsize : blockSize d k = e.kvObj.size := by simp [blockSize, he]
    simp only [FairEvictor.select, h.ledger, List.map_append, List.map_singleton, List.sum_append, List.sum_singleton, hsize]
    push_cast
    ring

end Chosen

theorem chosen_evictBelowThreshold [FloatMath F] {ev₀ ev : FairEvictor md K F} {ks : List K}
    (h : Chosen d r ev₀ ev ks) :
    Chosen d r ev₀ (evictBelowThreshold d cacheSize r now ev ks).1 (evictBelowThreshold d cacheSize r now ev ks).2 := by
  refine evictBelowThreshold_rule (fun ev ks h _ => h.congr rfl) (fun ev ks k e h _ hs hr he => ?_) ev ks h
  have hx := (getMinValueKey_some (Prod.ext hs rfl)).1
  exact (h.congr (currentCacheSize_getMinValueKey ..)).select hx hr he

theorem chosen_evictFromMaxClient {ev₀ ev ev' : FairEvictor md K F} {who who' : Option ClientId} {ks ks' : List K}
    {st : PutStatus} (h : Chosen d r ev₀ ev ks)
    (hres : evictFromMaxClient d cacheSize r ev who ks = (ev', who', ks', st)) :
    Chosen d r ev₀ ev' ks' ∧ (st = .legal → ev'.HasRoom cacheSize) ∧
      (st = .illegal → ¬ ev'.HasRoom cacheSize ∧ ev'.clientCacheSizes = ∅) := by
  refine evictFromMaxClient_rule (fun ev ks m h _ _ _ => ?_) (fun ev ks m k e h _ _ hs hr he _ => ?_) ev who ks h hres
  · exact h.congr (by simp [dropClient])
  · have hx := (getMinValueKeyForClient_some (Prod.ext hs rfl)).1
    exact (h.congr (currentCacheSize_getMinValueKeyForClient ..)).select hx hr he

/-- **Both passes**: they end with room, or with every client dropped and room still lacking. -/
theorem chosen_chooseVictims [FloatMath F] {ev ev' : FairEvictor md K F} {who : Option ClientId} {ks : List K}
    {st : PutStatus} (h : ev.chooseVictims d cacheSize r now = (ev', who, ks, st)) :
    Chosen d r ev ev' ks ∧ (st = .legal → ev'.HasRoom cacheSize) ∧
      (st = .illegal → ¬ ev'.HasRoom cacheSize ∧ ev'.clientCacheSizes = ∅) :=
  chosen_evictFromMaxClient (chosen_evictBelowThreshold (Chosen.refl d r ev)) h

section Outcomes
variable [FloatMath F] {ev ev' : FairEvictor md K F} {who : Option ClientId} {ks : List K}

theorem updateOnPut_tooLarge (h : md.maxBytes < cacheSize) :
    ev.updateOnPut d cacheSize r now = (ev, none, [], .illegal) := if_pos h

theorem updateOnPut_illegal (h : cacheSize ≤ md.maxBytes)
    (hv : ev.chooseVictims d cacheSize r now = (ev', who, ks, .illegal)) :
    ev.updateOnPut d cacheSize r now = (ev', none, [], .illegal) := by
  rw [updateOnPut, if_neg (show ¬ ev.maxCacheSize < cacheSize from not_lt.mpr h), hv]

theorem updateOnPut_legal (h : cacheSize ≤ md.maxBytes)
    (hv : ev.chooseVictims d cacheSize r now = (ev', who, ks, .legal)) :
    ev.updateOnPut d cacheSize r now =
      ({ ev' with currentCacheSize := ev'.currentCacheSize + cacheSize }, who, ks, .legal) := by
  rw [updateOnPut, if_neg (show ¬ ev.maxCacheSize < cacheSize from not_lt.mpr h), hv]

end Outcomes

/-! ## Puts refused without a victim -/

section Refuses
variable [FloatMath F] {ev ev' : FairEvictor md K F}

/-- Room is lacking and neither pass has a victim to choose. -/
structure Refuses (ev : FairEvictor md K F) (d : Dict K (CacheEntry F)) (cacheSize : ℕ) (r : List K) (now : F) :
    Prop where
  noRoom : ¬ ev.HasRoom cacheSize
  noLowVictim : ev.NoLowVictim d r now []
  noVictimOf : ∀ m ∈ ev.clientCacheSizes, ev.NoVictimOf d r [] m

omit [Field F] [FloatMath F] in
theorem noVictimOf_congr {c : ClientId} {ks : List K} (h : ev'.clientHeaps.lookup c = ev.clientHeaps.lookup c) :
    ev'.NoVictimOf d r ks c ↔ ev.NoVictimOf d r ks c := by
  rw [NoVictimOf, NoVictimOf, getMinValueKeyForClient_congr h]

omit [Field F] [FloatMath F] in
theorem lookup_clientHeaps_of_ne (ev : FairEvictor md K F) {c m : ClientId} (h : c ≠ m)
    (d : Dict K (CacheEntry F)) (ks : List K) :
    (ev.getMinValueKeyForClient m d ks).2.clientHeaps.lookup c = ev.clientHeaps.lookup c := by
  unfold getMinValueKeyForClient
  cases ev.clientHeaps.lookup m with
  | none => rfl
  | some hs => exact Dict.lookup_set_ne _ _ h

omit [FloatMath F] in
/-- A pass without a victim drops every client. -/
theorem evictFromMaxClient_of_noVictim (hroom : ¬ ev.HasRoom cacheSize)
    (hno : ∀ m ∈ ev.clientCacheSizes, ev.NoVictimOf d r [] m) (who : Option ClientId) :
    ∃ ev' who', evictFromMaxClient d cacheSize r ev who [] = (ev', who', [], .illegal) ∧
      ev'.currentCacheSize = ev.currentCacheSize := by
  let P (ev' : FairEvictor md K F) (ks : List K) : Prop :=
    ks = [] ∧ ev'.currentCacheSize = ev.currentCacheSize ∧
      ∀ m ∈ ev'.clientCacheSizes, m ∈ ev.clientCacheSizes ∧ ev'.clientHeaps.lookup m = ev.clientHeaps.lookup m
  have drop : ∀ ev₁ ks m, P ev₁ ks → ¬ ev₁.HasRoom cacheSize → ev₁.getMaxClientId = some m →
      ev₁.NoVictimOf d r ks m → P ((ev₁.getMinValueKeyForClient m d ks).2.dropClient m) ks := by
    rintro ev₁ ks m ⟨hks, hcur, hm⟩ - - -
    refine ⟨hks, by simpa [dropClient] using hcur, fun c hc => ?_⟩
    rw [mem_dropClient, clientCacheSizes_getMinValueKeyForClient] at hc
    exact ⟨(hm c hc.2).1, (lookup_clientHeaps_of_ne ev₁ hc.1 d ks).trans (hm c hc.2).2⟩
  have choose : ∀ ev₁ ks m k e, P ev₁ ks → ¬ ev₁.HasRoom cacheSize → ev₁.getMaxClientId = some m →
      (ev₁.getMinValueKeyForClient m d ks).1 = some k → k ∉ r → d.lookup k = some e → m ∈ e.accessMap →
      P ((ev₁.getMinValueKeyForClient m d ks).2.select k e) (ks ++ [k]) := by
    rintro ev₁ ks m k e ⟨rfl, -, hm⟩ - hmax hs hr - -
    obtain ⟨hmem, hheaps⟩ := hm m (getMaxClientId_mem hmax)
    exact absurd ((noVictimOf_congr hheaps).mpr (hno m hmem) k hs) hr
  obtain ⟨ev', who', ks', st, hres⟩ : ∃ ev' who' ks' st,
      evictFromMaxClient d cacheSize r ev who [] = (ev', who', ks', st) := ⟨_, _, _, _, rfl⟩
  obtain ⟨⟨rfl, hcur, -⟩, hlegal, -⟩ := evictFromMaxClient_rule drop choose ev who [] ⟨rfl, rfl, fun m hm => ⟨hm, rfl⟩⟩ hres
  refine ⟨ev', who', ?_, hcur⟩
  cases st with
  | illegal => exact hres
  | legal => exact absurd ((hasRoom_congr hcur _).mp (hlegal rfl)) hroom

omit [FloatMath F] in
/-- A pass that drops every client without a choice had no victim. -/
theorem noVictim_of_evictFromMaxClient {who who' : Option ClientId} {ks : List K}
    (h : evictFromMaxClient d cacheSize r ev who ks = (ev', who', ks, .illegal)) :
    ∀ m ∈ ev.clientCacheSizes, ev.NoVictimOf d r ks m := by
  let P (ev' : FairEvictor md K F) (ks' : List K) : Prop :=
    ks <+: ks' ∧ (ks' = ks → ∀ m ∈ ev.clientCacheSizes, ev.NoVictimOf d r ks m ∨
      (m ∈ ev'.clientCacheSizes ∧ ev'.clientHeaps.lookup m = ev.clientHeaps.lookup m))
  have drop : ∀ ev₁ ks₁ m, P ev₁ ks₁ → ¬ ev₁.HasRoom cacheSize → ev₁.getMaxClientId = some m →
      ev₁.NoVictimOf d r ks₁ m → P ((ev₁.getMinValueKeyForClient m d ks₁).2.dropClient m) ks₁ := by
    rintro ev₁ ks₁ m ⟨hpre, hm⟩ - - hno
    refine ⟨hpre, fun hks c hc => ?_⟩
    rcases hm hks c hc with hv | ⟨hmem, hheaps⟩
    · exact Or.inl hv
    · by_cases hcm : c = m
      · subst hcm
        exact Or.inl ((noVictimOf_congr hheaps).mp (hks ▸ hno))
      · refine Or.inr ⟨?_, (lookup_clientHeaps_of_ne ev₁ hcm d ks₁).trans hheaps⟩
        rw [mem_dropClient, clientCacheSizes_getMinValueKeyForClient]
        exact ⟨hcm, hmem⟩
  have choose : ∀ ev₁ ks₁ m k e, P ev₁ ks₁ → ¬ ev₁.HasRoom cacheSize → ev₁.getMaxClientId = some m →
      (ev₁.getMinValueKeyForClient m d ks₁).1 = some k → k ∉ r → d.lookup k = some e → m ∈ e.accessMap →
      P ((ev₁.getMinValueKeyForClient m d ks₁).2.select k e) (ks₁ ++ [k]) := by
    rintro ev₁ ks₁ m k e ⟨hpre, -⟩ - - - - - -
    refine ⟨hpre.trans (List.prefix_append _ _), fun hks => ?_⟩
    have hlen := hpre.length_le
    rw [← hks, List.length_append, List.length_singleton] at hlen
    omega
  obtain ⟨⟨-, hP⟩, -, hill⟩ := evictFromMaxClient_rule drop choose ev who ks
    ⟨List.prefix_refl ks, fun _ m hm => Or.inr ⟨hm, rfl⟩⟩ h
  intro m hm
  refine (hP rfl m hm).resolve_right fun ⟨hmem, _⟩ => ?_
  rw [(hill rfl).2] at hmem
  exact AList.notMem_empty _ hmem

omit [FloatMath F] in
theorem prefix_evictFromMaxClient {who who' : Option ClientId} {ks ks' : List K} {st : PutStatus}
    (h : evictFromMaxClient d cacheSize r ev who ks = (ev', who', ks', st)) : ks <+: ks' :=
  (evictFromMaxClient_rule (P := fun _ ks' => ks <+: ks') (fun _ _ _ h _ _ _ => h)
    (fun _ _ _ _ _ h _ _ _ _ _ _ => h.trans (List.prefix_append _ _)) ev who ks (List.prefix_refl ks) h).1

theorem prefix_evictBelowThreshold (ev : FairEvictor md K F) (ks : List K) :
    ks <+: (evictBelowThreshold d cacheSize r now ev ks).2 :=
  evictBelowThreshold_rule (P := fun _ ks' => ks <+: ks') (fun _ _ h _ => h)
    (fun _ _ _ _ h _ _ _ _ => h.trans (List.prefix_append _ _)) ev ks (List.prefix_refl ks)

/-- Without room and without a low victim step 1 is one search. -/
theorem evictBelowThreshold_of_noLowVictim {ks : List K} (hroom : ¬ ev.HasRoom cacheSize)
    (h : ev.NoLowVictim d r now ks) :
    evictBelowThreshold d cacheSize r now ev ks = ((ev.getMinValueKey d ks).2, ks) := by
  rw [evictBelowThreshold, if_neg hroom]
  split
  · next ev' hs => rw [hs]
  · next k ev' hs =>
    have hk := h k (by rw [hs])
    rw [hs]
    split_ifs with hr
    · rfl
    · obtain ⟨e, he, hv⟩ := hk.resolve_left hr
      simp only [he]
      exact if_pos hv

theorem noLowVictim_of_evictBelowThreshold (hroom : ¬ ev.HasRoom cacheSize)
    (h : (evictBelowThreshold d cacheSize r now ev []).2 = []) : ev.NoLowVictim d r now [] := by
  intro k hk
  by_contra hno
  obtain ⟨hr, hno⟩ := not_or.mp hno
  cases hs : ev.getMinValueKey d [] with
  | mk o ev' =>
    rw [hs] at hk
    obtain rfl : o = some k := hk
    obtain ⟨-, e, he⟩ := getMinValueKey_some hs
    have hv : ¬ ev.valueThreshold ≤ e.instantValue now := fun hv => hno ⟨e, he, hv⟩
    have hpre : [] ++ [k] <+: (evictBelowThreshold d cacheSize r now (ev'.select k e) ([] ++ [k])).2 :=
      prefix_evictBelowThreshold _ _
    rw [evictBelowThreshold, if_neg hroom] at h
    split at h
    · next ev'' hs' => rw [hs] at hs'; cases hs'
    · next k' ev'' hs' =>
      rw [hs] at hs'
      cases hs'
      rw [if_neg hr] at h
      simp only [he, if_neg hv] at h
      rw [h] at hpre
      exact absurd (List.prefix_nil.mp hpre) (by simp)

theorem chooseVictims_of_room (h : ev.HasRoom cacheSize) :
    ev.chooseVictims d cacheSize r now = (ev, none, [], .legal) := by
  unfold chooseVictims
  rw [evictBelowThreshold, if_pos h, evictFromMaxClient, if_pos h]

theorem chooseVictims_of_noLowVictim (hroom : ¬ ev.HasRoom cacheSize) (hlow : ev.NoLowVictim d r now []) :
    ev.chooseVictims d cacheSize r now = evictFromMaxClient d cacheSize r (ev.getMinValueKey d []).2 none [] := by
  unfold chooseVictims
  rw [evictBelowThreshold_of_noLowVictim hroom hlow]

omit [Field F] [FloatMath F] in
theorem hasRoom_getMinValueKey : (ev.getMinValueKey d []).2.HasRoom cacheSize ↔ ev.HasRoom cacheSize := Iff.rfl

omit [Field F] [FloatMath F] in
/-- Step 1's search changes no answer of step 2. -/
theorem noVictimOf_getMinValueKey {ks : List K} {m : ClientId} :
    (ev.getMinValueKey d []).2.NoVictimOf d r ks m ↔ ev.NoVictimOf d r ks m := noVictimOf_congr rfl

/-- Without room and without a victim a put is refused, and the ledger is the one before. -/
theorem chooseVictims_of_refuses (h : ev.Refuses d cacheSize r now) :
    ∃ ev' who, ev.chooseVictims d cacheSize r now = (ev', who, [], .illegal) ∧
      ev'.currentCacheSize = ev.currentCacheSize := by
  rw [chooseVictims_of_noLowVictim h.noRoom h.noLowVictim]
  have hno : ∀ m ∈ ev.clientCacheSizes, (ev.getMinValueKey d []).2.NoVictimOf d r [] m :=
    fun m hm => noVictimOf_getMinValueKey.mpr (h.noVictimOf m hm)
  exact evictFromMaxClient_of_noVictim (hasRoom_getMinValueKey.not.mpr h.noRoom) hno none

/-- A put that is refused without a choice had neither room nor a victim. -/
theorem refuses_of_chooseVictims {who : Option ClientId}
    (h : ev.chooseVictims d cacheSize r now = (ev', who, [], .illegal)) : ev.Refuses d cacheSize r now := by
  obtain ⟨hchosen, -, hill⟩ := chosen_chooseVictims h
  have hroom : ¬ ev.HasRoom cacheSize := by
    have := (hill rfl).1
    rwa [hasRoom_congr (by simpa using hchosen.ledger)] at this
  have hlow := noLowVictim_of_evictBelowThreshold hroom (List.prefix_nil.mp (prefix_evictFromMaxClient h))
  refine ⟨hroom, hlow, fun m hm => ?_⟩
  rw [chooseVictims_of_noLowVictim hroom hlow] at h
  exact noVictimOf_getMinValueKey.mp (noVictim_of_evictFromMaxClient h m hm)

/-- Without room, a low victim or a client, the passes do one search. -/
theorem chooseVictims_of_no_clients (hroom : ¬ ev.HasRoom cacheSize) (hlow : ev.NoLowVictim d r now [])
    (hno : ev.clientCacheSizes = ∅) :
    ev.chooseVictims d cacheSize r now = ((ev.getMinValueKey d []).2, none, [], .illegal) := by
  have hmax : (ev.getMinValueKey d []).2.getMaxClientId = none := by
    rw [getMaxClientId, clientCacheSizes_getMinValueKey, hno]
    rfl
  rw [chooseVictims_of_noLowVictim hroom hlow, evictFromMaxClient,
    if_neg (hasRoom_getMinValueKey.not.mpr hroom)]
  split
  · rfl
  · next m hm => rw [hmax] at hm; cases hm

end Refuses

end FairCache.FairEvictor
