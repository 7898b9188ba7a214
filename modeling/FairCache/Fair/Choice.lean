import FairCache.Fair.Usage

/-!
# Fair victim choice

The second pass of `update_on_put` takes a block from the client of largest recorded usage.

* `UsageKnown` : between operations the usage table is the true usage and the clients' heaps know every block;
* `Choosing` : the invariant of the passes, which counts the chosen victims as gone;
* `fairChoice_victims` : from a state where the usage is known, the second pass chooses fairly;
* `KeepsUsage` : the steps that leave the usage known, and `fairChoice_of_run` : the choices after a run of them.
-/

namespace FairCache

open Lib

variable {md : LMCacheMemPoolMetadata} {K F R : Type} [LinearOrder K] [Field F] [LinearOrder F]

namespace FairEvictor

/-! ## The passes -/

/-- The usage table is the true usage of the blocks in `d`, and the heaps know them. -/
structure UsageKnown (ev : FairEvictor md K F) (d : Dict K (CacheEntry F)) : Prop where
  usage : ∀ c, (ev.clientCacheSizes.lookup c).getD 0 = trueUsage d [] c
  present : ∀ k e c, d.lookup k = some e → c ∈ e.clients → c ∈ ev.clientCacheSizes
  knows : ∀ k e c, d.lookup k = some e → c ∈ e.clients → ev.Knows c e.lambdaVal k
  shared : ∀ k e, d.lookup k = some e → e.clients ≠ []

/-- A client's search ends at a protected block only when the client has no block left that could be taken. -/
def ProtectedLast (ev : FairEvictor md K F) (d : Dict K (CacheEntry F)) (retrievedKeys : List K) : Prop :=
  ∀ c x k, (ev.getMinValueKeyForClient c d x).1 = some k → k ∈ retrievedKeys → ¬ Owns d retrievedKeys x c

/-- **The invariant of the passes** from `ev₀`, with the blocks `ks` chosen: the table is the true usage without
them, every client that could lose a block is in it, and the searches answer as at the start. -/
structure Choosing (ev₀ : FairEvictor md K F) (d : Dict K (CacheEntry F)) (r : List K) (ev : FairEvictor md K F)
    (ks : List K) : Prop where
  usage : ∀ c v, ev.clientCacheSizes.lookup c = some v → v = trueUsage d ks c
  present : ∀ c, Owns d r ks c → c ∈ ev.clientCacheSizes
  knows : ∀ k e c, d.lookup k = some e → c ∈ e.clients → k ∉ ks → ev.Knows c e.lambdaVal k
  answers : ∀ c x, (∀ k ∈ ks, k ∈ x) →
    (ev.getMinValueKeyForClient c d x).1 = (ev₀.getMinValueKeyForClient c d x).1

namespace Choosing

variable {ev₀ ev : FairEvictor md K F} {d : Dict K (CacheEntry F)} {r ks : List K} {cacheSize : ℕ}

theorem start (h : ev₀.UsageKnown d) (r : List K) : Choosing ev₀ d r ev₀ [] := by
  refine ⟨fun c v hv => ?_, ?_, fun k e c hk hc _ => h.knows k e c hk hc, fun _ _ _ => rfl⟩
  · rw [← h.usage c, hv, Option.getD_some]
  · rintro c ⟨k, e, hk, hc, -, -⟩
    exact h.present k e c hk hc

/-- Step 1's search looks at the global heaps only. -/
theorem searchGlobal (h : Choosing ev₀ d r ev ks) (x : List K) : Choosing ev₀ d r (ev.getMinValueKey d x).2 ks :=
  ⟨h.usage, h.present, fun k e c hk hc hks => (h.knows k e c hk hc hks).congr rfl,
    fun c y hy => (getMinValueKeyForClient_congr (by rfl) d y).trans (h.answers c y hy)⟩

/-- A client's search keeps every record of a block that is left. -/
theorem searchClient (h : Choosing ev₀ d r ev ks) (m : ClientId) :
    Choosing ev₀ d r (ev.getMinValueKeyForClient m d ks).2 ks := by
  refine ⟨?_, ?_, fun k e c hk hc hks => (h.knows k e c hk hc hks).search hk hc hks m, fun c x hx => ?_⟩
  · rw [clientCacheSizes_getMinValueKeyForClient]; exact h.usage
  · rw [clientCacheSizes_getMinValueKeyForClient]; exact h.present
  · rw [getMinValueKeyForClient_getMinValueKeyForClient ev m c d hx]
    exact h.answers c x hx

variable [IsStrictOrderedRing F]

/-- Choosing a block takes its shares off. -/
theorem select (h : Choosing ev₀ d r ev ks) {k : K} {e : CacheEntry F} (hk : d.lookup k = some e) (hks : k ∉ ks) :
    Choosing ev₀ d r (ev.select k e) (ks ++ [k]) := by
  refine ⟨fun c v hv => ?_, ?_, ?_, ?_⟩
  · rw [trueUsage_gone hk]
    exact lookup_dropShares_exact hk hks (h.usage c) hv
  · rintro c ⟨j, f, hj, hc, hr, hg⟩
    refine (mem_dropShares _ _ _).mpr (h.present c ⟨j, f, hj, hc, hr, fun hmem => hg ?_⟩)
    exact List.mem_append_left _ hmem
  · intro j f c hj hc hg
    exact (h.knows j f c hj hc fun hmem => hg (List.mem_append_left _ hmem)).congr rfl
  · intro c x hx
    refine (getMinValueKeyForClient_congr (by rfl) d x).trans (h.answers c x fun j hj => hx j ?_)
    exact List.mem_append_left _ hj

omit [IsStrictOrderedRing F] in
/-- A client is dropped only when it has no block that could be taken. -/
theorem drop (h : Choosing ev₀ d r ev ks) (hlast : ev₀.ProtectedLast d r) {m : ClientId}
    (hno : ev.NoVictimOf d r ks m) : Choosing ev₀ d r ((ev.getMinValueKeyForClient m d ks).2.dropClient m) ks := by
  have hs := h.searchClient m
  refine ⟨fun c v hv => ?_, fun c hc => ?_, fun k e c hk hc hks => (hs.knows k e c hk hc hks).congr rfl,
    fun c x hx => (getMinValueKeyForClient_congr (by rfl) d x).trans (hs.answers c x hx)⟩
  · exact hs.usage c v (Dict.lookup_erase_eq_some.mp hv).2
  · refine (mem_dropClient _ _ _).mpr ⟨?_, hs.present c hc⟩
    rintro rfl
    cases hm : (ev.getMinValueKeyForClient c d ks).1 with
    | none =>
      obtain ⟨k, e, hk, hce, -, hks⟩ := hc
      exact not_knows_of_search_none hm hk hce hks (h.knows k e c hk hce hks)
    | some k =>
      have hans := h.answers c ks fun _ hk => hk
      exact hlast c ks k (hans ▸ hm) (hno k hm) hc

omit [IsStrictOrderedRing F] in
/-- The least block of the client of largest recorded usage is a fair choice. -/
theorem fairChoice (h : Choosing ev₀ d r ev ks) {m : ClientId} (hmax : ev.getMaxClientId = some m) {k : K}
    {e : CacheEntry F} (hk : d.lookup k = some e) (hm : m ∈ e.clients) (hr : k ∉ r) (hks : k ∉ ks) :
    FairChoice d r ks k := by
  refine ⟨e, m, hk, hm, ⟨k, e, hk, hm, hr, hks⟩, fun c hc => ?_⟩
  obtain ⟨v, hv⟩ := (Dict.mem_iff_lookup _ _).mp (h.present c hc)
  obtain ⟨w, hw, hle⟩ := getMaxClientId_le hmax hv
  rw [← h.usage c v hv, ← h.usage m w hw]
  exact hle

end Choosing

section Passes
variable [IsStrictOrderedRing F] [FloatMath F] {ev₀ : FairEvictor md K F} {d : Dict K (CacheEntry F)} {r : List K}
  {cacheSize : ℕ} {now : F}

theorem choosing_evictBelowThreshold (h : ev₀.UsageKnown d) :
    Choosing ev₀ d r (evictBelowThreshold d cacheSize r now ev₀ []).1
      (evictBelowThreshold d cacheSize r now ev₀ []).2 := by
  refine evictBelowThreshold_rule (fun ev ks h _ => h.searchGlobal ks) (fun ev ks k e h _ hs _ he => ?_) ev₀ []
    (Choosing.start h r)
  exact (h.searchGlobal ks).select he (getMinValueKey_some (Prod.ext hs rfl)).1

/-- **The second pass chooses fairly** when the usage is known and protected blocks come last. -/
theorem fairChoice_chooseVictims (h : ev₀.UsageKnown d) (hlast : ev₀.ProtectedLast d r) {ev : FairEvictor md K F}
    {who : Option ClientId} {ks : List K} {st : PutStatus}
    (hres : ev₀.chooseVictims d cacheSize r now = (ev, who, ks, st)) :
    ∀ p k q, ks = p ++ k :: q → (evictBelowThreshold d cacheSize r now ev₀ []).2 <+: p → FairChoice d r p k := by
  let ks₁ := (evictBelowThreshold d cacheSize r now ev₀ []).2
  let P (ev : FairEvictor md K F) (ks : List K) : Prop :=
    Choosing ev₀ d r ev ks ∧ ∀ p k q, ks = p ++ k :: q → ks₁ <+: p → FairChoice d r p k
  have hstart : P (evictBelowThreshold d cacheSize r now ev₀ []).1 ks₁ := by
    refine ⟨choosing_evictBelowThreshold h, fun p k q heq hpre => ?_⟩
    -- nothing has been chosen by the second pass yet
    have hlen := congrArg List.length heq
    have := hpre.length_le
    simp only [List.length_append, List.length_cons] at hlen
    omega
  refine (evictFromMaxClient_rule (P := P) ?_ ?_ _ none ks₁ hstart hres).1.2
  · rintro ev ks m ⟨hc, hp⟩ - - hno
    exact ⟨hc.drop hlast hno, hp⟩
  · rintro ev ks m k e ⟨hc, hp⟩ - hmax hs hr he hm
    have hks : k ∉ ks := (getMinValueKeyForClient_some (Prod.ext hs rfl)).1
    refine ⟨(hc.searchClient m).select he hks, fun p j q heq hpre => ?_⟩
    rcases List.eq_nil_or_concat q with rfl | ⟨q, l, rfl⟩
    · obtain ⟨rfl, hjk⟩ := List.append_inj' heq rfl
      cases hjk
      exact hc.fairChoice hmax he (mem_clients.mpr hm) hr hks
    · refine hp p j q ?_ hpre
      rw [List.concat_eq_append, ← List.cons_append, ← List.append_assoc] at heq
      exact (List.append_inj' heq rfl).1

end Passes

/-! ## Steps that leave the usage known -/

namespace UsageKnown

variable {ev ev' : FairEvictor md K F} {d : Dict K (CacheEntry F)}

theorem congr (h : ev.UsageKnown d) (hs : ev'.clientCacheSizes = ev.clientCacheSizes)
    (hh : ev'.clientHeaps = ev.clientHeaps) : ev'.UsageKnown d :=
  ⟨by rw [hs]; exact h.usage, by rw [hs]; exact h.present, fun k e c hk hc => (h.knows k e c hk hc).congr hh,
    h.shared⟩

theorem lookup (h : ev.UsageKnown d) {c : ClientId} {v : F} (hv : ev.clientCacheSizes.lookup c = some v) :
    v = trueUsage d [] c := by rw [← h.usage c, hv, Option.getD_some]

/-- A block erased takes its shares with it. -/
theorem erase [IsStrictOrderedRing F] (h : ev.UsageKnown d) {k : K} {e : CacheEntry F} (hk : d.lookup k = some e)
    (hs : ev'.clientCacheSizes = dropShares ev.clientCacheSizes e) (hh : ev'.clientHeaps = ev.clientHeaps) :
    ev'.UsageKnown (d.erase k) := by
  refine ⟨fun c => ?_, fun j f c hj hc => ?_, fun j f c hj hc => ?_,
    fun j f hj => h.shared j f (Dict.lookup_erase_eq_some.mp hj).2⟩
  · rw [hs]
    cases hv : (dropShares ev.clientCacheSizes e).lookup c with
    | some v => exact lookup_dropShares_exact hk List.not_mem_nil (fun w hw => h.lookup hw) hv
    | none =>
      -- a client that is not in the table shares nothing
      have hnot : c ∉ ev.clientCacheSizes := fun hc =>
        AList.lookup_eq_none.mp hv ((mem_dropShares ..).mpr hc)
      have hc : c ∉ e.clients := fun hc => hnot (h.present k e c hk hc)
      have husage := h.usage c
      rw [AList.lookup_eq_none.mpr hnot, trueUsage_erase hk List.not_mem_nil, if_neg hc, zero_add] at husage
      exact husage
  · rw [hs]
    exact (mem_dropShares ..).mpr (h.present j f c (Dict.lookup_erase_eq_some.mp hj).2 hc)
  · exact (h.knows j f c (Dict.lookup_erase_eq_some.mp hj).2 hc).congr hh

/-- A new block counts whole for the client that put it. -/
theorem registerNewCache [FloatMath F] (h : ev.UsageKnown d) {k : K} (hk : k ∉ d) (e : CacheEntry F)
    (he : e.accessMap = ∅) (c₀ : ClientId) (now : F) :
    (ev.registerNewCache k e c₀ now).1.UsageKnown (d.set k (ev.registerNewCache k e c₀ now).2) := by
  have hclients : (ev.registerNewCache k e c₀ now).2.clients = [c₀] := by
    simp [FairEvictor.registerNewCache, CacheEntry.clients, CacheEntry.updateAccessTime, CacheEntry.updateValue, he,
      Dict.keys_set]
  have hshare : (ev.registerNewCache k e c₀ now).2.share = e.kvObj.size := by
    rw [CacheEntry.share, hclients, List.length_singleton, Nat.cast_one, div_one]
    rfl
  have hsizes : (ev.registerNewCache k e c₀ now).1.clientCacheSizes =
      ev.clientCacheSizes.upsert c₀ fun v => v.getD 0 + e.kvObj.size := by
    rw [FairEvictor.registerNewCache, clientCacheSizes_recordValue]
    rfl
  refine ⟨fun c => ?_, fun j f c hj hc => ?_, fun j f c hj hc => ?_,
    Dict.forall_lookup_set (by simp [hclients]) fun j f _ hj => h.shared j f hj⟩
  · rw [hsizes, Dict.lookup_upsert, trueUsage_set, hclients, hshare, Dict.erase_of_notMem hk, ← h.usage c]
    by_cases hc : c = c₀
    · simp [hc, add_comm]
    · simp [hc]
  · rw [hsizes, Dict.mem_iff_lookup]
    simp only [Dict.lookup_upsert]
    by_cases hcc : c = c₀
    · rw [if_pos hcc]; exact ⟨_, rfl⟩
    · rw [if_neg hcc, ← Dict.mem_iff_lookup]
      rw [Dict.lookup_set] at hj
      split_ifs at hj with hjk
      · cases hj
        rw [hclients, List.mem_singleton] at hc
        exact absurd hc hcc
      · exact h.present j f c hj hc
  · refine Knows.congr (Knows.recordValue ev k c₀ _ _ ?_) rfl
    rw [Dict.lookup_set] at hj
    split_ifs at hj with hjk
    · cases hj
      exact Or.inr ⟨hclients ▸ hc, rfl, hjk⟩
    · exact Or.inl (h.knows j f c hj hc)

/-- An access by a sharer changes no usage, unless the sharer is the sole owner of a block that is not empty. -/
theorem lookup_accessSizes_of_sharer (h : ev.UsageKnown d) {k : K} {old e : CacheEntry F} (hk : d.lookup k = some old)
    (hobj : e.kvObj = old.kvObj) {c₀ : ClientId} (hc₀ : c₀ ∈ old.clients) (hclients : e.clients = old.clients)
    (hfree : old.clients ≠ [c₀] ∨ old.kvObj.size = 0) (c : ClientId) :
    (accessSizes ev.clientCacheSizes old e c₀).lookup c = ev.clientCacheSizes.lookup c := by
  by_cases hsole : old.clients = [c₀]
  · have hempty := hfree.resolve_left fun hne => hne hsole
    rw [accessSizes_of_sole hsole hclients, Dict.lookup_upsert, hobj, hempty]
    by_cases hcc : c = c₀
    · obtain ⟨v, hv⟩ := (Dict.mem_iff_lookup _ _).mp (h.present k old c₀ hk hc₀)
      rw [if_pos hcc, hcc, hv, Option.getD_some, Nat.cast_zero, add_zero]
    · rw [if_neg hcc]
  · have hlen : e.clients.length ≠ 1 := by
      intro hone
      obtain ⟨x, hx⟩ := List.length_eq_one_iff.mp hone
      rw [hclients] at hx
      rw [hx, List.mem_singleton] at hc₀
      exact hsole (by rw [hx, hc₀])
    rw [accessSizes_of_sharer hc₀ hlen]

/-- The table after such an access, or that of a newcomer. -/
theorem lookup_accessSizes [IsStrictOrderedRing F] (h : ev.UsageKnown d) {k : K} {old e : CacheEntry F}
    (hk : d.lookup k = some old) (hobj : e.kvObj = old.kvObj) {c₀ : ClientId}
    (hclients : e.clients = if c₀ ∈ old.clients then old.clients else old.clients ++ [c₀])
    (hfree : old.clients ≠ [c₀] ∨ old.kvObj.size = 0) (c : ClientId) :
    ((accessSizes ev.clientCacheSizes old e c₀).lookup c).getD 0 = trueUsage (d.set k e) [] c ∧
      (c ∈ e.clients ∨ c ∈ ev.clientCacheSizes →
        ∃ v, (accessSizes ev.clientCacheSizes old e c₀).lookup c = some v) := by
  have husage := trueUsage_erase hk (List.not_mem_nil (a := k)) c
  rw [trueUsage_set]
  by_cases hc₀ : c₀ ∈ old.clients
  · -- a sharer comes back, and its shares stay
    rw [if_pos hc₀] at hclients
    have hshare : e.share = old.share := by rw [CacheEntry.share, CacheEntry.share, hobj, hclients]
    rw [h.lookup_accessSizes_of_sharer hk hobj hc₀ hclients hfree, h.usage c, husage, hclients, hshare,
      ← Dict.mem_iff_lookup]
    exact ⟨rfl, fun hc => hc.elim (h.present k old c hk) id⟩
  · rw [if_neg hc₀] at hclients
    have hpos : 0 < old.clients.length := List.length_pos_iff.mpr (h.shared k old hk)
    rw [lookup_accessSizes_of_newcomer hc₀ hpos hclients hobj]
    by_cases hcc : c = c₀
    · have hnot : c ∉ old.clients := hcc ▸ hc₀
      have hmem : c ∈ e.clients := by rw [hclients, hcc]; simp
      rw [if_neg hnot, zero_add] at husage
      rw [if_pos hcc, if_pos hmem, h.usage c, husage, Option.getD_some, add_comm]
      exact ⟨rfl, fun _ => ⟨_, rfl⟩⟩
    · rw [if_neg hcc]
      by_cases hold : c ∈ old.clients
      · obtain ⟨v, hv⟩ := (Dict.mem_iff_lookup _ _).mp (h.present k old c hk hold)
        have hmem : c ∈ e.clients := by rw [hclients]; exact List.mem_append_left _ hold
        rw [if_pos hold] at husage
        have hnew : max 0 (v - old.share + e.share) = e.share + trueUsage (d.erase k) [] c := by
          rw [h.lookup hv, husage, add_sub_cancel_left, add_comm]
          exact max_eq_right (add_nonneg e.share_nonneg (trueUsage_nonneg _ _ _))
        rw [if_pos hold, if_pos hmem, hv]
        exact ⟨hnew, fun _ => ⟨_, rfl⟩⟩
      · have hmem : c ∉ e.clients := by rw [hclients]; simp [hold, hcc]
        rw [if_neg hold, zero_add] at husage
        rw [if_neg hold, if_neg hmem, h.usage c, husage, zero_add, ← Dict.mem_iff_lookup]
        exact ⟨rfl, fun hc => hc.resolve_left hmem⟩

/-- An access leaves the usage known, unless it is that of a sole owner. -/
theorem updateOnGet [IsStrictOrderedRing F] [FloatMath F] (h : ev.UsageKnown d) {k : K} {c₀ : ClientId} (now : F)
    (hfree : ∀ e, d.lookup k = some e → e.clients ≠ [c₀] ∨ e.kvObj.size = 0) :
    (ev.updateOnGet k c₀ d now).1.UsageKnown (ev.updateOnGet k c₀ d now).2 := by
  unfold FairEvictor.updateOnGet
  cases hk : d.lookup k with
  | none => exact h
  | some old =>
    let e := (old.updateAccessTime c₀ now).updateValue
    have hclients : e.clients = if c₀ ∈ old.clients then old.clients else old.clients ++ [c₀] :=
      old.clients_updateAccessTime c₀ now
    have hlook := h.lookup_accessSizes hk (e := e) rfl hclients (hfree old hk)
    simp only [clientCacheSizes_recordValue]
    have hne : e.clients ≠ [] := by rw [hclients]; split_ifs <;> simp [h.shared k old hk]
    refine ⟨fun c => (hlook c).1, fun j f c hj hc => ?_, fun j f c hj hc => ?_,
      Dict.forall_lookup_set hne fun j f _ hj => h.shared j f hj⟩
    · refine (Dict.mem_iff_lookup _ _).mpr ((hlook c).2 ?_)
      rw [Dict.lookup_set] at hj
      split_ifs at hj
      · cases hj; exact Or.inl hc
      · exact Or.inr (h.present j f c hj hc)
    · refine Knows.congr (Knows.recordValue ev k c₀ e e.clients ?_) rfl
      rw [Dict.lookup_set] at hj
      split_ifs at hj with hjk
      · cases hj
        exact Or.inr ⟨hc, rfl, hjk⟩
      · exact Or.inl (h.knows j f c hj hc)

end UsageKnown

end FairEvictor

/-! ## Runs -/

namespace LMCLocalFairBackend

open FairEvictor

variable [FloatMath F]

/-- The keys the first pass of a put chooses. -/
def lowVictims (b : LMCLocalFairBackend md K F R) (a : PutArgs K F R) : List K :=
  (evictBelowThreshold (b.dropOld a.key).2.dict (chunkBytes md a) a.retrievedKeys a.now (b.dropOld a.key).2.evictor []).2

/-- A step that leaves the usage known: a put that is too large or finds room without choosing victims, a read, or an
access that hits no block of which the client is the sole owner. -/
def KeepsUsage (b : LMCLocalFairBackend md K F R) : Op K F R → Prop
  | .putBlocking a | .putNonblocking a =>
    md.maxBytes < chunkBytes md a ∨ (b.dropOld a.key).2.evictor.HasRoom (chunkBytes md a)
  | .get _ _ => True
  | .updateAfterGet ctx ks _ => ∀ c ∈ activeClient ctx, ∀ k ∈ ks, ∀ e ∈ b.dict.lookup k, e.clients ≠ [c]

instance (b : LMCLocalFairBackend md K F R) : ∀ op, Decidable (b.KeepsUsage op)
  | .putBlocking _ | .putNonblocking _ => inferInstanceAs (Decidable (_ ∨ _))
  | .get _ _ => .isTrue trivial
  | .updateAfterGet _ _ _ => inferInstanceAs (Decidable (∀ c ∈ _, ∀ k ∈ _, ∀ e ∈ _, _ ≠ _))

variable [IsStrictOrderedRing F] {b b' : LMCLocalFairBackend md K F R} {a : PutArgs K F R}

omit [FloatMath F] in
theorem usageKnown_dropOld (h : b.evictor.UsageKnown b.dict) (k : K) :
    (b.dropOld k).2.evictor.UsageKnown (b.dropOld k).2.dict := by
  cases hk : b.dict.lookup k with
  | none => rwa [dropOld_of_notMem (AList.lookup_eq_none.mp hk)]
  | some e =>
    rw [dropOld_of_lookup hk]
    unfold remove
    rw [hk]
    exact h.erase hk rfl rfl

theorem usageKnown_putSections (h : b.evictor.UsageKnown b.dict)
    (hk : md.maxBytes < chunkBytes md a ∨ (b.dropOld a.key).2.evictor.HasRoom (chunkBytes md a))
    (hput : b.putSections a = .ok b') : b'.evictor.UsageKnown b'.dict := by
  have h₁ := usageKnown_dropOld h a.key
  by_cases hbig : md.maxBytes < chunkBytes md a
  · rw [putSections_tooLarge hbig] at hput
    cases hput
    exact h₁.congr rfl rfl
  · have hv : b.victims a = ((b.dropOld a.key).2.evictor, none, [], .legal) :=
      chooseVictims_of_room (hk.resolve_left hbig)
    rw [putSections_legal (not_lt.mp hbig) hv] at hput
    cases ha : (b.evicted a (b.dropOld a.key).2.evictor []).mpool.allocate a.kvChunk with
    | error e => rw [ha] at hput; cases hput
    | ok op =>
      obtain ⟨o, p⟩ := op
      rw [ha] at hput
      cases hput
      have hroom : (b.evicted a (b.dropOld a.key).2.evictor []).evictor.UsageKnown
          (b.evicted a (b.dropOld a.key).2.evictor []).dict := h₁.congr rfl rfl
      exact hroom.registerNewCache (notMem_evicted b a _ []) _ rfl _ _

/-- Accesses of the same batch meet no sole owner either. -/
theorem usageKnown_updateAfterGet (h : b.evictor.UsageKnown b.dict) (ctx : Option ClientId) (ks : List K)
    (clock : ℕ → F)
    (hsole : ∀ c ∈ activeClient ctx, ∀ k ∈ ks, ∀ e ∈ b.dict.lookup k, e.clients ≠ [c]) :
    (b.updateAfterGet ctx ks clock).evictor.UsageKnown (b.updateAfterGet ctx ks clock).dict := by
  let P (b : LMCLocalFairBackend md K F R) : Prop := b.evictor.UsageKnown b.dict ∧
    ∀ c ∈ activeClient ctx, ∀ k ∈ ks, ∀ e ∈ b.dict.lookup k, e.clients ≠ [c]
  refine (updateAfterGet_rule (P := P) ?_ ⟨h, hsole⟩).1
  rintro b k c now hc hk ⟨h, hsole⟩
  refine ⟨h.updateOnGet now fun e he => Or.inl (hsole c hc k hk e he), fun c' hc' j hj e he => ?_⟩
  obtain rfl : c = c' := Option.some.inj (hc.symm.trans hc')
  unfold LMCLocalFairBackend.updateOnGet FairEvictor.updateOnGet at he
  cases hl : b.dict.lookup k with
  | none => rw [hl] at he; exact hsole c hc j hj e he
  | some old =>
    rw [hl] at he
    simp only [Dict.lookup_set] at he
    split_ifs at he with hjk
    · cases he
      intro heq
      have hclients := old.clients_updateAccessTime c now
      rw [CacheEntry.clients_updateValue, hclients] at heq
      split_ifs at heq with hmem
      · exact hsole c hc k hk old hl heq
      · exact h.shared k old hl (List.append_eq_singleton_iff.mp heq |>.elim And.left fun hr => by simp at hr)
    · exact hsole c hc j hj e he

omit [FloatMath F] [IsStrictOrderedRing F] in
theorem usageKnown_new : (new md K F R).evictor.UsageKnown (new md K F R).dict :=
  ⟨fun _ => rfl, fun _ _ _ h => (by cases h), fun _ _ _ h => (by cases h), fun _ _ h => (by cases h)⟩

theorem usageKnown_of_run {ops : List (Op K F R)} (hrun : Reaches step (new md K F R) ops b)
    (hops : Along step KeepsUsage (new md K F R) ops) : b.evictor.UsageKnown b.dict := by
  have hstep : ∀ (b : LMCLocalFairBackend md K F R) (op : Op K F R) b', b.evictor.UsageKnown b.dict →
      KeepsUsage b op → b.step op = .ok b' → b'.evictor.UsageKnown b'.dict := by
    intro b op b' h hk hs
    cases op with
    | putBlocking a => exact usageKnown_putSections h hk hs
    | putNonblocking a => exact usageKnown_putSections h hk hs
    | get c k => exact Except.ok.inj hs ▸ h
    | updateAfterGet c ks clock => exact Except.ok.inj hs ▸ usageKnown_updateAfterGet h c ks clock hk
  exact reaches_invariant hstep usageKnown_new hops hrun

/-- Client `c` puts a full chunk under the key `k`. -/
def fullArgs (c : ClientId) (k : ℕ) : PutArgs ℕ ℚ Unit := { argsOf k 2 [] with clientId := c }

end LMCLocalFairBackend

end FairCache
