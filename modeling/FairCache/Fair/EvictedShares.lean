import FairCache.Fair.Choice

/-!
# Shares in a cache that evicts

`update_on_put` takes the shares of a victim off its sharers when it chooses the victim, and `remove` takes them off again.

* `UsageExact` : the usage table is the true usage;
* `UsageWithout` : it is, for the clients that are left in it, with the chosen victims gone;
* `usage_foldl_remove` : what the removals leave of a usage;
* `usageExact_evicted_iff` : when the table is exact after the evictions.
-/

namespace FairCache

open Lib

variable {md : LMCacheMemPoolMetadata} {K F R : Type} [LinearOrder K] [Field F] [LinearOrder F] [IsStrictOrderedRing F]

namespace FairEvictor

variable {ev ev' : FairEvictor md K F} {d : Dict K (CacheEntry F)} {ks r : List K} {cacheSize : ℕ} {now : F}

/-- A client in the table uses what it truly uses without the blocks that are gone. -/
def UsageWithout (ev : FairEvictor md K F) (d : Dict K (CacheEntry F)) (gone : List K) : Prop :=
  ∀ c v, ev.clientCacheSizes.lookup c = some v → v = trueUsage d gone c

omit [IsStrictOrderedRing F] in
theorem UsageWithout.congr (h : ev.UsageWithout d ks) (hs : ev'.clientCacheSizes = ev.clientCacheSizes) :
    ev'.UsageWithout d ks := by
  unfold UsageWithout
  rwa [hs]

theorem UsageWithout.select (h : ev.UsageWithout d ks) {k : K} {e : CacheEntry F} (hk : d.lookup k = some e)
    (hks : k ∉ ks) : (ev.select k e).UsageWithout d (ks ++ [k]) := by
  intro c v hv
  rw [trueUsage_gone hk]
  exact lookup_dropShares_exact hk hks (h c) hv

omit [IsStrictOrderedRing F] in
theorem UsageWithout.dropClient (h : ev.UsageWithout d ks) (m : ClientId) : (ev.dropClient m).UsageWithout d ks := by
  intro c v hv
  exact h c v (Dict.lookup_erase_eq_some.mp hv).2

/-- **Both passes** take the shares of their victims off the table, once each. -/
theorem UsageWithout.chooseVictims [FloatMath F] (h : ev.UsageWithout d []) {who : Option ClientId} {st : PutStatus}
    (hv : ev.chooseVictims d cacheSize r now = (ev', who, ks, st)) : ev'.UsageWithout d ks := by
  have hfirst : (evictBelowThreshold d cacheSize r now ev []).1.UsageWithout d
      (evictBelowThreshold d cacheSize r now ev []).2 := by
    apply evictBelowThreshold_rule (P := fun ev ks => ev.UsageWithout d ks) _ _ ev [] h
    · intro ev ks hp _
      exact hp.congr rfl
    · intro ev ks k e hp _ hs _ hk
      exact (hp.congr rfl).select hk (getMinValueKey_some (Prod.ext hs rfl)).1
  refine (evictFromMaxClient_rule (P := fun ev ks => ev.UsageWithout d ks) ?_ ?_ _ none _ hfirst hv).1
  · intro ev ks m hp _ _ _
    exact (hp.congr (clientCacheSizes_getMinValueKeyForClient ..)).dropClient m
  · intro ev ks m k e hp _ _ hs _ hk _
    exact (hp.congr (clientCacheSizes_getMinValueKeyForClient ..)).select hk (getMinValueKeyForClient_some (Prod.ext hs rfl)).1

end FairEvictor

/-! ## Removals -/

section TrueUsage
variable {d : Dict K (CacheEntry F)} {ks : List K} {k : K} {e : CacheEntry F}

omit [LinearOrder F] [IsStrictOrderedRing F] in
/-- One more block that is gone. -/
theorem trueUsage_concat (hk : d.lookup k = some e) (hks : k ∉ ks) (c : ClientId) :
    trueUsage d ks c = (if c ∈ e.clients then e.share else 0) + trueUsage d (ks ++ [k]) c := by
  rw [trueUsage_erase hk hks, trueUsage_gone hk]

theorem trueUsage_le (hks : ks.Nodup) (hmem : ∀ k ∈ ks, k ∈ d) (c : ClientId) : trueUsage d ks c ≤ trueUsage d [] c := by
  induction ks using List.reverseRecOn with
  | nil => exact le_rfl
  | append_singleton ks k ih =>
    obtain ⟨hks, -, hdisj⟩ := List.nodup_append.mp hks
    have hk : k ∉ ks := fun h => hdisj k h k (List.mem_singleton_self k) rfl
    obtain ⟨e, he⟩ := (Dict.mem_iff_lookup _ _).mp (hmem k (List.mem_append_right _ (List.mem_singleton_self k)))
    have hle := ih hks fun j hj => hmem j (List.mem_append_left _ hj)
    rw [trueUsage_concat he hk] at hle
    refine le_trans (le_add_of_nonneg_left ?_) hle
    split_ifs
    · exact e.share_nonneg
    · exact le_rfl

end TrueUsage

namespace LMCLocalFairBackend

open FairEvictor

variable {b : LMCLocalFairBackend md K F R} {ks : List K}

/-- The usage table is the true usage. -/
def UsageExact (b : LMCLocalFairBackend md K F R) : Prop :=
  ∀ c, (b.evictor.clientCacheSizes.lookup c).getD 0 = trueUsage b.dict [] c

omit [IsStrictOrderedRing F] in
theorem lookup_table_remove {k : K} {e : CacheEntry F} (hk : b.dict.lookup k = some e) (c : ClientId) :
    (b.remove k).evictor.clientCacheSizes.lookup c = if c ∈ e.clients then
      (b.evictor.clientCacheSizes.lookup c).map fun v => max 0 (v - e.share) else b.evictor.clientCacheSizes.lookup c := by
  unfold remove
  rw [hk]
  exact lookup_dropShares _ e c

omit [IsStrictOrderedRing F] in
theorem dict_remove {k : K} {e : CacheEntry F} (hk : b.dict.lookup k = some e) : (b.remove k).dict = b.dict.erase k := by
  unfold remove
  rw [hk]

omit [LinearOrder K] in
/-- Clamping once at the end is enough. -/
theorem max_zero_sub_max_zero {x s : F} (hs : 0 ≤ s) : max 0 (max 0 x - s) = max 0 (x - s) := by
  rcases le_total 0 x with hx | hx
  · rw [max_eq_right hx]
  · rw [max_eq_left hx, zero_sub, max_eq_left (neg_nonpos.mpr hs), max_eq_left]
    exact (sub_le_self x hs).trans hx

omit [LinearOrder K] in
/-- What was taken off twice is right where nothing is left or nothing was taken off. -/
theorem max_zero_sub_sub_eq_iff {r t : F} (hr : 0 ≤ r) (hle : r ≤ t) : max 0 (r - (t - r)) = r ↔ r = 0 ∨ t = r := by
  constructor
  · intro hmax
    rcases max_choice 0 (r - (t - r)) with hzero | hrest
    · exact Or.inl (hmax.symm.trans hzero)
    · rw [hrest, sub_eq_self, sub_eq_zero] at hmax
      exact Or.inr hmax
  · rintro (hzero | hsame)
    · rw [hzero] at hle ⊢
      rw [zero_sub, sub_zero]
      exact max_eq_left (neg_nonpos.mpr hle)
    · rw [hsame, sub_self, sub_zero, max_eq_right hr]

/-- **The removals** take the shares of the victims off the usages that are there, down to zero. -/
theorem usage_foldl_remove (hks : ks.Nodup) (hmem : ∀ k ∈ ks, k ∈ b.dict) (c : ClientId) :
    trueUsage (ks.foldl remove b).dict [] c = trueUsage b.dict ks c ∧
      ∀ v, 0 ≤ v → (b.evictor.clientCacheSizes.lookup c = some v →
        (ks.foldl remove b).evictor.clientCacheSizes.lookup c =
          some (max 0 (v - (trueUsage b.dict [] c - trueUsage b.dict ks c)))) := by
  induction ks using List.reverseRecOn with
  | nil =>
    refine ⟨rfl, fun v hv hlook => ?_⟩
    rw [List.foldl_nil, sub_self, sub_zero, max_eq_right hv, hlook]
  | append_singleton ks k ih =>
    obtain ⟨hks, -, hdisj⟩ := List.nodup_append.mp hks
    have hk : k ∉ ks := fun h => hdisj k h k (List.mem_singleton_self k) rfl
    obtain ⟨e, he⟩ := (Dict.mem_iff_lookup _ _).mp (hmem k (List.mem_append_right _ (List.mem_singleton_self k)))
    obtain ⟨hdict, htable⟩ := ih hks fun j hj => hmem j (List.mem_append_left _ hj)
    have he' : (ks.foldl remove b).dict.lookup k = some e := by rw [lookup_foldl_remove, if_neg hk, he]
    have hsplit := trueUsage_concat he hk c
    rw [List.foldl_append, List.foldl_cons, List.foldl_nil]
    refine ⟨?_, fun v hv hlook => ?_⟩
    · rw [dict_remove he']
      rw [trueUsage_erase he' List.not_mem_nil, hsplit] at hdict
      exact add_left_cancel hdict
    · rw [lookup_table_remove he', htable v hv hlook]
      split_ifs at hsplit ⊢ with hc
      · rw [Option.map_some, max_zero_sub_max_zero e.share_nonneg, hsplit]
        congr 2
        ring
      · rw [hsplit, zero_add]

variable [FloatMath F] {a : PutArgs K F R} {ev : FairEvictor md K F} {who : Option ClientId}

omit [FloatMath F] in
theorem usageWithout_dropOld (h : b.UsageExact) (k : K) : (b.dropOld k).2.evictor.UsageWithout (b.dropOld k).2.dict [] := by
  have hexact : ∀ c v, b.evictor.clientCacheSizes.lookup c = some v → v = trueUsage b.dict [] c := by
    intro c v hv
    rw [← h c, hv, Option.getD_some]
  cases hk : b.dict.lookup k with
  | none =>
    rw [dropOld_of_notMem (AList.lookup_eq_none.mp hk)]
    exact hexact
  | some e =>
    intro c v hv
    rw [dropOld_of_lookup hk] at hv ⊢
    rw [dict_addCacheSize, dict_remove hk]
    refine lookup_dropShares_exact hk List.not_mem_nil (hexact c) ?_
    unfold remove at hv
    rw [hk] at hv
    exact hv

/-- Each client has no share in a block that stays, or none in a victim and its place in the table. -/
def ApartFromVictims (d : Dict K (CacheEntry F)) (ev : FairEvictor md K F) (ks : List K) : Prop :=
  ∀ c, trueUsage d ks c = 0 ∨ (trueUsage d [] c = trueUsage d ks c ∧ c ∈ ev.clientCacheSizes)

omit [FloatMath F] in
/-- Where no victim is needed, nobody shares one. -/
theorem apartFromVictims_of_room (h : b.UsageExact) :
    ApartFromVictims (b.dropOld a.key).2.dict (b.dropOld a.key).2.evictor [] := by
  intro c
  by_cases hc : c ∈ b.evictor.clientCacheSizes
  · refine Or.inr ⟨rfl, ?_⟩
    unfold dropOld
    cases b.dict.lookup a.key with
    | none => exact hc
    | some e => exact (mem_table_remove b a.key c).mpr hc
  · left
    have hzero : trueUsage b.dict [] c = 0 := by rw [← h c, AList.lookup_eq_none.mpr hc, Option.getD_none]
    cases hk : b.dict.lookup a.key with
    | none => rw [dropOld_of_notMem (AList.lookup_eq_none.mp hk), hzero]
    | some e =>
      rw [dropOld_of_lookup hk, dict_addCacheSize, dict_remove hk]
      rw [trueUsage_erase hk List.not_mem_nil] at hzero
      refine le_antisymm (hzero ▸ le_add_of_nonneg_left ?_) (trueUsage_nonneg _ _ _)
      split_ifs
      · exact e.share_nonneg
      · exact le_rfl

/-- **Exact shares after the evictions of an accepted put**: exactly if it needs no victim, or each client has no share in a
block that stays, or none in a victim and its place in the table. -/
theorem usageExact_evicted_iff (h : b.UsageExact) (hv : b.victims a = (ev, who, ks, .legal)) :
    (b.evicted a ev ks).UsageExact ↔
      (b.dropOld a.key).2.evictor.HasRoom (chunkBytes md a) ∨ ApartFromVictims (b.dropOld a.key).2.dict ev ks := by
  have hwithout : ev.UsageWithout (b.dropOld a.key).2.dict ks := (usageWithout_dropOld h a.key).chooseVictims hv
  obtain ⟨hchosen, -, -⟩ := chosen_chooseVictims hv
  have hpoint : ∀ c, ((b.evicted a ev ks).evictor.clientCacheSizes.lookup c).getD 0 = trueUsage (b.evicted a ev ks).dict [] c ↔
      trueUsage (b.dropOld a.key).2.dict ks c = 0 ∨
        (trueUsage (b.dropOld a.key).2.dict [] c = trueUsage (b.dropOld a.key).2.dict ks c ∧ c ∈ ev.clientCacheSizes) := by
    intro c
    let b₁ : LMCLocalFairBackend md K F R :=
      { (b.dropOld a.key).2 with evictor := { ev with currentCacheSize := ev.currentCacheSize + chunkBytes md a } }
    obtain ⟨hdict, htable⟩ := usage_foldl_remove (b := b₁) hchosen.nodup hchosen.resident c
    have hevicted : b.evicted a ev ks = ks.foldl remove b₁ := rfl
    have hle := trueUsage_le hchosen.nodup hchosen.resident c
    have hnonneg := trueUsage_nonneg (b.dropOld a.key).2.dict ks c
    rw [hevicted, hdict]
    by_cases hc : c ∈ ev.clientCacheSizes
    · obtain ⟨v, hlook⟩ := (Dict.mem_iff_lookup _ _).mp hc
      obtain rfl := hwithout c v hlook
      rw [htable _ hnonneg hlook, Option.getD_some]
      refine (max_zero_sub_sub_eq_iff hnonneg hle).trans (or_congr_right ?_)
      exact (and_iff_left hc).symm
    · have hnone : (ks.foldl remove b₁).evictor.clientCacheSizes.lookup c = none := by
        rw [AList.lookup_eq_none, mem_table_foldl_remove]
        exact hc
      rw [hnone, Option.getD_none]
      exact ⟨fun hzero => Or.inl hzero.symm, fun hor => (hor.resolve_right fun hand => hc hand.2).symm⟩
  have hiff : (b.evicted a ev ks).UsageExact ↔ ApartFromVictims (b.dropOld a.key).2.dict ev ks := forall_congr' hpoint
  rw [hiff]
  refine ⟨Or.inr, fun hor => hor.elim (fun hroom => ?_) id⟩
  have hnothing := (chooseVictims_of_room hroom).symm.trans hv
  cases hnothing
  exact apartFromVictims_of_room h

/-! ## Runs on concrete inputs -/

/-- Client 2 overwrites the only block, which was client 1's. -/
theorem usageExact_evicted_overwritten : ∃ b, Reaches step (new .threeChunks ℕ ℚ Unit) [.putBlocking (fullArgs 1 0)] b ∧
    ∃ ev who ks, b.victims (fullArgs 2 0) = (ev, who, ks, .legal) ∧ (b.evicted (fullArgs 2 0) ev ks).UsageExact := by
  have hrun : ∃ b, Reaches step (new .threeChunks ℕ ℚ Unit) [.putBlocking (fullArgs 1 0)] b ∧
      (b.victims (fullArgs 2 0)).2.2.2 = .legal ∧
      (b.dropOld 0).2.evictor.HasRoom (chunkBytes .threeChunks (fullArgs 2 0)) := by decide +kernel
  obtain ⟨b, hb, hlegal, hroom⟩ := hrun
  have hv : b.victims (fullArgs 2 0) = (_, _, _, .legal) := Prod.ext rfl (Prod.ext rfl (Prod.ext rfl hlegal))
  have hexact : b.UsageExact := (usageKnown_of_run hb (by decide +kernel)).usage
  exact ⟨b, hb, _, _, _, hv, (usageExact_evicted_iff hexact hv).mpr (Or.inl hroom)⟩

/-- Client 1 has three blocks of four bytes and loses one of them to a fourth: four bytes are left of its twelve. -/
theorem victim_taken_off_twice : ∃ b, Reaches step (new .threeChunks ℕ ℚ Unit) ((List.range 3).map (putOf · 2)) b ∧
    b.UsageExact ∧ chunkBytes .threeChunks (argsOf 3 2 []) ≤ LMCacheMemPoolMetadata.maxBytes .threeChunks ∧
    ∃ ev who ks, b.victims (argsOf 3 2 []) = (ev, who, ks, .legal) ∧ ¬ (b.evicted (argsOf 3 2 []) ev ks).UsageExact := by
  have hrun : ∃ b, Reaches step (new .threeChunks ℕ ℚ Unit) ((List.range 3).map (putOf · 2)) b ∧
      (b.victims (argsOf 3 2 [])).2.2.2 = .legal ∧
      let b' := b.evicted (argsOf 3 2 []) (b.victims (argsOf 3 2 [])).1 (b.victims (argsOf 3 2 [])).2.2.1
      (b'.evictor.clientCacheSizes.lookup 1).getD 0 = 4 ∧ trueUsage b'.dict [] 1 = 8 := by decide +kernel
  obtain ⟨b, hb, hlegal, husage, htrue⟩ := hrun
  have hv : b.victims (argsOf 3 2 []) = (_, _, _, .legal) := Prod.ext rfl (Prod.ext rfl (Prod.ext rfl hlegal))
  refine ⟨b, hb, (usageKnown_of_run hb (by decide +kernel)).usage, by decide +kernel, _, _, _, hv, fun h => ?_⟩
  have hone := h 1
  rw [husage, htrue] at hone
  exact absurd hone (by norm_num)

end LMCLocalFairBackend

end FairCache
