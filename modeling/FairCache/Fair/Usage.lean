import FairCache.Fair.Ledger
import Mathlib.Algebra.Order.BigOperators.Group.List

/-!
# True usage

What a client uses, from the resident blocks alone, and what the evictor records of it.

* `trueUsage` : the sum of a client's shares; `FairChoice` : what a fair victim is;
* `lookup_dropShares_exact` : an exact usage table stays exact when a block's shares are taken off;
* `Knows` : a client's heap has a record of a block, and what accesses and searches do to it.
-/

namespace FairCache

open Lib

/-! ## True usage -/

section TrueUsage
variable {K F : Type} [LinearOrder K] [Field F] [LinearOrder F]

/-- What a block counts for each of its clients. -/
def CacheEntry.share (e : CacheEntry F) : F := e.kvObj.size / e.clients.length

/-- Keys are compared by their order. -/
local instance lawfulBEq_keys : LawfulBEq K := inferInstance

/-- What a block counts for the client `c`, when the blocks `gone` no longer count. -/
def shareOf (gone : List K) (c : ClientId) (k : K) (e : CacheEntry F) : F :=
  if k ∉ gone ∧ c ∈ e.clients then e.share else 0

/-- **The true usage of a client**: the shares of the resident blocks it accessed, without the blocks `gone`. -/
def trueUsage (d : Dict K (CacheEntry F)) (gone : List K) (c : ClientId) : F := Dict.sumBy (shareOf gone c) d

/-- The client has a block left that is neither protected nor gone. -/
def Owns (d : Dict K (CacheEntry F)) (retrievedKeys gone : List K) (c : ClientId) : Prop :=
  ∃ k e, d.lookup k = some e ∧ c ∈ e.clients ∧ k ∉ retrievedKeys ∧ k ∉ gone

/-- **A fair victim**: a block of a client whose true usage is the largest among the clients that still own a block
that could be taken. -/
def FairChoice (d : Dict K (CacheEntry F)) (retrievedKeys gone : List K) (k : K) : Prop :=
  ∃ e m, d.lookup k = some e ∧ m ∈ e.clients ∧ Owns d retrievedKeys gone m ∧
    ∀ c, Owns d retrievedKeys gone c → trueUsage d gone c ≤ trueUsage d gone m

variable {d : Dict K (CacheEntry F)} {gone : List K} {k : K} {e : CacheEntry F}

omit [Field F] [LinearOrder F] in
theorem mem_clients {c : ClientId} : c ∈ e.clients ↔ c ∈ e.accessMap := AList.mem_keys.symm

omit [LinearOrder F] in
theorem trueUsage_erase (hk : d.lookup k = some e) (hg : k ∉ gone) (c : ClientId) :
    trueUsage d gone c = (if c ∈ e.clients then e.share else 0) + trueUsage (d.erase k) gone c := by
  rw [trueUsage, Dict.sumBy_erase _ hk, shareOf]
  simp [hg, trueUsage]

omit [LinearOrder F] in
/-- A block that is gone counts as one that is erased. -/
theorem trueUsage_gone (hk : d.lookup k = some e) (c : ClientId) :
    trueUsage d (gone ++ [k]) c = trueUsage (d.erase k) gone c := by
  rw [trueUsage, Dict.sumBy_erase _ hk, shareOf, if_neg (by simp), zero_add, trueUsage]
  refine Dict.sumBy_congr fun j f hj => ?_
  have hjk : j ≠ k := (Dict.lookup_erase_eq_some.mp hj).1
  simp [shareOf, hjk]

omit [LinearOrder F] in
theorem trueUsage_set (d : Dict K (CacheEntry F)) (k : K) (e : CacheEntry F) (c : ClientId) :
    trueUsage (d.set k e) [] c = (if c ∈ e.clients then e.share else 0) + trueUsage (d.erase k) [] c := by
  rw [trueUsage, Dict.sumBy_set, shareOf, trueUsage]
  simp

variable [IsStrictOrderedRing F]

theorem CacheEntry.share_nonneg (e : CacheEntry F) : 0 ≤ e.share :=
  div_nonneg (Nat.cast_nonneg _) (Nat.cast_nonneg _)

theorem trueUsage_nonneg (d : Dict K (CacheEntry F)) (gone : List K) (c : ClientId) : 0 ≤ trueUsage d gone c := by
  refine List.sum_nonneg fun x hx => ?_
  obtain ⟨e, -, rfl⟩ := List.mem_map.mp hx
  rw [shareOf]
  split_ifs
  · exact e.2.share_nonneg
  · exact le_rfl

end TrueUsage

/-! ## The usage table -/

namespace FairEvictor

variable {md : LMCacheMemPoolMetadata} {K F : Type} [LinearOrder K] [Field F] [LinearOrder F]

theorem lookup_dropShares (sizes : Dict ClientId F) (e : CacheEntry F) (c : ClientId) :
    (dropShares sizes e).lookup c =
      if c ∈ e.clients then (sizes.lookup c).map fun v => max 0 (v - e.share) else sizes.lookup c := by
  unfold dropShares
  split_ifs with h0 hc hc
  · rw [List.length_eq_zero_iff.mp h0] at hc
    cases hc
  · rfl
  · rw [Dict.lookup_adjustAll _ e.nodup_clients, if_pos hc]
    rfl
  · rw [Dict.lookup_adjustAll _ e.nodup_clients, if_neg hc]

@[simp] theorem mem_dropShares (sizes : Dict ClientId F) (e : CacheEntry F) (c : ClientId) :
    c ∈ dropShares sizes e ↔ c ∈ sizes := by
  rw [AList.mem_keys, keys_dropShares, ← AList.mem_keys]

/-- Taking a block's shares off an exact table makes it exact without the block. -/
theorem lookup_dropShares_exact [IsStrictOrderedRing F] {d : Dict K (CacheEntry F)} {gone : List K} {k : K}
    {e : CacheEntry F} (hk : d.lookup k = some e) (hg : k ∉ gone) {sizes : Dict ClientId F} {c : ClientId} {v : F}
    (hexact : ∀ w, sizes.lookup c = some w → w = trueUsage d gone c)
    (hv : (dropShares sizes e).lookup c = some v) : v = trueUsage (d.erase k) gone c := by
  rw [lookup_dropShares] at hv
  have hsplit := trueUsage_erase hk hg c
  split_ifs at hv hsplit with hc
  · obtain ⟨w, hw, rfl⟩ := Option.map_eq_some_iff.mp hv
    rw [hexact w hw, hsplit, add_sub_cancel_left]
    exact max_eq_right (trueUsage_nonneg _ _ _)
  · rw [hexact v hv, hsplit, zero_add]

/-! What an access changes in the table. -/

theorem accessSizes_of_sharer {old e : CacheEntry F} {c₀ : ClientId} (hc₀ : c₀ ∈ old.clients)
    (hlen : e.clients.length ≠ 1) (sizes : Dict ClientId F) : accessSizes sizes old e c₀ = sizes := by
  unfold accessSizes
  rw [if_neg fun hn => hn.1 (mem_clients.mp hc₀)]
  exact if_neg hlen

/-- A sole owner that comes back is charged again. -/
theorem accessSizes_of_sole {old e : CacheEntry F} {c₀ : ClientId} (hold : old.clients = [c₀])
    (hclients : e.clients = old.clients) (sizes : Dict ClientId F) :
    accessSizes sizes old e c₀ = sizes.upsert c₀ fun v => v.getD 0 + e.kvObj.size := by
  have hmem : c₀ ∈ old.accessMap := mem_clients.mp (hold ▸ List.mem_singleton_self c₀)
  unfold accessSizes
  rw [if_neg fun hn => hn.1 hmem]
  exact if_pos (by rw [hclients, hold, List.length_singleton])

/-- A newcomer takes its share, and every sharer's share shrinks. -/
theorem lookup_accessSizes_of_newcomer {old e : CacheEntry F} {c₀ : ClientId} (hc₀ : c₀ ∉ old.clients)
    (hpos : 0 < old.clients.length) (hclients : e.clients = old.clients ++ [c₀]) (hobj : e.kvObj = old.kvObj)
    (sizes : Dict ClientId F) (c : ClientId) :
    (accessSizes sizes old e c₀).lookup c =
      if c = c₀ then some ((sizes.lookup c).getD 0 + e.share)
      else if c ∈ old.clients then some (match sizes.lookup c with
        | some v => max 0 (v - old.share + e.share)
        | none => e.share)
      else sizes.lookup c := by
  have hfilter : e.clients.filter (· ≠ c₀) = old.clients := by
    have hall : old.clients.filter (· ≠ c₀) = old.clients :=
      List.filter_eq_self.mpr fun x hx => by simpa using fun hxc : x = c₀ => hc₀ (hxc ▸ hx)
    rw [hclients, List.filter_append, hall]
    simp
  unfold accessSizes
  rw [if_pos ⟨fun hn => hc₀ (mem_clients.mpr hn), hpos⟩]
  simp only [hfilter, Dict.lookup_upsert, Dict.lookup_upsertAll _ old.nodup_clients, CacheEntry.share, hobj]
  by_cases hcc : c = c₀
  · simp [hcc, hc₀]
  · cases sizes.lookup c <;> simp [hcc]

/-! ## The clients' heaps -/

/-- The heap of client `c` for the decay rate `l` has a record of `k`. -/
def Knows (ev : FairEvictor md K F) (c : ClientId) (l : F) (k : K) : Prop :=
  ∃ hs v, ev.clientHeaps.lookup c = some hs ∧ HeapGroup.Holds hs l v k

omit [Field F] in
theorem Knows.congr {ev ev' : FairEvictor md K F} {c : ClientId} {l : F} {k : K} (h : ev.Knows c l k)
    (hh : ev'.clientHeaps = ev.clientHeaps) : ev'.Knows c l k := by
  unfold Knows; rwa [hh]

omit [Field F] in
theorem Knows.updateClientHeap {ev : FairEvictor md K F} {c : ClientId} {l : F} {k : K} (h : ev.Knows c l k)
    (c' : ClientId) (l' : F) (k' : K) (v' : F) : (ev.updateClientHeap c' l' k' v').Knows c l k := by
  obtain ⟨hs, v, hc, hh⟩ := h
  unfold Knows FairEvictor.updateClientHeap
  simp only [Dict.lookup_upsert]
  by_cases hcc : c = c'
  · subst hcc
    exact ⟨HeapGroup.push hs l' v' k', v, by simp [hc], hh.push _ _ _⟩
  · exact ⟨hs, v, by rw [if_neg hcc, hc], hh⟩

omit [Field F] in
theorem knows_updateClientHeap_self (ev : FairEvictor md K F) (c : ClientId) (l : F) (k : K) (v : F) :
    (ev.updateClientHeap c l k v).Knows c l k := by
  unfold Knows FairEvictor.updateClientHeap
  simp only [Dict.lookup_upsert, if_true]
  exact ⟨_, v, rfl, HeapGroup.holds_push_self _ _ _ _⟩

omit [Field F] in
/-- After an access the heaps know what they knew, and every sharer's heap the block. -/
theorem Knows.recordValue (ev : FairEvictor md K F) (key : K) (c₀ : ClientId) (e : CacheEntry F)
    (sharers : List ClientId) {c : ClientId} {l : F} {k : K}
    (h : ev.Knows c l k ∨ (c ∈ sharers ∧ l = e.lambdaVal ∧ k = key)) : (ev.recordValue key c₀ e sharers).Knows c l k := by
  have hfold : ∀ ev' : FairEvictor md K F, (ev'.Knows c l k ∨ (c ∈ sharers ∧ l = e.lambdaVal ∧ k = key)) →
      (sharers.foldl (fun ev cid => ev.updateClientHeap cid e.lambdaVal key e.value) ev').Knows c l k := by
    clear h
    induction sharers with
    | nil => exact fun ev' h => h.resolve_right fun hc => absurd hc.1 List.not_mem_nil
    | cons s sharers ih =>
      rintro ev' (h | ⟨hc, rfl, rfl⟩)
      · exact ih _ (Or.inl (h.updateClientHeap s _ _ _))
      · rcases List.mem_cons.mp hc with rfl | hc
        · exact ih _ (Or.inl (knows_updateClientHeap_self _ _ _ _ _))
        · exact ih _ (Or.inr ⟨hc, rfl, rfl⟩)
  exact hfold _ (h.imp_left fun h => h.congr rfl)

omit [Field F] in
/-- A search loses no record of a block that stays a candidate. -/
theorem Knows.search {ev : FairEvictor md K F} {d : Dict K (CacheEntry F)} {c : ClientId} {k : K} {e : CacheEntry F}
    (h : ev.Knows c e.lambdaVal k) (hk : d.lookup k = some e) (hc : c ∈ e.clients) {x : List K} (hx : k ∉ x)
    (m : ClientId) : (ev.getMinValueKeyForClient m d x).2.Knows c e.lambdaVal k := by
  obtain ⟨hs, v, hlook, hh⟩ := h
  by_cases hcm : c = m
  · subst hcm
    have hlive : clientStale c d x e.lambdaVal (toLex (v, k)) = false :=
      clientStale_eq_false.mpr ⟨e, hk, rfl, mem_clients.mp hc, hx⟩
    refine ⟨(HeapGroup.search (clientStale c d x) hs).2, v, ?_, (HeapGroup.mem_search_iff hlive).mpr hh⟩
    unfold getMinValueKeyForClient
    rw [hlook]
    exact Dict.lookup_set_self _ _ _
  · exact ⟨hs, v, (lookup_clientHeaps_of_ne ev hcm d x).trans hlook, hh⟩

omit [Field F] in
theorem clientStale_mono {c : ClientId} {d : Dict K (CacheEntry F)} {x y : List K} (hxy : ∀ k ∈ x, k ∈ y) (l : F)
    (r : F ×ₗ K) (h : clientStale c d x l r = true) : clientStale c d y l r = true := by
  by_contra hy
  obtain ⟨v, k⟩ := r
  obtain ⟨e, he, hl, hc, hk⟩ := clientStale_eq_false.mp (Bool.eq_false_of_not_eq_true hy)
  have hlive : clientStale c d x l (toLex (v, k)) = false :=
    clientStale_eq_false.mpr ⟨e, he, hl, hc, fun hx => hk (hxy _ hx)⟩
  exact Bool.noConfusion (h.symm.trans hlive)

omit [Field F] in
/-- A client's search changes no answer of a later search that excludes at least as much. -/
theorem getMinValueKeyForClient_getMinValueKeyForClient (ev : FairEvictor md K F) (m c : ClientId)
    (d : Dict K (CacheEntry F)) {x y : List K} (hxy : ∀ k ∈ x, k ∈ y) :
    ((ev.getMinValueKeyForClient m d x).2.getMinValueKeyForClient c d y).1 =
      (ev.getMinValueKeyForClient c d y).1 := by
  by_cases hcm : c = m
  · subst hcm
    unfold getMinValueKeyForClient
    cases hl : ev.clientHeaps.lookup c with
    | none => simp only [hl]
    | some hs =>
      simp only [Dict.lookup_set_self]
      exact congrArg Prod.fst (HeapGroup.search_search (clientStale_mono hxy) hs)
  · exact getMinValueKeyForClient_congr (lookup_clientHeaps_of_ne ev hcm d x) d y

omit [Field F] in
/-- A search that answers nothing looked for a client without a block left. -/
theorem not_knows_of_search_none {ev : FairEvictor md K F} {d : Dict K (CacheEntry F)} {c : ClientId} {x : List K}
    (h : (ev.getMinValueKeyForClient c d x).1 = none) {k : K} {e : CacheEntry F} (hk : d.lookup k = some e)
    (hc : c ∈ e.clients) (hx : k ∉ x) : ¬ ev.Knows c e.lambdaVal k := by
  rintro ⟨hs, v, hlook, hh⟩
  unfold getMinValueKeyForClient at h
  rw [hlook] at h
  have hstale := HeapGroup.search_none h hh
  rw [clientStale_eq_false.mpr ⟨e, hk, rfl, mem_clients.mp hc, hx⟩] at hstale
  cases hstale

end FairEvictor

namespace LMCLocalFairBackend

variable {md : LMCacheMemPoolMetadata} {K F R : Type} [LinearOrder K] [Field F] [LinearOrder F]

theorem mem_table_remove (b : LMCLocalFairBackend md K F R) (k : K) (c : ClientId) :
    c ∈ (b.remove k).evictor.clientCacheSizes ↔ c ∈ b.evictor.clientCacheSizes := by
  unfold remove
  cases b.dict.lookup k with
  | none => exact Iff.rfl
  | some e => exact FairEvictor.mem_dropShares _ _ _

theorem mem_table_foldl_remove (b : LMCLocalFairBackend md K F R) (ks : List K) (c : ClientId) :
    c ∈ (ks.foldl remove b).evictor.clientCacheSizes ↔ c ∈ b.evictor.clientCacheSizes := by
  induction ks generalizing b with
  | nil => exact Iff.rfl
  | cons k ks ih => exact (ih (b.remove k)).trans (mem_table_remove b k c)

end LMCLocalFairBackend

end FairCache
