import FairCache.Fair.Choice
import Mathlib.Algebra.BigOperators.Group.Finset.Piecewise
import Mathlib.Algebra.BigOperators.Ring.Finset

/-!
# Shares in a cache that only grows

`register_new_cache` and `update_on_get` split the size of a block among its sharers.

* `SharesExact` : each client's usage is the sum of its shares, and all usages together are the resident size;
* `sum_trueUsage` : the second follows where every block has sharers and they are all in the table;
* `ReadSide`, `readSide` : a registration or an access; `ChargesTwice` : the access of a sole owner;
* `sharesExact_iff` : this is the one that breaks the shares.
-/

namespace FairCache

open Lib

/-! ## Sums of shares -/

/-- The sum of a table, over its clients. -/
theorem sumBy_table {M : Type} [AddCommMonoid M] (sizes : Dict ClientId M) :
    Dict.sumBy (fun _ v => v) sizes = ∑ c ∈ sizes.keys.toFinset, (sizes.lookup c).getD 0 := by
  rw [List.sum_toFinset _ sizes.keys_nodup]
  show (sizes.entries.map fun x => x.2).sum = ((sizes.entries.map Sigma.fst).map fun c => (sizes.lookup c).getD 0).sum
  rw [List.map_map]
  refine congrArg List.sum (List.map_congr_left fun x hx => ?_)
  rw [Function.comp_apply, (Dict.lookup_eq_some_iff sizes x.1 x.2).mpr hx, Option.getD_some]

variable {md : LMCacheMemPoolMetadata} {K F R : Type} [LinearOrder K] [Field F] [LinearOrder F]

section Sums
variable {d : Dict K (CacheEntry F)}

omit [LinearOrder F] in
/-- The shares of a block are its size. -/
theorem sum_shareOf [CharZero F] {cs : Finset ClientId} {e : CacheEntry F} (k : K) (hcs : ∀ c ∈ e.clients, c ∈ cs)
    (he : e.clients ≠ []) : ∑ c ∈ cs, shareOf [] c k e = e.kvObj.size := by
  have hsub : cs ∩ e.clients.toFinset = e.clients.toFinset :=
    Finset.inter_eq_right.mpr fun c hc => hcs c (List.mem_toFinset.mp hc)
  have hlen : (e.clients.length : F) ≠ 0 := Nat.cast_ne_zero.mpr (List.length_pos_iff.mpr he).ne'
  calc ∑ c ∈ cs, shareOf [] c k e = ∑ c ∈ cs, if c ∈ e.clients.toFinset then e.share else 0 := by
        refine Finset.sum_congr rfl fun c _ => ?_
        simp [shareOf]
    _ = ∑ c ∈ e.clients.toFinset, e.share := by rw [Finset.sum_ite_mem, hsub]
    _ = e.clients.length * e.share := by
        rw [Finset.sum_const, List.toFinset_card_of_nodup e.nodup_clients, nsmul_eq_mul]
    _ = e.kvObj.size := mul_div_cancel₀ _ hlen

omit [LinearOrder F] in
/-- The true usages together are the resident size. -/
theorem sum_trueUsage [CharZero F] {cs : Finset ClientId}
    (hcs : ∀ k e c, d.lookup k = some e → c ∈ e.clients → c ∈ cs) (hshared : ∀ k e, d.lookup k = some e → e.clients ≠ []) :
    ∑ c ∈ cs, trueUsage d [] c = (Dict.sumBy (fun _ e => e.kvObj.size) d : ℕ) := by
  have hswap : ∀ l : List (Sigma fun _ : K => CacheEntry F),
      ∑ c ∈ cs, (l.map fun x => shareOf [] c x.1 x.2).sum = (l.map fun x => ∑ c ∈ cs, shareOf [] c x.1 x.2).sum := by
    intro l
    induction l with
    | nil => simp
    | cons x l ih =>
      simp only [List.map_cons, List.sum_cons]
      rw [Finset.sum_add_distrib, ih]
  have hblock : ∀ x ∈ d.entries, ∑ c ∈ cs, shareOf [] c x.1 x.2 = (x.2.kvObj.size : F) := by
    intro x hx
    have hk := (Dict.lookup_eq_some_iff d x.1 x.2).mpr hx
    exact sum_shareOf x.1 (fun c => hcs x.1 x.2 c hk) (hshared x.1 x.2 hk)
  show ∑ c ∈ cs, (d.entries.map fun x => shareOf [] c x.1 x.2).sum = ((d.entries.map fun x => x.2.kvObj.size).sum : ℕ)
  rw [hswap, List.map_congr_left hblock, Nat.cast_list_sum, List.map_map]
  rfl

end Sums

/-! ## The read side -/

namespace LMCLocalFairBackend

open FairEvictor

variable {b b' : LMCLocalFairBackend md K F R}

/-- **The shares are exact**: the usage of a client is the sum of its shares, and all usages together are the resident
size. -/
structure SharesExact (b : LMCLocalFairBackend md K F R) : Prop where
  usage : ∀ c, (b.evictor.clientCacheSizes.lookup c).getD 0 = trueUsage b.dict [] c
  total : Dict.sumBy (fun _ v => v) b.evictor.clientCacheSizes = b.residentSize

theorem sharesExact_of_usageKnown [CharZero F] (h : b.evictor.UsageKnown b.dict) : b.SharesExact := by
  refine ⟨h.usage, ?_⟩
  rw [sumBy_table, Finset.sum_congr rfl fun c _ => h.usage c]
  apply sum_trueUsage _ h.shared
  intro k e c hk hc
  rw [List.mem_toFinset, ← AList.mem_keys]
  exact h.present k e c hk hc

/-- A call of the read side: a block is registered for the client that stored it, or a client accesses a block. -/
inductive ReadSide (K F R : Type)
  | registerNewCache (a : PutArgs K F R) (kvObj : KVObj)
  | updateOnGet (key : K) (clientId : ClientId) (now : F)

variable [FloatMath F]

/-- The state after a call. A block that is registered under a resident key takes the place of the old one. -/
def readSide (b : LMCLocalFairBackend md K F R) : ReadSide K F R → Except PyError (LMCLocalFairBackend md K F R)
  | .registerNewCache a kvObj => .ok ((b.dropOld a.key).2.putInsert a kvObj)
  | .updateOnGet key clientId now => .ok (b.updateOnGet key clientId now)

/-- The client is the only sharer of the block that it accesses, and the block is not empty. -/
def ChargesTwice (b : LMCLocalFairBackend md K F R) : ReadSide K F R → Prop
  | .registerNewCache _ _ => False
  | .updateOnGet key clientId _ => ∃ e ∈ b.dict.lookup key, e.clients = [clientId] ∧ e.kvObj.size ≠ 0

instance (b : LMCLocalFairBackend md K F R) : ∀ op, Decidable (b.ChargesTwice op)
  | .registerNewCache _ _ => .isFalse fun h => h
  | .updateOnGet key clientId _ =>
    inferInstanceAs (Decidable (∃ e ∈ b.dict.lookup key, e.clients = [clientId] ∧ e.kvObj.size ≠ 0))

/-- An access by a sharer changes no usage. -/
def FreeForSharers (b : LMCLocalFairBackend md K F R) : ReadSide K F R → Prop
  | .registerNewCache _ _ => True
  | .updateOnGet key clientId now => ∀ e ∈ b.dict.lookup key, clientId ∈ e.clients →
      ∀ c, (b.updateOnGet key clientId now).evictor.clientCacheSizes.lookup c = b.evictor.clientCacheSizes.lookup c

variable [IsStrictOrderedRing F]

theorem usageKnown_registerNewCache (h : b.evictor.UsageKnown b.dict) (a : PutArgs K F R) (kvObj : KVObj) :
    ((b.dropOld a.key).2.putInsert a kvObj).evictor.UsageKnown ((b.dropOld a.key).2.putInsert a kvObj).dict := by
  have hkey : a.key ∉ (b.dropOld a.key).2.dict := by
    rw [← AList.lookup_eq_none, lookup_dropOld, if_pos rfl]
  exact (usageKnown_dropOld h a.key).registerNewCache hkey _ rfl a.clientId a.storedAt

omit [IsStrictOrderedRing F] in
theorem table_updateOnGet {key : K} {old : CacheEntry F} (hk : b.dict.lookup key = some old) (c : ClientId) (now : F) :
    (b.updateOnGet key c now).evictor.clientCacheSizes =
      accessSizes b.evictor.clientCacheSizes old (old.updateAccessTime c now).updateValue c := by
  unfold LMCLocalFairBackend.updateOnGet FairEvictor.updateOnGet
  rw [hk]
  simp only [clientCacheSizes_recordValue]

omit [IsStrictOrderedRing F] [Field F] [FloatMath F] in
/-- An access that charges nobody twice. -/
theorem not_chargesTwice_iff {key : K} {c : ClientId} {now : F} :
    ¬ b.ChargesTwice (.updateOnGet key c now) ↔
      ∀ e, b.dict.lookup key = some e → e.clients ≠ [c] ∨ e.kvObj.size = 0 := by
  constructor
  · intro h e he
    by_contra hno
    rw [not_or, not_not] at hno
    exact h ⟨e, he, hno⟩
  · rintro h ⟨e, he, hsole, hsize⟩
    exact (h e he).elim (fun hne => hne hsole) hsize

/-- A call that charges nobody twice leaves the usage known. -/
theorem usageKnown_readSide {op : ReadSide K F R} (h : b.evictor.UsageKnown b.dict) (hop : ¬ b.ChargesTwice op)
    (hstep : b.readSide op = .ok b') : b'.evictor.UsageKnown b'.dict := by
  cases op with
  | registerNewCache a kvObj =>
    cases hstep
    exact usageKnown_registerNewCache h a kvObj
  | updateOnGet key c now =>
    cases hstep
    exact h.updateOnGet now (not_chargesTwice_iff.mp hop)

/-- A sole owner that comes back has twice the size of its block in its usage. -/
theorem not_sharesExact_of_chargesTwice {op : ReadSide K F R} (h : b.evictor.UsageKnown b.dict) (hop : b.ChargesTwice op)
    (hstep : b.readSide op = .ok b') : ¬ b'.SharesExact := by
  cases op with
  | registerNewCache a kvObj => exact hop.elim
  | updateOnGet key c now =>
    cases hstep
    obtain ⟨old, hk, hsole, hsize⟩ := hop
    have hmem : c ∈ old.clients := hsole ▸ List.mem_singleton_self c
    let e := (old.updateAccessTime c now).updateValue
    have hclients : e.clients = old.clients := (old.clients_updateAccessTime c now).trans (if_pos hmem)
    have hdict : (b.updateOnGet key c now).dict = b.dict.set key e := by
      unfold LMCLocalFairBackend.updateOnGet FairEvictor.updateOnGet
      rw [hk]
    have hsame : trueUsage (b.dict.set key e) [] c = trueUsage b.dict [] c := by
      have hshare : e.share = old.share := by
        rw [CacheEntry.share, CacheEntry.share, hclients]
        rfl
      rw [trueUsage_set, trueUsage_erase hk List.not_mem_nil, hclients, hshare]
    intro hexact
    have husage := hexact.usage c
    rw [table_updateOnGet hk, accessSizes_of_sole hsole hclients, Dict.lookup_upsert, if_pos rfl, Option.getD_some,
      hdict, hsame, h.usage c, add_eq_left] at husage
    exact hsize (Nat.cast_eq_zero.mp husage)

omit [IsStrictOrderedRing F] in
theorem freeForSharers_of_not_chargesTwice {op : ReadSide K F R} (h : b.evictor.UsageKnown b.dict)
    (hop : ¬ b.ChargesTwice op) : b.FreeForSharers op := by
  cases op with
  | registerNewCache a kvObj => trivial
  | updateOnGet key c now =>
    intro old hk hc c'
    have hclients := (old.clients_updateAccessTime c now).trans (if_pos hc)
    rw [table_updateOnGet hk]
    exact h.lookup_accessSizes_of_sharer hk (e := (old.updateAccessTime c now).updateValue) rfl hc hclients (not_chargesTwice_iff.mp hop old hk) c'

/-- **The shares stay exact**, and accesses by sharers free, **exactly if no sole owner comes back** to its block. -/
theorem sharesExact_iff (ops : List (ReadSide K F R)) :
    (EveryState readSide SharesExact (new md K F R) ops ∧ Along readSide FreeForSharers (new md K F R) ops) ↔
      Along readSide (fun b op => ¬ b.ChargesTwice op) (new md K F R) ops := by
  obtain ⟨t, ht⟩ : ∃ t, Reaches readSide (new md K F R) ops t := by
    apply exists_reaches
    rintro b (⟨a, kvObj⟩ | ⟨key, c, now⟩)
    · exact ⟨_, rfl⟩
    · exact ⟨_, rfl⟩
  have hstep : ∀ (b : LMCLocalFairBackend md K F R) (op : ReadSide K F R) b', b.evictor.UsageKnown b.dict →
      ¬ b.ChargesTwice op → b.readSide op = .ok b' → b'.evictor.UsageKnown b'.dict :=
    fun _ _ _ h hop hs => usageKnown_readSide h hop hs
  have hfree : ∀ (b : LMCLocalFairBackend md K F R) (op : ReadSide K F R), b.evictor.UsageKnown b.dict →
      ¬ b.ChargesTwice op → b.FreeForSharers op := fun _ _ h hop => freeForSharers_of_not_chargesTwice h hop
  have hexact : ∀ (b : LMCLocalFairBackend md K F R) (op : ReadSide K F R) b', b.evictor.UsageKnown b.dict →
      b.readSide op = .ok b' →
        ((¬ b.ChargesTwice op ↔ b'.SharesExact) ∧ (¬ b.ChargesTwice op → b'.evictor.UsageKnown b'.dict)) := by
    intro b op b' h hs
    refine ⟨⟨fun hop => sharesExact_of_usageKnown (usageKnown_readSide h hop hs), ?_⟩,
      fun hop => usageKnown_readSide h hop hs⟩
    exact fun hshares hop => not_sharesExact_of_chargesTwice h hop hs hshares
  have hiff := along_iff_everyState_of_reaches (fun b h => sharesExact_of_usageKnown h) hexact usageKnown_new ht
  exact ⟨fun h => hiff.mpr h.1, fun h => ⟨hiff.mp h, h.mono_of_invariant hstep hfree usageKnown_new⟩⟩

/-- Once client 2 shares the block, client 1 comes back to it for nothing. -/
theorem sharesExact_shared : EveryState readSide SharesExact (new .threeChunks ℕ ℚ Unit)
    [.registerNewCache (argsOf 0 2 []) ⟨0, 4, 2⟩, .updateOnGet 0 2 1, .updateOnGet 0 1 2] :=
  ((sharesExact_iff _).mpr (by decide +kernel)).1

/-- Client 1 stores a block of four bytes and reads it again: its usage is eight bytes. -/
theorem sole_owner_charged_twice : ∃ b, Reaches readSide (new .threeChunks ℕ ℚ Unit)
    [.registerNewCache (argsOf 0 2 []) ⟨0, 4, 2⟩, .updateOnGet 0 1 1] b ∧ ¬ b.SharesExact := by
  have hrun : ∃ b, Reaches readSide (new .threeChunks ℕ ℚ Unit)
      [.registerNewCache (argsOf 0 2 []) ⟨0, 4, 2⟩, .updateOnGet 0 1 1] b ∧
      (b.evictor.clientCacheSizes.lookup 1).getD 0 = 8 ∧ trueUsage b.dict [] 1 = 4 := by decide +kernel
  obtain ⟨b, hb, husage, htrue⟩ := hrun
  refine ⟨b, hb, fun h => ?_⟩
  have hone := h.usage 1
  rw [husage, htrue] at hone
  exact absurd hone (by norm_num)

end LMCLocalFairBackend

end FairCache
