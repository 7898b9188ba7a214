import FairCache.Fair.Records
import Mathlib.Tactic.Linarith

/-!
# What the threshold pass leaves

Step 1 of `updateOnPut` goes through the blocks in the order of their scores and stops at the first value that is not low.

* `Seen`, `place` : a block of which the global heaps have the current record, and its place in the search;
* `Selected` : what the pass has chosen so far is the front of the blocks in this order, and all of it is low;
* `StopsAtThreshold`, `RemovesDead` : the pass stops at a value that is not low, and then no low value is left;
* `Stopper` : the block at which the pass stops. `removesDead_iff` : no low value is left exactly if every low one is before it;
* `removesDead_of_lambda` : this is so among blocks of one workload type with one sharer each.
-/

namespace FairCache

open Lib

variable {md : LMCacheMemPoolMetadata} {K F R : Type} [LinearOrder K] [LinearOrder F]

namespace FairEvictor

/-! ## The order of the search -/

/-- The block `e` is resident under `k`, and the global heaps have its current record. -/
def Seen (ev : FairEvictor md K F) (d : Dict K (CacheEntry F)) (k : K) (e : CacheEntry F) : Prop :=
  d.lookup k = some e ∧ HeapGroup.Holds ev.globalHeaps e.lambdaVal e.value k

/-- Where the search meets a block: by score, then by the place of its decay rate, then by key. -/
def place (ev : FairEvictor md K F) (k : K) (e : CacheEntry F) : F ×ₗ ℕ ×ₗ K :=
  HeapGroup.rank ev.globalHeaps e.lambdaVal e.value k

variable {ev ev' ev₀ : FairEvictor md K F} {d : Dict K (CacheEntry F)} {x ks : List K} {k : K}

/-- **The search answers the first block that it sees.** -/
theorem getMinValueKey_eq_some_iff : (ev.getMinValueKey d x).1 = some k ↔
    ∃ e, ev.Seen d k e ∧ k ∉ x ∧ ∀ j f, ev.Seen d j f → j ∉ x → ev.place k e ≤ ev.place j f := by
  refine HeapGroup.search_eq_some_iff.trans ?_
  constructor
  · rintro ⟨l, v, hh, hlive, hleast⟩
    obtain ⟨e, he, rfl, rfl, hx⟩ := globalStale_eq_false.mp hlive
    refine ⟨e, ⟨he, hh⟩, hx, fun j f hf hj => ?_⟩
    exact hleast _ _ _ hf.2 (globalStale_eq_false.mpr ⟨f, hf.1, rfl, rfl, hj⟩)
  · rintro ⟨e, ⟨he, hh⟩, hx, hleast⟩
    refine ⟨_, _, hh, globalStale_eq_false.mpr ⟨e, he, rfl, rfl, hx⟩, fun l v j hj hlive => ?_⟩
    obtain ⟨f, hf, rfl, rfl, hjx⟩ := globalStale_eq_false.mp hlive
    exact hleast j f ⟨hf, hj⟩ hjx

theorem not_seen_of_getMinValueKey_none (h : (ev.getMinValueKey d x).1 = none) {e : CacheEntry F} (hk : ev.Seen d k e) :
    k ∈ x := by
  by_contra hx
  have hstale := HeapGroup.search_none h hk.2
  rw [globalStale_eq_false.mpr ⟨e, hk.1, rfl, rfl, hx⟩] at hstale
  cases hstale

theorem Seen.eq {e f : CacheEntry F} (h : ev.Seen d k e) (h' : ev.Seen d k f) : e = f :=
  Option.some.inj (h.1.symm.trans h'.1)

theorem place_inj {j : K} {e f : CacheEntry F} (h : ev.place k e = ev.place j f) : k = j := HeapGroup.rank_inj h

/-- A search changes neither the order nor what is seen of the blocks that it does not exclude. -/
structure SameOrder (ev₀ ev : FairEvictor md K F) (d : Dict K (CacheEntry F)) (x : List K) : Prop where
  keys : ev.globalHeaps.keys = ev₀.globalHeaps.keys
  seen : ∀ k e, k ∉ x → (ev.Seen d k e ↔ ev₀.Seen d k e)

theorem SameOrder.place (h : SameOrder ev₀ ev d x) (k : K) (e : CacheEntry F) : ev.place k e = ev₀.place k e := by
  unfold FairEvictor.place HeapGroup.rank
  rw [h.keys]

theorem SameOrder.search (h : SameOrder ev₀ ev d x) : SameOrder ev₀ (ev.getMinValueKey d x).2 d x := by
  refine ⟨(Dict.keys_mapVals _ _).trans h.keys, fun k e hk => (and_congr_right fun he => ?_).trans (h.seen k e hk)⟩
  exact HeapGroup.mem_search_iff (globalStale_eq_false.mpr ⟨e, he, rfl, rfl, hk⟩)

/-- The first block that is seen in the same order. -/
theorem SameOrder.first (h : SameOrder ev₀ ev d x) : (ev.getMinValueKey d x).1 = some k ↔
    ∃ e, ev₀.Seen d k e ∧ k ∉ x ∧ ∀ j f, ev₀.Seen d j f → j ∉ x → ev₀.place k e ≤ ev₀.place j f := by
  rw [getMinValueKey_eq_some_iff]
  refine exists_congr fun e => ?_
  constructor
  · rintro ⟨hk, hx, hleast⟩
    refine ⟨(h.seen k e hx).mp hk, hx, fun j f hj hjx => ?_⟩
    rw [← h.place, ← h.place]
    exact hleast j f ((h.seen j f hjx).mpr hj) hjx
  · rintro ⟨hk, hx, hleast⟩
    refine ⟨(h.seen k e hx).mpr hk, hx, fun j f hj hjx => ?_⟩
    rw [h.place, h.place]
    exact hleast j f ((h.seen j f hjx).mp hj) hjx

/-! ## The front that is chosen -/

variable [Field F] [FloatMath F] {r : List K} {now : F} {cacheSize : ℕ}

/-- The value `P(now)` of the block is below `value_threshold`. -/
def Below (ev : FairEvictor md K F) (now : F) (e : CacheEntry F) : Prop := e.instantValue now < ev.valueThreshold

/-- **The chosen blocks are the front of what the search sees**, and all of them are low. -/
structure Selected (ev₀ : FairEvictor md K F) (d : Dict K (CacheEntry F)) (r : List K) (now : F) (ev : FairEvictor md K F)
    (ks : List K) : Prop where
  chosen : Chosen d r ev₀ ev ks
  order : SameOrder ev₀ ev d ks
  front : ∀ k ∈ ks, ∃ e, ev₀.Seen d k e ∧ ev₀.Below now e ∧
    ∀ j f, ev₀.Seen d j f → ev₀.place j f < ev₀.place k e → j ∈ ks

namespace Selected

theorem refl (ev : FairEvictor md K F) (d : Dict K (CacheEntry F)) (r : List K) (now : F) : Selected ev d r now ev [] :=
  ⟨Chosen.refl d r ev, ⟨rfl, fun _ _ _ => Iff.rfl⟩, fun _ hk => absurd hk List.not_mem_nil⟩

theorem search (h : Selected ev₀ d r now ev ks) : Selected ev₀ d r now (ev.getMinValueKey d ks).2 ks :=
  ⟨h.chosen.congr rfl, h.order.search, h.front⟩

theorem select (h : Selected ev₀ d r now ev ks) {e : CacheEntry F} (hk : (ev.getMinValueKey d ks).1 = some k) (hr : k ∉ r)
    (he : d.lookup k = some e) (hlow : ev₀.Below now e) :
    Selected ev₀ d r now ((ev.getMinValueKey d ks).2.select k e) (ks ++ [k]) := by
  obtain ⟨e', hseen, hx, hleast⟩ := h.order.first.mp hk
  obtain rfl : e' = e := Option.some.inj (hseen.1.symm.trans he)
  refine ⟨h.search.chosen.select hx hr he, ⟨h.search.order.keys, fun j f hj => ?_⟩, fun j hj => ?_⟩
  · exact h.search.order.seen j f fun hmem => hj (List.mem_append_left _ hmem)
  · rcases List.mem_append.mp hj with hj | hj
    · obtain ⟨f, hf, hflow, hfront⟩ := h.front j hj
      exact ⟨f, hf, hflow, fun i g hi hlt => List.mem_append_left _ (hfront i g hi hlt)⟩
    · obtain rfl := List.mem_singleton.mp hj
      refine ⟨e', hseen, hlow, fun i g hi hlt => ?_⟩
      by_contra hnot
      exact absurd hlt (not_lt.mpr (hleast i g hi fun hmem => hnot (List.mem_append_left _ hmem)))

/-- What is chosen comes before every block that is not low. -/
theorem before_of_not_low (h : Selected ev₀ d r now ev ks) {m : K} {e : CacheEntry F} (hm : ev₀.Seen d m e)
    (hnot : ¬ ev₀.Below now e) (hk : k ∈ ks) : ∃ f, ev₀.Seen d k f ∧ ev₀.place k f < ev₀.place m e := by
  obtain ⟨f, hf, hlow, hfront⟩ := h.front k hk
  refine ⟨f, hf, ?_⟩
  rcases lt_trichotomy (ev₀.place k f) (ev₀.place m e) with hlt | heq | hgt
  · exact hlt
  · obtain rfl := place_inj heq
    exact absurd (hf.eq hm ▸ hlow) hnot
  · obtain ⟨g, hg, hglow, -⟩ := h.front m (hfront m e hm hgt)
    exact absurd (hg.eq hm ▸ hglow) hnot

end Selected

/-- **Step 1 chooses the front**, until there is room or nothing to choose. -/
theorem selected_evictBelowThreshold {ev' : FairEvictor md K F}
    (hres : evictBelowThreshold d cacheSize r now ev₀ [] = (ev', ks)) :
    Selected ev₀ d r now ev' ks ∧ (ev'.HasRoom cacheSize ∨
      ∃ ev₁, Selected ev₀ d r now ev₁ ks ∧ ev' = (ev₁.getMinValueKey d ks).2 ∧ ev₁.NoLowVictim d r now ks) :=
  evictBelowThreshold_exit (P := Selected ev₀ d r now) (fun _ _ h _ => h.search)
    (fun _ _ _ _ h _ hk hr he hlow => h.select hk hr he hlow) ev₀ [] (Selected.refl ev₀ d r now) hres

/-! ## Where it stops -/

/-- Step 1 broke off at a block whose value is not low, while space is lacking. -/
def StopsAtThreshold (ev : FairEvictor md K F) (d : Dict K (CacheEntry F)) (cacheSize : ℕ) (r : List K) (now : F)
    (ks : List K) : Prop :=
  ¬ ev.HasRoom cacheSize ∧
    ∃ m e, (ev.getMinValueKey d ks).1 = some m ∧ m ∉ r ∧ d.lookup m = some e ∧ ¬ ev.Below now e

/-- **When step 1 stops at the threshold, no dead block is left**: every block that is neither chosen nor protected has a
value that is not low. -/
def RemovesDead (ev : FairEvictor md K F) (d : Dict K (CacheEntry F)) (cacheSize : ℕ) (r : List K) (now : F) : Prop :=
  ∀ ev' ks, evictBelowThreshold d cacheSize r now ev [] = (ev', ks) → ev'.StopsAtThreshold d cacheSize r now ks →
    ∀ k e, d.lookup k = some e → k ∉ ks → k ∉ r → ¬ ev.Below now e

/-- The block at which step 1 stops: the search sees it, it is neither protected nor low, the blocks before it are not
protected and low, and with these gone space is still lacking. -/
structure Stopper (ev : FairEvictor md K F) (d : Dict K (CacheEntry F)) (cacheSize : ℕ) (r : List K) (now : F)
    (before : List K) (m : K) (e : CacheEntry F) : Prop where
  seen : ev.Seen d m e
  unprotected : m ∉ r
  notLow : ¬ ev.Below now e
  nodup : before.Nodup
  mem_before : ∀ k, k ∈ before ↔ ∃ f, ev.Seen d k f ∧ ev.place k f < ev.place m e
  low : ∀ k ∈ before, k ∉ r ∧ ∀ f, d.lookup k = some f → ev.Below now f
  lacking : (md.maxBytes : ℤ) < cacheSize + (ev.currentCacheSize - ((before.map (blockSize d)).sum : ℕ))

/-- What stops the pass is a stopper, with the chosen blocks before it. -/
theorem Selected.stopper (h : Selected ev₀ d r now ev ks) (hstop : ev.StopsAtThreshold d cacheSize r now ks) :
    ∃ m e, Stopper ev₀ d cacheSize r now ks m e := by
  obtain ⟨hroom, m, e, hm, hr, he, hnot⟩ := hstop
  obtain ⟨e', hseen, hx, hleast⟩ := h.order.first.mp hm
  obtain rfl : e' = e := Option.some.inj (hseen.1.symm.trans he)
  refine ⟨m, e', hseen, hr, hnot, h.chosen.nodup, fun k => ⟨h.before_of_not_low hseen hnot, ?_⟩, fun k hk => ?_, ?_⟩
  · rintro ⟨f, hf, hlt⟩
    by_contra hk
    exact absurd hlt (not_lt.mpr (hleast k f hf hk))
  · obtain ⟨f, hf, hlow, -⟩ := h.front k hk
    refine ⟨h.chosen.unprotected k hk, fun g hg => ?_⟩
    obtain rfl := Option.some.inj (hf.1.symm.trans hg)
    exact hlow
  · rw [hasRoom_iff, h.chosen.ledger] at hroom
    omega

/-- If there is a stopper the pass stops there. -/
theorem Stopper.stops {before : List K} {m : K} {e : CacheEntry F} (hs : Stopper ev₀ d cacheSize r now before m e)
    {ev' : FairEvictor md K F} (hres : evictBelowThreshold d cacheSize r now ev₀ [] = (ev', ks)) :
    (∀ k ∈ ks, k ∈ before) ∧ ev'.StopsAtThreshold d cacheSize r now ks := by
  obtain ⟨hsel, hexit⟩ := selected_evictBelowThreshold hres
  have hsub : ∀ k ∈ ks, k ∈ before := fun k hk => (hs.mem_before k).mpr (hsel.before_of_not_low hs.seen hs.notLow hk)
  have hroom : ¬ ev'.HasRoom cacheSize := by
    have hle : (ks.map (blockSize d)).sum ≤ (before.map (blockSize d)).sum := by
      obtain ⟨l, hperm, hl⟩ := List.subperm_of_subset hsel.chosen.nodup hsub
      rw [← (hperm.map (blockSize d)).sum_eq]
      exact (hl.map _).sum_le_sum fun _ _ => Nat.zero_le _
    have hlacking := hs.lacking
    rw [hasRoom_iff, hsel.chosen.ledger]
    omega
  refine ⟨hsub, hroom, m, e, ?_, hs.unprotected, hs.seen.1, hs.notLow⟩
  obtain ⟨ev₁, hsel₁, rfl, hno⟩ := hexit.resolve_left hroom
  rw [getMinValueKey_getMinValueKey ev₁ d fun _ hk => hk]
  have hm : m ∉ ks := fun hmem => by
    obtain ⟨f, hf, hlt⟩ := (hs.mem_before m).mp (hsub m hmem)
    rw [hf.eq hs.seen] at hlt
    exact lt_irrefl _ hlt
  cases hsearch : (ev₁.getMinValueKey d ks).1 with
  | none => exact absurd (not_seen_of_getMinValueKey_none hsearch ((hsel₁.order.seen m e hm).mpr hs.seen)) hm
  | some j =>
    obtain ⟨f, hf, -, hleast⟩ := hsel₁.order.first.mp hsearch
    rcases lt_or_eq_of_le (hleast m e hs.seen hm) with hlt | heq
    · -- a block before the stopper would have been chosen
      obtain ⟨hr, hlow⟩ := hs.low j ((hs.mem_before j).mpr ⟨f, hf, hlt⟩)
      rcases hno j hsearch with hr' | ⟨g, hg, hge⟩
      · exact absurd hr' hr
      · exact absurd (hlow g hg) (not_lt.mpr hge)
    · rw [place_inj heq]

/-- **No dead block is left at the threshold exactly if, in the order of the search, no unprotected low block comes after
the first block that is not low and the search sees them all.** -/
theorem removesDead_iff (ev : FairEvictor md K F) (d : Dict K (CacheEntry F)) (cacheSize : ℕ) (r : List K) (now : F) :
    ev.RemovesDead d cacheSize r now ↔ ∀ before m e, Stopper ev d cacheSize r now before m e →
      ∀ k f, d.lookup k = some f → k ∉ r → ev.Below now f → k ∈ before := by
  constructor
  · intro h before m e hs k f hk hr hlow
    obtain ⟨ev', ks, hres⟩ : ∃ ev' ks, evictBelowThreshold d cacheSize r now ev [] = (ev', ks) := ⟨_, _, rfl⟩
    obtain ⟨hsub, hstop⟩ := hs.stops hres
    by_contra hnot
    exact h ev' ks hres hstop k f hk (fun hmem => hnot (hsub k hmem)) hr hlow
  · intro h ev' ks hres hstop k f hk hks hr hlow
    obtain ⟨m, e, hs⟩ := (selected_evictBelowThreshold hres).1.stopper hstop
    exact hks (h ks m e hs k f hk hr hlow)

end FairEvictor

/-! ## Blocks with one sharer -/

namespace CacheEntry

variable [Field F] [FloatMath F]

/-- One client shares the block, and its score is up to date. -/
structure Solo (e : CacheEntry F) : Prop where
  sharer : e.accessMap.values = [e.lastAccessTime]
  value : e.value = e.calculateValue

instance (e : CacheEntry F) : Decidable e.Solo := decidable_of_iff
  (e.accessMap.values = [e.lastAccessTime] ∧ e.value = e.calculateValue) ⟨fun h => ⟨h.1, h.2⟩, fun h => ⟨h.1, h.2⟩⟩

/-- The score is `lambda * t`. -/
theorem Solo.value_eq {e : CacheEntry F} (h : e.Solo) (hexp : FloatMath.exp (0 : F) = 1) (hlog : FloatMath.log (1 : F) = 0) :
    e.value = e.lambdaVal * e.lastAccessTime := by
  rw [h.value]
  unfold calculateValue
  rw [h.sharer]
  simp [hexp, hlog]

/-- `P(now)` is `exp (-lambda * (now - t))`. -/
theorem Solo.instantValue_eq {e : CacheEntry F} (h : e.Solo) (now : F) :
    e.instantValue now = FloatMath.exp (-e.lambdaVal * (now - e.lastAccessTime)) := by
  unfold instantValue
  rw [h.sharer]
  simp

end CacheEntry

namespace FairEvictor

variable [Field F] [FloatMath F] {ev : FairEvictor md K F} {d : Dict K (CacheEntry F)}

/-- **Among blocks of one workload type the scores are in the order of the values**, and no dead block is left. -/
theorem removesDead_of_lambda [IsStrictOrderedRing F] (hmono : ∀ x y : F, x ≤ y → FloatMath.exp x ≤ FloatMath.exp y)
    (hexp : FloatMath.exp (0 : F) = 1) (hlog : FloatMath.log (1 : F) = 0) (hrecorded : Recorded ev d [])
    (hsolo : ∀ k e, d.lookup k = some e → e.Solo) {l : F} (hl : ∀ k e, d.lookup k = some e → e.lambdaVal = l)
    (cacheSize : ℕ) (r : List K) (now : F) : ev.RemovesDead d cacheSize r now := by
  intro ev' ks hres hstop k f hk hks hr hlow
  obtain ⟨m, e, hs⟩ := (selected_evictBelowThreshold hres).1.stopper hstop
  have hseen : ev.Seen d k f := ⟨hk, hrecorded.global k f hk List.not_mem_nil⟩
  refine hks ((hs.mem_before k).mpr ⟨f, hseen, not_le.mp fun hle => hs.notLow ?_⟩)
  have hscore : e.value ≤ f.value := Prod.Lex.monotone_fst _ _ hle
  have he := hs.seen.1
  rw [(hsolo m e he).value_eq hexp hlog, (hsolo k f hk).value_eq hexp hlog, hl m e he, hl k f hk] at hscore
  unfold Below at hlow ⊢
  rw [(hsolo k f hk).instantValue_eq, hl k f hk] at hlow
  rw [(hsolo m e he).instantValue_eq, hl m e he]
  refine (hmono _ _ ?_).trans_lt hlow
  linarith

end FairEvictor

/-! ## A run on concrete inputs -/

namespace LMCLocalFairBackend

/-- Client 1 stores two tokens under the key `k` at `t`. -/
def storeAt (k : ℕ) (lambdaVal t : ℚ) : Act ℕ ℚ Unit :=
  .put { clientId := 1, key := k, kvChunk := List.replicate 2 (), retrievedKeys := [], lambdaVal, now := t, storedAt := t }

/-- Step 1 of a put of two more tokens. -/
def lowPass (b : LMCLocalFairBackend .threeChunks ℕ ℚ Unit) (now : ℚ) : FairEvictor .threeChunks ℕ ℚ × List ℕ :=
  FairEvictor.evictBelowThreshold b.dict (chunkBytes .threeChunks (argsOf 3 2 [])) [] now b.evictor []

/-- A chat block that was just stored has the least score, and hides an API block that is dead for long. -/
theorem chat_block_hides_dead : ∃ b, Reaches act (new .threeChunks ℕ ℚ Unit)
      [storeAt 0 lambdaHigh 1000, storeAt 1 lambdaLow 1100, storeAt 2 lambdaHigh 1100] b ∧
    (∀ x ∈ b.dict.entries, x.2.Solo ∧ 0 < x.2.lambdaVal ∧ x.2.lastAccessTime ≤ 1100) ∧
    ¬ b.evictor.RemovesDead b.dict (chunkBytes .threeChunks (argsOf 3 2 [])) [] 1100 := by
  have hrun : ∃ b, Reaches act (new .threeChunks ℕ ℚ Unit)
        [storeAt 0 lambdaHigh 1000, storeAt 1 lambdaLow 1100, storeAt 2 lambdaHigh 1100] b ∧
      (∀ x ∈ b.dict.entries, x.2.Solo ∧ 0 < x.2.lambdaVal ∧ x.2.lastAccessTime ≤ 1100) ∧ (b.lowPass 1100).2 = [] ∧
      ¬ (b.lowPass 1100).1.HasRoom (chunkBytes .threeChunks (argsOf 3 2 [])) ∧
      ((b.lowPass 1100).1.getMinValueKey b.dict []).1 = some 1 ∧
      ((b.dict.lookup 1).any fun e => 1 / 100 ≤ e.instantValue 1100) = true ∧
      ((b.dict.lookup 0).any fun e => e.instantValue 1100 < 1 / 100) = true := by decide +kernel
  obtain ⟨b, hb, hsolo, hks, hroom, hmin, hlive, hdead⟩ := hrun
  refine ⟨b, hb, hsolo, fun h => ?_⟩
  cases he : b.dict.lookup 1 with
  | none =>
    rw [he] at hlive
    cases hlive
  | some e =>
    cases hf : b.dict.lookup 0 with
    | none =>
      rw [hf] at hdead
      cases hdead
    | some f =>
      rw [he] at hlive
      rw [hf] at hdead
      have hstop : (b.lowPass 1100).1.StopsAtThreshold b.dict (chunkBytes .threeChunks (argsOf 3 2 [])) [] 1100 [] :=
        ⟨hroom, 1, e, hmin, List.not_mem_nil, he, not_lt.mpr (of_decide_eq_true hlive)⟩
      have hlow : f.instantValue 1100 < 1 / 100 := of_decide_eq_true hdead
      exact h _ [] (Prod.ext rfl hks) hstop 0 f hf List.not_mem_nil List.not_mem_nil hlow

end LMCLocalFairBackend

end FairCache
