import FairCache.Fair.LeafFirst
import Mathlib.Analysis.SpecialFunctions.Log.Basic

/-!
# Scores and stamps

A score is the logarithm of a sum over the clients that share the block, so it follows their stamps.

* `LawfulFloatMath` : what is relied on of `math.exp` and `math.log`; `calculateValue_eq` : the score without its scaling;
* `calculateValue_lt` : a block that every sharer of another one shares, and accessed later, is scored above it;
* `stamp` : when a client last accessed a block; `Stamped` : the stamps are ordered along prefixes;
* `Stamped.scoresOrdered` : then so are the scores.
-/

namespace FairCache

open Lib

/-! ## Scores -/

/-- What is relied on of `math.exp` and `math.log`. -/
class LawfulFloatMath (F : Type) [Field F] [LinearOrder F] [FloatMath F] : Prop where
  exp_pos : ∀ x : F, 0 < FloatMath.exp x
  exp_add : ∀ x y : F, FloatMath.exp (x + y) = FloatMath.exp x * FloatMath.exp y
  exp_lt : ∀ x y : F, x < y → FloatMath.exp x < FloatMath.exp y
  log_exp : ∀ x : F, FloatMath.log (FloatMath.exp x) = x
  log_mul : ∀ x y : F, 0 < x → 0 < y → FloatMath.log (x * y) = FloatMath.log x + FloatMath.log y
  log_lt : ∀ x y : F, 0 < x → x < y → FloatMath.log x < FloatMath.log y

noncomputable instance : FloatMath ℝ := ⟨Real.exp, Real.log⟩

instance : LawfulFloatMath ℝ where
  exp_pos := Real.exp_pos
  exp_add := Real.exp_add
  exp_lt _ _ := Real.exp_lt_exp.mpr
  log_exp := Real.log_exp
  log_mul _ _ hx hy := Real.log_mul hx.ne' hy.ne'
  log_lt _ _ := Real.log_lt_log

namespace CacheEntry

variable {F : Type} [Field F] [LinearOrder F] [FloatMath F]

/-- The entry decays at the rate `l`, its score is up to date, and it is shared. -/
structure Scored (l : F) (e : CacheEntry F) : Prop where
  lambdaVal : e.lambdaVal = l
  value : e.value = e.calculateValue
  shared : e.clients ≠ []

/-- The sum in the score. -/
def weight (e : CacheEntry F) : F := (e.accessMap.values.map fun t => FloatMath.exp (e.lambdaVal * t)).sum

omit [LinearOrder F] in
theorem foldl_exp (m : F) (as : List F) : ∀ s : F,
    as.foldl (fun sumExp x => sumExp + FloatMath.exp (x - m)) s = s + (as.map fun x => FloatMath.exp (x - m)).sum := by
  induction as with
  | nil => exact fun s => (add_zero s).symm
  | cons a as ih =>
    intro s
    rw [List.foldl_cons, ih, List.map_cons, List.sum_cons, add_assoc]

variable [IsStrictOrderedRing F] [LawfulFloatMath F]

omit [IsStrictOrderedRing F] in
theorem sum_exp_sub (m : F) (as : List F) :
    (as.map fun x => FloatMath.exp (x - m)).sum = (as.map FloatMath.exp).sum * FloatMath.exp (-m) := by
  induction as with
  | nil => exact (zero_mul _).symm
  | cons a as ih =>
    rw [List.map_cons, List.map_cons, List.sum_cons, List.sum_cons, ih, add_mul, sub_eq_add_neg, LawfulFloatMath.exp_add]

theorem sum_exp_nonneg (as : List F) : 0 ≤ (as.map FloatMath.exp).sum := by
  refine List.sum_nonneg fun x hx => ?_
  obtain ⟨a, -, rfl⟩ := List.mem_map.mp hx
  exact (LawfulFloatMath.exp_pos a).le

theorem sum_exp_pos {as : List F} (h : as ≠ []) : 0 < (as.map FloatMath.exp).sum := by
  obtain ⟨a, as, rfl⟩ := List.exists_cons_of_ne_nil h
  rw [List.map_cons, List.sum_cons]
  exact add_pos_of_pos_of_nonneg (LawfulFloatMath.exp_pos a) (sum_exp_nonneg as)

/-- **The scaling by the largest stamp does not count**: the score of a shared block is the logarithm of its weight. -/
theorem calculateValue_eq {e : CacheEntry F} (h : e.accessMap.values ≠ []) : e.calculateValue = FloatMath.log e.weight := by
  have hmap : (e.accessMap.values.map fun t => FloatMath.exp (e.lambdaVal * t)) =
      (e.accessMap.values.map (e.lambdaVal * ·)).map FloatMath.exp := by
    rw [List.map_map]
    rfl
  have hne : e.accessMap.values.map (e.lambdaVal * ·) ≠ [] := fun hnil => h (List.map_eq_nil_iff.mp hnil)
  unfold calculateValue weight
  rw [hmap]
  generalize e.accessMap.values.map (e.lambdaVal * ·) = as at hne ⊢
  cases as with
  | nil => exact absurd rfl hne
  | cons a as =>
    dsimp only
    generalize as.foldl max a = m
    rw [foldl_exp, zero_add, sum_exp_sub,
      LawfulFloatMath.log_mul _ _ (sum_exp_pos (List.cons_ne_nil a as)) (LawfulFloatMath.exp_pos _), LawfulFloatMath.log_exp]
    ring

omit [FloatMath F] [LawfulFloatMath F] in
/-- A sum over stamps grows with the stamps and with the clients. -/
theorem sum_values_lt {g : F → F} (hpos : ∀ t, 0 < g t) (hmono : ∀ t u, t < u → g t < g u) :
    ∀ (l : List (Sigma fun _ : ClientId => F)) (d : Dict ClientId F), l.NodupKeys →
      (∀ x ∈ l, ∃ u, d.lookup x.1 = some u ∧ x.2 < u) →
      (l.map fun x => g x.2).sum ≤ (d.values.map g).sum ∧ (l ≠ [] → (l.map fun x => g x.2).sum < (d.values.map g).sum) := by
  intro l
  induction l with
  | nil =>
    intro d _ _
    refine ⟨List.sum_nonneg fun y hy => ?_, fun h => absurd rfl h⟩
    obtain ⟨t, -, rfl⟩ := List.mem_map.mp hy
    exact (hpos t).le
  | cons x l ih =>
    intro d hnodup hlater
    obtain ⟨hx, hl⟩ := List.nodupKeys_cons.mp hnodup
    obtain ⟨u, hu, hxu⟩ := hlater x List.mem_cons_self
    -- the other clients have their stamps in the rest of the dictionary
    have hrest : ∀ y ∈ l, ∃ u, (d.erase x.1).lookup y.1 = some u ∧ y.2 < u := by
      intro y hy
      obtain ⟨v, hv, hyv⟩ := hlater y (List.mem_cons_of_mem _ hy)
      have hne : y.1 ≠ x.1 := fun heq => hx (heq ▸ List.mem_map_of_mem hy)
      exact ⟨v, by rw [AList.lookup_erase_ne hne, hv], hyv⟩
    have hsum : (d.values.map g).sum = g u + ((d.erase x.1).values.map g).sum := by
      rw [((Dict.values_perm_erase hu).map g).sum_eq, List.map_cons, List.sum_cons]
    have hlt : ((x :: l).map fun x => g x.2).sum < (d.values.map g).sum := by
      rw [hsum, List.map_cons, List.sum_cons]
      exact add_lt_add_of_lt_of_le (hmono _ _ hxu) (ih _ hl hrest).1
    exact ⟨hlt.le, fun _ => hlt⟩

/-- **A block that every sharer of another one shares, and accessed later, is scored above it.** -/
theorem calculateValue_lt {e f : CacheEntry F} (hl : 0 < e.lambdaVal) (hlambda : f.lambdaVal = e.lambdaVal)
    (hshared : f.clients ≠ [])
    (hlater : ∀ c t, f.accessMap.lookup c = some t → ∃ u, e.accessMap.lookup c = some u ∧ t < u) :
    f.calculateValue < e.calculateValue := by
  have hentries : f.accessMap.entries ≠ [] := fun hnil => hshared (by
    rw [clients, AList.keys, hnil]
    rfl)
  have hmono : ∀ t u : F, t < u → FloatMath.exp (e.lambdaVal * t) < FloatMath.exp (e.lambdaVal * u) :=
    fun t u h => LawfulFloatMath.exp_lt _ _ (mul_lt_mul_of_pos_left h hl)
  have hsum := (sum_values_lt (fun t => LawfulFloatMath.exp_pos (e.lambdaVal * t)) hmono f.accessMap.entries e.accessMap
    f.accessMap.nodupKeys fun x hx => hlater x.1 x.2 ((Dict.lookup_eq_some_iff _ _ _).mpr hx)).2 hentries
  have hweight : f.weight < e.weight := by
    unfold weight
    rw [hlambda, Dict.values, List.map_map]
    exact hsum
  have hfvalues : f.accessMap.values ≠ [] := fun hnil => hentries (List.map_eq_nil_iff.mp hnil)
  have hevalues : e.accessMap.values ≠ [] := by
    intro hnil
    obtain ⟨x, l, hx⟩ := List.exists_cons_of_ne_nil hentries
    obtain ⟨u, hu, -⟩ := hlater x.1 x.2 ((Dict.lookup_eq_some_iff _ _ _).mpr (hx ▸ List.mem_cons_self))
    have hmem := List.mem_map_of_mem (f := fun x => x.2) ((Dict.lookup_eq_some_iff _ _ _).mp hu)
    rw [show e.accessMap.entries.map (fun x => x.2) = [] from hnil] at hmem
    exact List.not_mem_nil hmem
  rw [calculateValue_eq hfvalues, calculateValue_eq hevalues]
  refine LawfulFloatMath.log_lt _ _ ?_ hweight
  refine List.sum_pos _ (fun y hy => ?_) (by rwa [Ne, List.map_eq_nil_iff])
  obtain ⟨t, -, rfl⟩ := List.mem_map.mp hy
  exact LawfulFloatMath.exp_pos _

omit [Field F] [LinearOrder F] [FloatMath F] [IsStrictOrderedRing F] [LawfulFloatMath F] in
/-- Whoever accesses a block shares it. -/
theorem clients_updateAccessTime_ne_nil (e : CacheEntry F) (c : ClientId) (now : F) :
    (e.updateAccessTime c now).clients ≠ [] := by
  rw [clients_updateAccessTime]
  split_ifs with hc
  · exact List.ne_nil_of_mem hc
  · exact List.append_ne_nil_of_right_ne_nil _ (List.cons_ne_nil c [])

end CacheEntry

namespace LMCLocalFairBackend

open FairEvictor

variable {md : LMCacheMemPoolMetadata} {K F R : Type} [LinearOrder K] [LinearOrder F]

/-! ## Stamps -/

/-- When the client last accessed the block, if it is resident and the client shares it. -/
def stamp (b : LMCLocalFairBackend md K F R) (k : K) (c : ClientId) : Option F :=
  (b.dict.lookup k).bind fun e => e.accessMap.lookup c

variable [Field F] [FloatMath F]

/-- **Stamps in the order of the prefixes**: the blocks have the decay rate `l`, their scores are up to date and all stamps
are before `bound`; and whoever shares a block shares the resident blocks that it extends, and accessed them later. -/
structure Stamped (before : K → K → Prop) (l bound : F) (b : LMCLocalFairBackend md K F R) : Prop where
  entries : ∀ k e, b.dict.lookup k = some e → e.Scored l
  earlier : ∀ k c t, b.stamp k c = some t → t < bound
  later : ∀ k j, k ∈ b.dict → before k j → ∀ c t, b.stamp j c = some t → ∃ u, b.stamp k c = some u ∧ t < u

variable {before : K → K → Prop} {l bound : F} {b : LMCLocalFairBackend md K F R}

/-- **Then the scores are in this order too.** -/
theorem Stamped.scoresOrdered [IsStrictOrderedRing F] [LawfulFloatMath F] (h : b.Stamped before l bound) (hl : 0 < l)
    (cacheSize : ℕ) (r : List K) (now : F) : b.evictor.ScoresOrdered before b.dict cacheSize r now := by
  intro k e hk _ _ j f hj hb
  have he := h.entries k e hk
  have hf := h.entries j f hj
  have hvalue : f.calculateValue < e.calculateValue := by
    refine CacheEntry.calculateValue_lt (he.lambdaVal ▸ hl) (hf.lambdaVal.trans he.lambdaVal.symm) hf.shared fun c t hc => ?_
    have hstamp : b.stamp j c = some t := by rw [stamp, hj]; exact hc
    obtain ⟨u, hu, htu⟩ := h.later k j (Dict.mem_of_lookup hk) hb c t hstamp
    rw [stamp, hk] at hu
    exact ⟨u, hu, htu⟩
  exact Prod.Lex.left _ _ (by rw [he.value, hf.value]; exact hvalue)

/-! ## Accesses -/

/-- An access stamps one block for one client. -/
theorem stamp_updateOnGet (b : LMCLocalFairBackend md K F R) {key : K} (hkey : key ∈ b.dict) (c : ClientId) (now : F) (k : K)
    (c' : ClientId) : (b.updateOnGet key c now).stamp k c' = if k = key ∧ c' = c then some now else b.stamp k c' := by
  obtain ⟨old, hold⟩ := (Dict.mem_iff_lookup _ _).mp hkey
  unfold stamp updateOnGet FairEvictor.updateOnGet
  rw [hold]
  dsimp only
  rw [Dict.lookup_set]
  by_cases hk : k = key
  · subst hk
    rw [if_pos rfl, hold, Option.bind_some, Option.bind_some]
    show (old.accessMap.set c now).lookup c' = _
    rw [Dict.lookup_set]
    exact if_congr (by simp) rfl rfl
  · rw [if_neg hk, if_neg fun h => hk h.1]

/-- The accesses to different blocks, one after the other. -/
theorem stamp_foldl_updateOnGet (c : ClientId) (clock : ℕ → F) (ks : List K) :
    ∀ (i : ℕ) (b : LMCLocalFairBackend md K F R), ks.Nodup → (∀ k ∈ ks, k ∈ b.dict) →
      let b' := (ks.zipIdx i).foldl (fun b (key, i) => b.updateOnGet key c (clock i)) b
      (∀ k c', k ∉ ks ∨ c' ≠ c → b'.stamp k c' = b.stamp k c') ∧
        ∀ n k, ks[n]? = some k → b'.stamp k c = some (clock (i + n)) := by
  induction ks with
  | nil => exact fun i b _ _ => ⟨fun _ _ _ => rfl, fun n k h => by cases h⟩
  | cons key ks ih =>
    intro i b hnodup hmem
    obtain ⟨hkey, hks⟩ := List.nodup_cons.mp hnodup
    have hres := hmem key List.mem_cons_self
    have hone := stamp_updateOnGet b hres c (clock i)
    obtain ⟨hsame, hstamped⟩ := ih (i + 1) (b.updateOnGet key c (clock i)) hks
      fun k hk => (mem_updateOnGet b key c (clock i) k).mpr (hmem k (List.mem_cons_of_mem _ hk))
    rw [List.zipIdx_cons, List.foldl_cons]
    refine ⟨fun k c' h => ?_, fun n k h => ?_⟩
    · rw [hsame k c' (h.imp_left fun h hk => h (List.mem_cons_of_mem _ hk)), hone, if_neg]
      rintro ⟨rfl, rfl⟩
      exact h.elim (fun h => h List.mem_cons_self) (fun h => h rfl)
    · cases n with
      | zero =>
        cases h
        rw [hsame key c (Or.inl hkey), hone, if_pos ⟨rfl, rfl⟩, Nat.add_zero]
      | succ n => rw [hstamped n k h, Nat.add_right_comm, Nat.add_assoc]

omit [Field F] [FloatMath F] in
theorem mem_of_stamp {b : LMCLocalFairBackend md K F R} {k : K} {c : ClientId} {t : F} (h : b.stamp k c = some t) :
    k ∈ b.dict := by
  unfold stamp at h
  cases hk : b.dict.lookup k with
  | none =>
    rw [hk] at h
    cases h
  | some e => exact Dict.mem_of_lookup hk

/-- Without blocks there is nothing to be ordered. -/
theorem stamped_empty (h : b.dict = ∅) : b.Stamped before l bound := by
  refine ⟨fun k e hk => ?_, fun k c t ht => ?_, fun k j hk => ?_⟩
  · rw [h] at hk
    cases hk
  · rw [stamp, h] at ht
    cases ht
  · rw [h] at hk
    exact absurd hk (AList.notMem_empty k)

theorem Stamped.mono {bound' : F} (h : b.Stamped before l bound) (hle : bound ≤ bound') : b.Stamped before l bound' :=
  ⟨h.entries, fun k c t ht => lt_of_lt_of_le (h.earlier k c t ht) hle, h.later⟩

/-- An access keeps the rate of its block and brings the score up to date. -/
theorem scored_updateOnGet {key : K} {c : ClientId} {now : F} (h : ∀ k e, b.dict.lookup k = some e → e.Scored l) :
    ∀ k e, (b.updateOnGet key c now).dict.lookup k = some e → e.Scored l := by
  intro k e hk
  unfold updateOnGet FairEvictor.updateOnGet at hk
  cases hold : b.dict.lookup key with
  | none =>
    rw [hold] at hk
    exact h k e hk
  | some old =>
    rw [hold] at hk
    dsimp only at hk
    rw [Dict.lookup_set] at hk
    split_ifs at hk with hkey
    · cases hk
      refine ⟨(h key old hold).lambdaVal, rfl, ?_⟩
      rw [CacheEntry.clients_updateValue]
      exact CacheEntry.clients_updateAccessTime_ne_nil _ _ _
    · exact h k e hk

/-- **The accesses to a block and to all that it extends**, the block itself first. -/
theorem Stamped.updateAfterGet (h : b.Stamped before l bound) {ks : List K} {clock : ℕ → F} (hclock : StrictMono clock)
    (hbound : bound ≤ clock 0) (hnodup : ks.Nodup) (hmem : ∀ k ∈ ks, k ∈ b.dict)
    (hpath : ∀ (n : ℕ) j, ks[n]? = some j → ∀ k, before k j → ∃ m < n, ks[m]? = some k) (ctx : Option ClientId) :
    (b.updateAfterGet ctx ks clock).Stamped before l (clock ks.length) := by
  have hentries : ∀ k e, (b.updateAfterGet ctx ks clock).dict.lookup k = some e → e.Scored l :=
    updateAfterGet_rule (P := fun b => ∀ k e, b.dict.lookup k = some e → e.Scored l)
      (fun b k c now _ _ hb => scored_updateOnGet hb) h.entries
  have hmemAfter := mem_updateAfterGet b ctx ks clock
  have hend : bound ≤ clock ks.length := hbound.trans (hclock.monotone (Nat.zero_le _))
  cases hc : activeClient ctx with
  | none =>
    have hsame : b.updateAfterGet ctx ks clock = b := by
      unfold LMCLocalFairBackend.updateAfterGet
      rw [hc]
    rw [hsame]
    exact h.mono hend
  | some c =>
    obtain ⟨hsame, hstamped⟩ := stamp_foldl_updateOnGet c clock ks.reverse 0 b (List.nodup_reverse.mpr hnodup)
      fun k hk => hmem k (List.mem_reverse.mp hk)
    have hfold : b.updateAfterGet ctx ks clock =
        ks.reverse.zipIdx.foldl (fun b (key, i) => b.updateOnGet key c (clock i)) b := by
      unfold LMCLocalFairBackend.updateAfterGet
      rw [hc]
    rw [← hfold] at hsame hstamped
    -- the block at place `n` is accessed after the `ks.length - 1 - n` that come after it
    have hnew : ∀ n k, ks[n]? = some k → (b.updateAfterGet ctx ks clock).stamp k c = some (clock (ks.length - 1 - n)) := by
      intro n k hk
      have hn : n < ks.length := (List.getElem?_eq_some_iff.mp hk).1
      rw [hstamped (ks.length - 1 - n) k, Nat.zero_add]
      rw [List.getElem?_reverse (by omega), show ks.length - 1 - (ks.length - 1 - n) = n by omega, hk]
    have hold : ∀ k c', k ∉ ks ∨ c' ≠ c → (b.updateAfterGet ctx ks clock).stamp k c' = b.stamp k c' :=
      fun k c' hk => hsame k c' (hk.imp_left fun hk hmem => hk (List.mem_reverse.mp hmem))
    refine ⟨hentries, fun k c' t ht => ?_, fun k j hk hb c' t ht => ?_⟩
    · by_cases hin : k ∈ ks ∧ c' = c
      · obtain ⟨hin, rfl⟩ := hin
        obtain ⟨n, hn⟩ := List.mem_iff_getElem?.mp hin
        have hlt : n < ks.length := (List.getElem?_eq_some_iff.mp hn).1
        obtain rfl : clock (ks.length - 1 - n) = t := Option.some.inj ((hnew n k hn).symm.trans ht)
        exact hclock (by omega)
      · rw [hold k c' (not_and_or.mp hin)] at ht
        exact lt_of_lt_of_le (h.earlier k c' t ht) hend
    · by_cases hc' : c' = c
      · subst hc'
        by_cases hj : j ∈ ks
        · obtain ⟨n, hn⟩ := List.mem_iff_getElem?.mp hj
          obtain ⟨m, hm, hmk⟩ := hpath n j hn k hb
          have hlt : n < ks.length := (List.getElem?_eq_some_iff.mp hn).1
          obtain rfl : clock (ks.length - 1 - n) = t := Option.some.inj ((hnew n j hn).symm.trans ht)
          exact ⟨_, hnew m k hmk, hclock (by omega)⟩
        · rw [hold j c' (Or.inl hj)] at ht
          by_cases hkks : k ∈ ks
          · obtain ⟨m, hm⟩ := List.mem_iff_getElem?.mp hkks
            have hfirst : clock 0 ≤ clock (ks.length - 1 - m) := hclock.monotone (Nat.zero_le _)
            exact ⟨_, hnew m k hm, lt_of_lt_of_le (h.earlier j c' t ht) (hbound.trans hfirst)⟩
          · rw [hold k c' (Or.inl hkks)]
            exact h.later k j ((hmemAfter k).mp hk) hb c' t ht
      · rw [hold j c' (Or.inr hc')] at ht
        rw [hold k c' (Or.inr hc')]
        exact h.later k j ((hmemAfter k).mp hk) hb c' t ht

/-! ## Puts -/

section Put
variable {a : PutArgs K F R} {b' : LMCLocalFairBackend md K F R}

/-- After a put its block is stamped by its client; those that stay keep their stamps. -/
theorem KeepsLeaves.stamp_putSections (h : b.KeepsLeaves before a) (hkey : a.key ∉ b.dict) (hput : b.putSections a = .ok b')
    {k : K} {c : ClientId} {t : F} (ht : b'.stamp k c = some t) :
    k = a.key ∧ c = a.clientId ∧ t = a.storedAt ∨ k ≠ a.key ∧ b.stamp k c = some t := by
  obtain ⟨o, hlook⟩ := h.lookup_putSections hkey hput
  unfold stamp at ht ⊢
  rw [hlook] at ht
  split_ifs at ht with hk hv
  · have hset : ((∅ : Dict ClientId F).set a.clientId a.storedAt).lookup c = some t := ht
    rw [Dict.lookup_set] at hset
    split_ifs at hset with hc
    · exact Or.inl ⟨hk, hc, (Option.some.inj hset).symm⟩
    · cases hset
  · cases ht
  · exact Or.inr ⟨hk, ht⟩

/-- **The put of a block before all that it extends**, where only its client shares what extends it. -/
theorem Stamped.put (h : b.Stamped before l bound) (hkeeps : b.KeepsLeaves before a) (hkey : a.key ∉ b.dict)
    (hput : b.putSections a = .ok b') {bound' : F} (hbound : bound ≤ a.storedAt) (hbound' : a.storedAt < bound')
    (hlambda : a.lambdaVal = l) (hbefore : ∀ k ∈ b'.dict, ¬ before k a.key)
    (hfresh : ∀ j, before a.key j → ∀ c t, b.stamp j c = some t → c = a.clientId) : b'.Stamped before l bound' := by
  obtain ⟨o, hlook⟩ := hkeeps.lookup_putSections hkey hput
  have hcases := fun {k c t} => hkeeps.stamp_putSections hkey hput (k := k) (c := c) (t := t)
  refine ⟨fun k e hk => ?_, fun k c t ht => ?_, fun k j hk hb c t ht => ?_⟩
  · rw [hlook] at hk
    split_ifs at hk with hnew hgone
    · cases hk
      refine ⟨hlambda, rfl, ?_⟩
      rw [storedEntry, CacheEntry.clients_updateValue]
      exact CacheEntry.clients_updateAccessTime_ne_nil _ _ _
    · exact h.entries k e hk
  · rcases hcases ht with ⟨-, -, rfl⟩ | ⟨-, hold⟩
    · exact hbound'
    · exact lt_trans (lt_of_lt_of_le (h.earlier k c t hold) hbound) hbound'
  · rcases hcases ht with ⟨rfl, -, -⟩ | ⟨-, hold⟩
    · exact absurd hb (hbefore k hk)
    · by_cases hnew : k = a.key
      · subst hnew
        obtain rfl := hfresh j hb c t hold
        refine ⟨a.storedAt, ?_, lt_of_lt_of_le (h.earlier j a.clientId t hold) hbound⟩
        rw [stamp, hlook, if_pos rfl]
        exact Dict.lookup_set_self ..
      · have hmem := hk
        rw [Dict.mem_iff_lookup] at hmem
        obtain ⟨e, he⟩ := hmem
        have hsame := hlook k
        rw [if_neg hnew] at hsame
        split_ifs at hsame with hgone
        · rw [hsame] at he
          cases he
        · rw [stamp, hsame]
          exact h.later k j (Dict.mem_of_lookup (hsame ▸ he)) hb c t hold

end Put

end LMCLocalFairBackend

end FairCache
