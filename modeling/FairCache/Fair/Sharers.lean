import FairCache.Fair.Invariant

/-!
# Who shares a block

* `sharers b k` : the clients in the access map of the block under `k`;
* `Owned b` : every resident block has one, so at least its creator;
* `mem_sharers_updateAfterGet` : an access adds the client that made it;
* `Owned.put` and the like : every operation keeps the blocks owned.
-/

namespace FairCache.LMCLocalFairBackend

open Lib

variable {md : LMCacheMemPoolMetadata} {K F R : Type} [LinearOrder K] [LinearOrder F]

/-- The clients that share the block under the key. -/
def sharers (b : LMCLocalFairBackend md K F R) (k : K) : List ClientId :=
  ((b.dict.lookup k).map CacheEntry.clients).getD []

/-- Every resident block has a sharer. -/
def Owned (b : LMCLocalFairBackend md K F R) : Prop := ∀ k ∈ b.dict, b.sharers k ≠ []

theorem sharers_of_lookup {b : LMCLocalFairBackend md K F R} {k : K} {e : CacheEntry F}
    (h : b.dict.lookup k = some e) : b.sharers k = e.clients := by
  rw [sharers, h]
  rfl

theorem sharers_congr {b b' : LMCLocalFairBackend md K F R} {k : K} (h : b'.dict.lookup k = b.dict.lookup k) :
    b'.sharers k = b.sharers k := by
  rw [sharers, h, sharers]

theorem nodup_sharers (b : LMCLocalFairBackend md K F R) (k : K) : (b.sharers k).Nodup := by
  unfold sharers
  cases b.dict.lookup k with
  | none => exact List.nodup_nil
  | some e => exact e.nodup_clients

theorem owned_new : (new md K F R).Owned := fun k hk => absurd hk (AList.notMem_empty k)

/-- What only loses blocks keeps the others owned. -/
theorem Owned.mono {b b' : LMCLocalFairBackend md K F R} (h : b.Owned)
    (hdict : ∀ k e, b'.dict.lookup k = some e → b.dict.lookup k = some e) : b'.Owned := by
  intro k hk
  obtain ⟨e, he⟩ := (Dict.mem_iff_lookup _ _).mp hk
  have := hdict k e he
  rw [sharers_congr (this.trans he.symm).symm]
  exact h k (Dict.mem_of_lookup this)

variable [Field F]

theorem Owned.remove {b : LMCLocalFairBackend md K F R} (h : b.Owned) (k : K) : (b.remove k).Owned := by
  refine h.mono fun j e hj => ?_
  rw [lookup_remove] at hj
  split_ifs at hj
  exact hj

variable [FloatMath F]

/-! ## Accesses -/

theorem mem_dict_updateOnGet (b : LMCLocalFairBackend md K F R) (k j : K) (c : ClientId) (now : F) :
    j ∈ (b.updateOnGet k c now).dict ↔ j ∈ b.dict := by
  unfold updateOnGet FairEvictor.updateOnGet
  cases hk : b.dict.lookup k with
  | none => rfl
  | some e =>
    refine (Dict.mem_set _ _ _ _).trans ⟨?_, Or.inr⟩
    rintro (rfl | hj)
    · exact Dict.mem_of_lookup hk
    · exact hj

theorem mem_sharers_updateOnGet (b : LMCLocalFairBackend md K F R) (k j : K) (c c' : ClientId) (now : F) :
    c' ∈ (b.updateOnGet k c now).sharers j ↔ c' ∈ b.sharers j ∨ (c' = c ∧ j = k ∧ j ∈ b.dict) := by
  unfold updateOnGet FairEvictor.updateOnGet
  cases hk : b.dict.lookup k with
  | none =>
    refine ⟨Or.inl, ?_⟩
    rintro (h | ⟨-, rfl, hj⟩)
    · exact h
    · exact absurd hj (AList.lookup_eq_none.mp hk)
  | some e =>
    by_cases hj : j = k
    · subst hj
      have hmem := Dict.mem_of_lookup hk
      have hset : (b.dict.set j (e.updateAccessTime c now).updateValue).lookup j =
        some (e.updateAccessTime c now).updateValue := Dict.lookup_set_self ..
      rw [sharers_of_lookup hset, sharers_of_lookup hk, CacheEntry.clients_updateValue,
        CacheEntry.clients_updateAccessTime]
      split_ifs with hc
      · refine ⟨Or.inl, ?_⟩
        rintro (h | ⟨rfl, -, -⟩)
        · exact h
        · exact hc
      · simp [hmem]
    · have hset : (b.dict.set k (e.updateAccessTime c now).updateValue).lookup j = b.dict.lookup j :=
        Dict.lookup_set_ne _ _ hj
      simp [sharers, hset, hj]

/-- **An access adds the client that made it to the sharers of the blocks it read.** -/
theorem mem_sharers_updateAfterGet (b : LMCLocalFairBackend md K F R) (ctx : Option ClientId) (ks : List K)
    (clock : ℕ → F) (j : K) (c' : ClientId) :
    c' ∈ (b.updateAfterGet ctx ks clock).sharers j ↔
      c' ∈ b.sharers j ∨ (activeClient ctx = some c' ∧ j ∈ ks ∧ j ∈ b.dict) := by
  unfold updateAfterGet
  cases hc : activeClient ctx with
  | none => simp
  | some c =>
    have hfold : ∀ (l : List (K × ℕ)) (b : LMCLocalFairBackend md K F R),
        (c' ∈ (l.foldl (fun b x => b.updateOnGet x.1 c (clock x.2)) b).sharers j ↔
          c' ∈ b.sharers j ∨ (c' = c ∧ j ∈ l.map Prod.fst ∧ j ∈ b.dict)) := by
      intro l
      induction l with
      | nil => simp
      | cons x l ih =>
        intro b
        rw [List.foldl_cons, ih, mem_sharers_updateOnGet, mem_dict_updateOnGet, List.map_cons, List.mem_cons]
        tauto
    have := hfold ks.reverse.zipIdx b
    rw [List.zipIdx_map_fst, List.mem_reverse] at this
    rw [Option.some.injEq, eq_comm (a := c)]
    exact this

theorem mem_dict_updateAfterGet (b : LMCLocalFairBackend md K F R) (ctx : Option ClientId) (ks : List K)
    (clock : ℕ → F) (j : K) : j ∈ (b.updateAfterGet ctx ks clock).dict ↔ j ∈ b.dict :=
  updateAfterGet_rule (P := fun b' => j ∈ b'.dict ↔ j ∈ b.dict)
    (fun b' k c now _ _ h => (mem_dict_updateOnGet b' k j c now).trans h) Iff.rfl

theorem Owned.updateAfterGet {b : LMCLocalFairBackend md K F R} (h : b.Owned) (ctx : Option ClientId) (ks : List K)
    (clock : ℕ → F) : (b.updateAfterGet ctx ks clock).Owned := by
  intro k hk
  obtain ⟨c, hc⟩ := List.exists_mem_of_ne_nil _ (h k ((mem_dict_updateAfterGet b ctx ks clock k).mp hk))
  exact List.ne_nil_of_mem ((mem_sharers_updateAfterGet b ctx ks clock k c).mpr (Or.inl hc))

/-! ## Puts -/

/-- A block after a put was there before, or is the new one of the client that put it. -/
theorem lookup_of_putSections {b b' : LMCLocalFairBackend md K F R} {a : PutArgs K F R}
    (hput : b.putSections a = .ok b') {k : K} {e : CacheEntry F} (he : b'.dict.lookup k = some e) :
    b.dict.lookup k = some e ∨ e.clients = [a.clientId] := by
  rcases putSections_cases hput with ⟨ev, rfl⟩ | ⟨ev, who, ks, o, p, -, -, -, rfl⟩
  · have hdrop := lookup_dropOld b a.key k
    rw [show (b.dropOld a.key).2.dict.lookup k = some e from he] at hdrop
    split_ifs at hdrop
    exact Or.inl hdrop.symm
  · unfold putInsert at he
    simp only [Dict.lookup_set] at he
    split_ifs at he with hk
    · cases he
      right
      unfold FairEvictor.registerNewCache
      rw [CacheEntry.clients_updateValue, CacheEntry.clients_updateAccessTime]
      rfl
    · left
      rw [evicted, lookup_foldl_remove] at he
      split_ifs at he
      have hdrop := lookup_dropOld b a.key k
      rw [he, if_neg hk] at hdrop
      exact hdrop.symm

theorem Owned.put {b b' : LMCLocalFairBackend md K F R} (h : b.Owned) {ctx : Option ClientId} {req : Option String}
    {k : K} {rows : List R} {blocking : Bool} {r : List K} {lambda : Option F} {now storedAt : F}
    (hput : b.put ctx req k rows blocking r lambda now storedAt = .ok b') : b'.Owned := by
  unfold LMCLocalFairBackend.put at hput
  cases hc : activeClient ctx with
  | none => rw [hc] at hput; exact Except.ok.inj hput ▸ h
  | some c =>
    rw [hc] at hput
    intro j hj
    obtain ⟨e, he⟩ := (Dict.mem_iff_lookup _ _).mp hj
    have hold : b.dict.lookup j = some e ∨ e.clients = [c] := by
      cases blocking with
      | true => exact lookup_of_putSections hput he
      | false => exact lookup_of_putSections hput he
    rw [sharers_of_lookup he]
    rcases hold with hold | hnew
    · exact sharers_of_lookup hold ▸ h j (Dict.mem_of_lookup hold)
    · rw [hnew]
      exact List.cons_ne_nil c []

end FairCache.LMCLocalFairBackend
