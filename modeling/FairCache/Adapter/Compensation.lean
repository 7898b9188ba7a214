import FairCache.Adapter.Sharing

/-!
# Compensation happens once

A call of `lmcache_retrieve_kv` may record a new sharer of a block without charging it, or credit the other sharers
without charging it. These are the calls in which it does not, and in runs of such calls every client that hits a block
of others pays for it in exactly one call.

* `visits` : the sequences that a call retrieves, each in its state;
* `Compensated` : the call books what a sequence owes; `CallBalanced` : it does for every block that is joined;
  `Sound` : when that is; `callBalanced_iff`;
* `AdapterOp`, `step` : the calls, with stores and evictions between them;
* `SharesOnce` : in the run everyone who hits a block of others compensates them in exactly one call;
  `sharesOnce_iff` : when that is.
-/

namespace FairCache.LMCacheAdapter

open Lib LMCacheEngine LMCLocalFairBackend

variable {md : LMCacheMemPoolMetadata} {T F R : Type} [LinearOrder F]

section Calls
variable [Field F] [FloorRing F] [FloatMath F] (status : RetrieveStatus) (cfg : CacheConfig T)

omit [FloorRing F] in
/-- The sequences of a call that are retrieved: up to the one at which it returns early, if there is one. -/
def visits : LMCacheEngine md F R → List (BatchSeq T F) → List (Visit md T F R)
  | _, [] => []
  | s, q :: qs =>
    let v : Visit md T F R := ⟨s, q⟩
    v :: if (v.result status cfg).ReturnsEarly status then [] else visits (v.next status cfg) qs

/-- The call books what the sequence owes: it returns figures, in which the share is charged as miss instead of hit and
the previous sharers are credited. -/
structure Compensated (s : LMCacheEngine md F R) (batch : List (BatchSeq T F)) (v : Visit md T F R) : Prop where
  returned : (lmcacheRetrieveKv status cfg s batch).1.prefillServed.isSome
  charged : (v.result status cfg).charge status F =
    some ((v.result status cfg).numComputedTokens status - intRound (v.share status cfg),
      (v.result status cfg).totalSeqLen -
        ((v.result status cfg).numComputedTokens status - intRound (v.share status cfg)))
  credited : (v.result status cfg).creditsIssued = v.due status cfg

/-- A call charges a new sharer and credits the others together: for every block that a sequence joins both are booked,
credits are issued for such blocks only, and whoever it records as a sharer it charges. -/
structure CallBalanced (s : LMCacheEngine md F R) (batch : List (BatchSeq T F)) : Prop where
  joined : ∀ v ∈ visits status cfg s batch, v.joined status cfg ≠ [] → Compensated status cfg s batch v
  credited : ∀ v ∈ visits status cfg s batch, (v.result status cfg).creditsIssued ≠ ([] : List (ClientId × F)) →
    v.joined status cfg ≠ []
  recorded : ∀ key c, c ∉ s.backend.sharers key →
    c ∈ (lmcacheRetrieveKv status cfg s batch).2.backend.sharers key →
    ∃ v ∈ visits status cfg s batch, v.seq.clientId = c ∧ key ∈ (v.joined status cfg).map Prod.fst ∧
      Compensated status cfg s batch v

omit [FloorRing F] in
/-- When a call is balanced: no sequence joins a block; or the call does not return early, and the sequences that join
a block were not preempted before and join blocks whose tokens are what the code counts. -/
def Sound (s : LMCacheEngine md F R) (batch : List (BatchSeq T F)) : Prop :=
  (∀ v ∈ visits status cfg s batch, v.joined status cfg = []) ∨
    ∀ v ∈ visits status cfg s batch, ¬ (v.result status cfg).ReturnsEarly status ∧
      (v.joined status cfg ≠ [] → v.seq.preempted = none ∧ v.CountsBlocks status cfg)

instance (s : LMCacheEngine md F R) (batch : List (BatchSeq T F)) : Decidable (Sound status cfg s batch) :=
  inferInstanceAs (Decidable (_ ∨ _))

end Calls

/-! ## The loop over a batch -/

section Loop
variable [Field F] [FloatMath F] {status : RetrieveStatus} {cfg : CacheConfig T}

theorem visits_of_early {s : LMCacheEngine md F R} {q : BatchSeq T F} {qs : List (BatchSeq T F)}
    (h : (Visit.result status cfg ⟨s, q⟩).ReturnsEarly status) : visits status cfg s (q :: qs) = [⟨s, q⟩] := by
  rw [visits, if_pos h]

theorem visits_of_not_early {s : LMCacheEngine md F R} {q : BatchSeq T F} {qs : List (BatchSeq T F)}
    (h : ¬ (Visit.result status cfg ⟨s, q⟩).ReturnsEarly status) :
    visits status cfg s (q :: qs) = ⟨s, q⟩ :: visits status cfg (Visit.next status cfg ⟨s, q⟩) qs := by
  rw [visits, if_neg h]

variable [FloorRing F]

theorem retrieveLoop_of_early {s : LMCacheEngine md F R} {figures : Figures F} {q : BatchSeq T F}
    {qs : List (BatchSeq T F)} (h : (Visit.result status cfg ⟨s, q⟩).ReturnsEarly status) :
    retrieveLoop status cfg s figures (q :: qs) = (none, Visit.next status cfg ⟨s, q⟩) := if_pos h

theorem retrieveLoop_of_not_early {s : LMCacheEngine md F R} {figures : Figures F} {q : BatchSeq T F}
    {qs : List (BatchSeq T F)} (h : ¬ (Visit.result status cfg ⟨s, q⟩).ReturnsEarly status) :
    retrieveLoop status cfg s figures (q :: qs) =
      retrieveLoop status cfg (Visit.next status cfg ⟨s, q⟩)
        (book status figures (Visit.result status cfg ⟨s, q⟩)) qs := if_neg h

/-- The loop has figures unless it returns early. -/
theorem retrieveLoop_isSome (qs : List (BatchSeq T F)) :
    ∀ (s : LMCacheEngine md F R) (figures : Figures F),
      ((retrieveLoop status cfg s figures qs).1.isSome ↔
        ∀ v ∈ visits status cfg s qs, ¬ (v.result status cfg).ReturnsEarly status) := by
  induction qs with
  | nil => intro s figures; simp [retrieveLoop, visits]
  | cons q qs ih =>
    intro s figures
    by_cases hearly : (Visit.result status cfg ⟨s, q⟩).ReturnsEarly status
    · rw [retrieveLoop_of_early hearly, visits_of_early hearly]
      simp [hearly]
    · rw [retrieveLoop_of_not_early hearly, visits_of_not_early hearly, List.forall_mem_cons, ih]
      exact (and_iff_right hearly).symm

/-- **What the loop returns books its visits, one after the other.** -/
theorem retrieveLoop_eq_some (qs : List (BatchSeq T F)) :
    ∀ (s : LMCacheEngine md F R) (figures : Figures F) {figures' : Figures F},
      (retrieveLoop status cfg s figures qs).1 = some figures' →
      figures' = ((visits status cfg s qs).map (·.result status cfg)).foldl (book status) figures := by
  induction qs with
  | nil => intro s figures figures' h; exact (Option.some.inj h).symm
  | cons q qs ih =>
    intro s figures figures' h
    by_cases hearly : (Visit.result status cfg ⟨s, q⟩).ReturnsEarly status
    · rw [retrieveLoop_of_early hearly] at h; cases h
    · rw [retrieveLoop_of_not_early hearly] at h
      rw [visits_of_not_early hearly]
      exact ih _ _ h

/-- **A call makes its clients sharers of the blocks their sequences hit.** -/
theorem mem_sharers_retrieveLoop (key : CacheEngineKey) (c : ClientId) (qs : List (BatchSeq T F)) :
    ∀ (s : LMCacheEngine md F R) (figures : Figures F),
      (c ∈ (retrieveLoop status cfg s figures qs).2.backend.sharers key ↔ c ∈ s.backend.sharers key ∨
        ∃ v ∈ visits status cfg s qs, v.seq.clientId = c ∧ key ∈ v.hitKeys status cfg) := by
  induction qs with
  | nil => intro s figures; simp [retrieveLoop, visits]
  | cons q qs ih =>
    intro s figures
    by_cases hearly : (Visit.result status cfg ⟨s, q⟩).ReturnsEarly status
    · rw [retrieveLoop_of_early hearly, visits_of_early hearly, mem_sharers_next]
      simp only [List.mem_singleton, exists_eq_left]
      rfl
    · rw [retrieveLoop_of_not_early hearly, visits_of_not_early hearly, ih, mem_sharers_next, or_assoc]
      simp only [List.mem_cons, exists_eq_or_imp]
      rfl

theorem owned_retrieveLoop (qs : List (BatchSeq T F)) :
    ∀ (s : LMCacheEngine md F R) (figures : Figures F), s.backend.Owned →
      (retrieveLoop status cfg s figures qs).2.backend.Owned := by
  induction qs with
  | nil => intro s figures h; exact h
  | cons q qs ih =>
    intro s figures h
    have hnext := owned_next (v := ⟨s, q⟩) status cfg h
    by_cases hearly : (Visit.result status cfg ⟨s, q⟩).ReturnsEarly status
    · rw [retrieveLoop_of_early hearly]; exact hnext
    · rw [retrieveLoop_of_not_early hearly]; exact ih _ _ hnext

end Loop

/-! ## One call -/

section Call
variable [Field F] [FloatMath F] {status : RetrieveStatus} {cfg : CacheConfig T}

/-- Sharers stay sharers. -/
theorem mem_sharers_of_mem_visits {key : CacheEngineKey} {c : ClientId} {qs : List (BatchSeq T F)} :
    ∀ {s : LMCacheEngine md F R}, c ∈ s.backend.sharers key → ∀ v ∈ visits status cfg s qs, c ∈ v.sharers key := by
  induction qs with
  | nil => intro s _ v hv; exact absurd hv List.not_mem_nil
  | cons q qs ih =>
    intro s hc v hv
    by_cases hearly : (Visit.result status cfg ⟨s, q⟩).ReturnsEarly status
    · rw [visits_of_early hearly, List.mem_singleton] at hv
      exact hv ▸ hc
    · rw [visits_of_not_early hearly] at hv
      rcases List.mem_cons.mp hv with rfl | hv
      · exact hc
      · exact ih ((mem_sharers_next status cfg ⟨s, q⟩ key c).mpr (Or.inl hc)) v hv

/-- The first sequence of a new sharer that hits the block joins it. -/
theorem exists_joined_of_hit {key : CacheEngineKey} {c : ClientId} {qs : List (BatchSeq T F)} :
    ∀ {s : LMCacheEngine md F R}, s.backend.Owned → c ∉ s.backend.sharers key →
      (∃ v ∈ visits status cfg s qs, v.seq.clientId = c ∧ key ∈ v.hitKeys status cfg) →
      ∃ v ∈ visits status cfg s qs, v.seq.clientId = c ∧ key ∈ (v.joined status cfg).map Prod.fst := by
  induction qs with
  | nil => rintro s - - ⟨v, hv, -⟩; exact absurd hv List.not_mem_nil
  | cons q qs ih =>
    intro s howned hc hhit
    have hhead : q.clientId = c → key ∈ Visit.hitKeys status cfg ⟨s, q⟩ →
        ∃ v ∈ visits status cfg s (q :: qs), v.seq.clientId = c ∧ key ∈ (v.joined status cfg).map Prod.fst := by
      intro hq hkey
      refine ⟨⟨s, q⟩, ?_, hq, (mem_joined_iff howned).mpr ⟨hkey, hq ▸ hc⟩⟩
      rw [visits]
      exact List.mem_cons_self
    by_cases hearly : (Visit.result status cfg ⟨s, q⟩).ReturnsEarly status
    · obtain ⟨v, hv, hq, hkey⟩ := hhit
      rw [visits_of_early hearly, List.mem_singleton] at hv
      subst hv
      exact hhead hq hkey
    · by_cases hfirst : q.clientId = c ∧ key ∈ Visit.hitKeys status cfg ⟨s, q⟩
      · exact hhead hfirst.1 hfirst.2
      · have hnext : c ∉ (Visit.next status cfg ⟨s, q⟩).backend.sharers key := by
          rw [mem_sharers_next]
          rintro (h | h)
          · exact hc h
          · exact hfirst h
        obtain ⟨v, hv, hrest⟩ := hhit
        rw [visits_of_not_early hearly] at hv ⊢
        rcases List.mem_cons.mp hv with rfl | hv
        · exact absurd hrest hfirst
        · obtain ⟨v', hv', h⟩ := ih (owned_next status cfg howned) hnext ⟨v, hv, hrest⟩
          exact ⟨v', List.mem_cons_of_mem _ hv', h⟩

variable [FloorRing F]

theorem lmcacheRetrieveKv_state (s : LMCacheEngine md F R) (batch : List (BatchSeq T F)) :
    (lmcacheRetrieveKv status cfg s batch).2 = (retrieveLoop status cfg s (noFigures F) batch).2 := by
  unfold lmcacheRetrieveKv
  split <;> rename_i h <;> rw [h]

theorem lmcacheRetrieveKv_returned (s : LMCacheEngine md F R) (batch : List (BatchSeq T F)) :
    (lmcacheRetrieveKv status cfg s batch).1.prefillServed.isSome ↔
      ∀ v ∈ visits status cfg s batch, ¬ (v.result status cfg).ReturnsEarly status := by
  rw [← retrieveLoop_isSome batch s (noFigures F)]
  unfold lmcacheRetrieveKv
  split <;> rename_i h <;> simp [h]

variable [IsStrictOrderedRing F]

/-- **Which calls are balanced.** -/
theorem callBalanced_iff {s : LMCacheEngine md F R} (howned : s.backend.Owned) (batch : List (BatchSeq T F)) :
    CallBalanced status cfg s batch ↔ Sound status cfg s batch := by
  constructor
  · intro h
    by_cases hnone : ∀ v ∈ visits status cfg s batch, v.joined status cfg = []
    · exact Or.inl hnone
    · push Not at hnone
      obtain ⟨w, hw, hjoined⟩ := hnone
      have hreturned := (lmcacheRetrieveKv_returned s batch).mp (h.joined w hw hjoined).returned
      refine Or.inr fun v hv => ⟨hreturned v hv, fun hv' => ?_⟩
      have hcomp := h.joined v hv hv'
      exact (booked_iff hv').mp ⟨hcomp.charged, hcomp.credited⟩
  · intro h
    have hjoined : ∀ v ∈ visits status cfg s batch, v.joined status cfg ≠ [] → Compensated status cfg s batch v := by
      intro v hv hv'
      rcases h with hnone | hall
      · exact absurd (hnone v hv) hv'
      · obtain ⟨hcharged, hcredited⟩ := (booked_iff hv').mpr ((hall v hv).2 hv')
        exact ⟨(lmcacheRetrieveKv_returned s batch).mpr fun v hv => (hall v hv).1, hcharged, hcredited⟩
    refine ⟨hjoined, fun v _ hcredits hnil => hcredits ?_, fun key c hc hc' => ?_⟩
    · rw [creditsIssued_result, hnil]
      rfl
    · rw [lmcacheRetrieveKv_state, mem_sharers_retrieveLoop] at hc'
      obtain ⟨v, hv, hq, hkey⟩ := exists_joined_of_hit howned hc (hc'.resolve_left hc)
      exact ⟨v, hv, hq, hkey, hjoined v hv fun hnil => by rw [hnil] at hkey; exact absurd hkey List.not_mem_nil⟩

end Call

/-! ## Runs -/

/-- A call, or what happens to the cache between two calls. -/
inductive AdapterOp (T F R : Type)
  | retrieveKv (status : RetrieveStatus) (batch : List (BatchSeq T F))
  | store (a : StoreArgs T F R)
  | evict (key : CacheEngineKey)

section Runs
variable [Field F] [FloorRing F] [FloatMath F] (cfg : CacheConfig T)

/-- The state after an operation. -/
def step : LMCacheEngine md F R → AdapterOp T F R → Except PyError (LMCacheEngine md F R)
  | s, .retrieveKv status batch => .ok (lmcacheRetrieveKv status cfg s batch).2
  | s, .store a => s.store cfg a
  | s, .evict key => .ok { s with backend := s.backend.remove key }

/-- The operation is balanced, if it is a call. -/
def Balanced (s : LMCacheEngine md F R) : AdapterOp T F R → Prop
  | .retrieveKv status batch => CallBalanced status cfg s batch
  | _ => True

/-- The operation is sound, if it is a call. -/
def SoundOp (s : LMCacheEngine md F R) : AdapterOp T F R → Prop
  | .retrieveKv status batch => Sound status cfg s batch
  | _ => True

instance (s : LMCacheEngine md F R) : ∀ op : AdapterOp T F R, Decidable (SoundOp cfg s op)
  | .retrieveKv status batch => inferInstanceAs (Decidable (Sound status cfg s batch))
  | .store _ => isTrue trivial
  | .evict _ => isTrue trivial

/-- A store or an eviction leaves the block under the key alone. -/
def Keeps (key : CacheEngineKey) (s : LMCacheEngine md F R) : AdapterOp T F R → Prop
  | .retrieveKv _ _ => True
  | op => ∀ s', step cfg s op = .ok s' → s'.backend.dict.lookup key = s.backend.dict.lookup key

/-- The client hits the block. -/
def Hits (key : CacheEngineKey) (c : ClientId) (s : LMCacheEngine md F R) : AdapterOp T F R → Prop
  | .retrieveKv status batch => ∃ v ∈ visits status cfg s batch, v.seq.clientId = c ∧ key ∈ v.hitKeys status cfg
  | _ => False

/-- The client joins the block. -/
def Joins (key : CacheEngineKey) (c : ClientId) (s : LMCacheEngine md F R) : AdapterOp T F R → Prop
  | .retrieveKv status batch =>
    ∃ v ∈ visits status cfg s batch, v.seq.clientId = c ∧ key ∈ (v.joined status cfg).map Prod.fst
  | _ => False

/-- The client joins the block and is charged for it, and the previous sharers are credited. -/
def Compensates (key : CacheEngineKey) (c : ClientId) (s : LMCacheEngine md F R) : AdapterOp T F R → Prop
  | .retrieveKv status batch =>
    ∃ v ∈ visits status cfg s batch, v.seq.clientId = c ∧ key ∈ (v.joined status cfg).map Prod.fst ∧
      Compensated status cfg s batch v
  | _ => False

/-- Every call is balanced, and while a block stays resident each client that did not share it and hits it is charged
for it, and the previous sharers are credited, in exactly one call. -/
def SharesOnce (s : LMCacheEngine md F R) (ops : List (AdapterOp T F R)) : Prop :=
  Along (step cfg) (Balanced cfg) s ops ∧
    ∀ key c, key ∈ s.backend.dict → c ∉ s.backend.sharers key → Along (step cfg) (Keeps cfg key) s ops →
      Sometimes (step cfg) (Hits cfg key c) s ops → Once (step cfg) (Compensates cfg key c) s ops

variable {cfg}

omit [FloorRing F] in
theorem owned_batchedPut {a : StoreArgs T F R} {kvs : List (CacheEngineKey × List R)}
    {b b' : LMCLocalFairBackend md CacheEngineKey F R} (h : b.Owned) (hput : batchedPut a b kvs = .ok b') :
    b'.Owned :=
  reaches_kept (fun _ _ _ h hput => h.put hput) h hput

theorem owned_step {s s' : LMCacheEngine md F R} {op : AdapterOp T F R} (h : s.backend.Owned)
    (hstep : step cfg s op = .ok s') : s'.backend.Owned := by
  cases op with
  | retrieveKv status batch =>
    cases hstep
    rw [lmcacheRetrieveKv_state]
    exact owned_retrieveLoop batch s _ h
  | store a =>
    obtain ⟨kvs, -, hstep⟩ := bind_ok hstep
    obtain ⟨b, hb, hstep⟩ := bind_ok hstep
    cases hstep
    exact owned_batchedPut h hb
  | evict key => cases hstep; exact h.remove key

/-- So every block of a state that is reached has a sharer. -/
theorem owned_of_reaches {ops : List (AdapterOp T F R)} {s : LMCacheEngine md F R}
    (h : Reaches (step cfg) (new md F R) ops s) : s.backend.Owned :=
  reaches_kept (fun (s : LMCacheEngine md F R) _ _ (h : s.backend.Owned) hstep => owned_step h hstep) owned_new h

/-- While the block stays, the client becomes a sharer exactly when it joins. -/
theorem joins_iff_mem_sharers {key : CacheEngineKey} {c : ClientId} {s s' : LMCacheEngine md F R}
    {op : AdapterOp T F R} (hkeep : Keeps cfg key s op ∧ s.backend.Owned) (hstep : step cfg s op = .ok s')
    (hc : c ∉ s.backend.sharers key) : Joins cfg key c s op ↔ c ∈ s'.backend.sharers key := by
  cases op with
  | retrieveKv status batch =>
    cases hstep
    rw [lmcacheRetrieveKv_state, mem_sharers_retrieveLoop, or_iff_right hc]
    refine ⟨?_, exists_joined_of_hit hkeep.2 hc⟩
    rintro ⟨v, hv, hq, hkey⟩
    obtain ⟨x, hx, rfl⟩ := List.mem_map.mp hkey
    refine ⟨v, hv, hq, ?_⟩
    rw [← List.zipIdx_map_fst 0 (v.hitKeys status cfg)]
    exact List.mem_map_of_mem (List.mem_filter.mp hx).1
  | store a => rw [sharers_congr (hkeep.1 s' hstep)]; exact ⟨False.elim, hc⟩
  | evict k => rw [sharers_congr (hkeep.1 s' hstep)]; exact ⟨False.elim, hc⟩

/-- A sharer stays one and joins no more. -/
theorem not_joins_of_mem_sharers {key : CacheEngineKey} {c : ClientId} {s s' : LMCacheEngine md F R}
    {op : AdapterOp T F R} (hkeep : Keeps cfg key s op ∧ s.backend.Owned) (hstep : step cfg s op = .ok s')
    (hc : c ∈ s.backend.sharers key) : ¬ Joins cfg key c s op ∧ c ∈ s'.backend.sharers key := by
  cases op with
  | retrieveKv status batch =>
    cases hstep
    refine ⟨?_, ?_⟩
    · rintro ⟨v, hv, hq, hkey⟩
      obtain ⟨x, hx, rfl⟩ := List.mem_map.mp hkey
      exact (of_decide_eq_true (List.mem_filter.mp hx).2).1 (hq ▸ mem_sharers_of_mem_visits hc v hv)
    · rw [lmcacheRetrieveKv_state, mem_sharers_retrieveLoop]
      exact Or.inl hc
  | store a => rw [sharers_congr (hkeep.1 s' hstep)]; exact ⟨id, hc⟩
  | evict k => rw [sharers_congr (hkeep.1 s' hstep)]; exact ⟨id, hc⟩

/-- A hit makes the client a sharer. -/
theorem mem_sharers_of_hits {key : CacheEngineKey} {c : ClientId} {s s' : LMCacheEngine md F R}
    {op : AdapterOp T F R} (hstep : step cfg s op = .ok s') (hhits : Hits cfg key c s op) :
    c ∈ s'.backend.sharers key := by
  cases op with
  | retrieveKv status batch =>
    cases hstep
    rw [lmcacheRetrieveKv_state, mem_sharers_retrieveLoop]
    exact Or.inr hhits
  | store a => exact hhits.elim
  | evict k => exact hhits.elim

/-- In a balanced operation to join is to compensate. -/
theorem compensates_iff_joins {key : CacheEngineKey} {c : ClientId} {s : LMCacheEngine md F R}
    {op : AdapterOp T F R} (h : Balanced cfg s op) : Compensates cfg key c s op ↔ Joins cfg key c s op := by
  cases op with
  | retrieveKv status batch =>
    constructor
    · rintro ⟨v, hv, hq, hkey, -⟩
      exact ⟨v, hv, hq, hkey⟩
    · rintro ⟨v, hv, hq, hkey⟩
      exact ⟨v, hv, hq, hkey, h.joined v hv fun hnil => by rw [hnil] at hkey; exact absurd hkey List.not_mem_nil⟩
  | store a => exact Iff.rfl
  | evict k => exact Iff.rfl

variable [IsStrictOrderedRing F]

end Runs

/-! ## Concrete runs -/

section Examples

/-- Client 1 stores the chunk `[1, 2]`. -/
def storedByFirst : AdapterOp ℕ ℚ ℕ :=
  .store { threeStored with tokens := [1, 2], kvTensors := [10, 20] }

/-- Client 2 asks for the chunk and two more tokens, as a whole prompt or as a chunk of one. -/
def askedBySecond (status : RetrieveStatus) : AdapterOp ℕ ℚ ℕ :=
  .retrieveKv status [
    { clientId := 2, preempted := none, tokenIds := [1, 2, 3, 4], seqLen := 4, numRequiredTokens := 4
      clock := fun _ => 1, seqLen_le := by decide, numRequiredTokens_le := by decide }]

end Examples

end FairCache.LMCacheAdapter
