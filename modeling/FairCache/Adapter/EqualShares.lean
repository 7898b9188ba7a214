import FairCache.Adapter.Compensation
import FairCache.Cache.Prefixes

/-!
# Sharers end up with equal shares

Everyone who joins a block pays a share of it, and those who shared it before are credited what their shares shrink by.

* `SplitEqually w l f` : `f` splits `w` equally among `l`; `SplitEqually.join`, `SplitEqually.sum_eq`;
* `attributed` : what a retrieval attributes to the block; `missShare`, `credit` : what the adapter books of it;
  `sum_missShare`, `sum_credit` : these are the code's figures, block by block;
* `netCost` : what a client pays for the block in a run, less its credits;
* `equalShares` : in the end all sharers have paid the same.
-/

namespace FairCache.LMCacheAdapter

open Lib LMCacheEngine LMCLocalFairBackend

variable {md : LMCacheMemPoolMetadata} {T F R : Type}

/-! ## Equal shares -/

section Split
variable [Field F]

/-- Each client in `l` has an equal share of `w`, and no other client has any. -/
def SplitEqually (w : F) (l : List ClientId) (f : ClientId → F) : Prop := ∀ c, f c = if c ∈ l then w / l.length else 0

variable {w : F} {l l' : List ClientId} {f : ClientId → F}

/-- The order of the clients does not matter. -/
theorem SplitEqually.congr (h : SplitEqually w l f) (hl : l.Nodup) (hl' : l'.Nodup) (hmem : ∀ c, c ∈ l' ↔ c ∈ l) :
    SplitEqually w l' f := by
  have hlen := ((List.perm_ext_iff_of_nodup hl' hl).mpr hmem).length_eq
  intro c
  rw [h c, hlen]
  exact if_congr (hmem c).symm rfl rfl

/-- **A newcomer pays its share, and everyone else is credited the difference.** -/
theorem SplitEqually.join (h : SplitEqually w l f) {c₀ : ClientId} (hc₀ : c₀ ∉ l) :
    SplitEqually w (c₀ :: l) fun c => f c + ((if c = c₀ then w / (l.length + 1) else 0) -
      if c ∈ l then w / l.length - w / (l.length + 1) else 0) := by
  intro c
  dsimp only
  rw [h c, List.length_cons, Nat.cast_succ]
  by_cases hc : c = c₀
  · subst hc
    rw [if_neg hc₀, if_pos rfl, if_neg hc₀, if_pos List.mem_cons_self, sub_zero, zero_add]
  · by_cases hmem : c ∈ l
    · rw [if_pos hmem, if_neg hc, if_pos hmem, if_pos (List.mem_cons_of_mem _ hmem)]
      ring
    · have hnot : c ∉ c₀ :: l := fun hcons => (List.mem_cons.mp hcons).elim hc hmem
      rw [if_neg hmem, if_neg hc, if_neg hmem, if_neg hnot, sub_zero, add_zero]

/-- Together the shares are the whole. -/
theorem SplitEqually.sum_eq [CharZero F] (h : SplitEqually w l f) (hl : l ≠ []) : (l.map f).sum = w := by
  have hlen : (l.length : F) ≠ 0 := Nat.cast_ne_zero.mpr (List.length_pos_iff.mpr hl).ne'
  have hconst : l.map f = l.map fun _ => w / l.length := List.map_congr_left fun c hc => (h c).trans (if_pos hc)
  rw [hconst, List.map_const', List.sum_replicate, nsmul_eq_mul, mul_div_cancel₀ _ hlen]

end Split

/-! ## What is booked for a block -/

section Booked
variable [Field F]

/-- The miss share of a retrieval, `PREFILL_WEIGHT_COST * tok / (k + 1)`, for an entry of its attribution. -/
def missShare (tok : ℕ) (wasNew : Bool) (oldClients : List ClientId) : F :=
  if wasNew && 0 < oldClients.length then prefillWeightCost * ((tok : F) / (oldClients.length + 1)) else 0

/-- The credits of a client for an entry of the attribution: one for each time that it is among the old clients. -/
def credit (c : ClientId) (tok : ℕ) (wasNew : Bool) (oldClients : List ClientId) : F :=
  if wasNew && 0 < oldClients.length then (oldClients.count c : F) * creditPerOld tok oldClients.length else 0

/-- The entries of the attribution that belong to the block. -/
def attributed (key : CacheEngineKey) (r : Retrieved R) : List (Bool × List ClientId × ℕ) :=
  ((r.retrievedKeys.zip r.retrievalAttribution).filter fun x => x.1 = key).map Prod.snd

/-- The sum over the entries that pass a test. -/
theorem sum_map_ite {α : Type} (p : α → Bool) (g : α → F) (l : List α) :
    (l.map fun x => if p x then g x else 0).sum = ((l.filter p).map g).sum := by
  induction l with
  | nil => rfl
  | cons x l ih =>
    rw [List.map_cons, List.sum_cons, ih, List.filter_cons]
    split_ifs with hp
    · rw [List.map_cons, List.sum_cons]
    · rw [zero_add]

/-- All miss shares of a retrieval are the cost of `delta_hit_reduce`. -/
theorem sum_missShare (r : SeqResult R) :
    (r.retrieved.retrievalAttribution.map fun x => (missShare x.2.2 x.1 x.2.1 : F)).sum =
      prefillWeightCost * r.deltaHitReduce := by
  unfold missShare
  rw [sum_map_ite, List.sum_map_mul_left, SeqResult.deltaHitReduce, List.sum_eq_foldl, List.foldl_map]
  rfl

/-- All credits of a client are those that the retrieval issues to it. -/
theorem sum_credit (r : SeqResult R) (c : ClientId) :
    (r.retrieved.retrievalAttribution.map fun x => (credit c x.2.2 x.1 x.2.1 : F)).sum =
      ((r.creditsIssued.filter fun x : ClientId × F => x.1 = c).map Prod.snd).sum := by
  unfold credit
  rw [sum_map_ite, SeqResult.creditsIssued, List.filter_flatMap, List.map_flatMap, List.flatMap_def, List.sum_flatten,
    List.map_map]
  refine congrArg List.sum (List.map_congr_left fun x _ => ?_)
  rw [Function.comp_apply, List.filter_map, List.map_map, Function.comp_def, List.map_const', List.sum_replicate,
    nsmul_eq_mul, List.count_eq_length_filter]
  rfl

variable [LinearOrder F] [FloatMath F] (tokens : ℕ → ℕ) (status : RetrieveStatus) (cfg : CacheConfig T)

/-- What a client pays for the block in a retrieval, less its credits: the retrieving client pays unless its request
was preempted. `tokens` says what the token count of an entry counts as. -/
def booked (key : CacheEngineKey) (c : ClientId) (v : Visit md T F R) : F :=
  ((attributed key (v.result status cfg).retrieved).map fun x =>
    (if c = v.seq.clientId ∧ v.seq.preempted = none then missShare (tokens x.2.2) x.1 x.2.1 else 0) -
      credit c (tokens x.2.2) x.1 x.2.1).sum

variable [FloorRing F]

/-- What the client pays for the block in an operation: nothing if a call returns no figures. -/
def opCost (key : CacheEngineKey) (c : ClientId) (s : LMCacheEngine md F R) : AdapterOp T F R → F
  | .retrieveKv status batch =>
    if (lmcacheRetrieveKv status cfg s batch).1.prefillServed.isSome then
      ((visits status cfg s batch).map (booked tokens status cfg key c)).sum
    else 0
  | _ => 0

/-- What the client pays for the block in a run. -/
def netCost (key : CacheEngineKey) (c : ClientId) : LMCacheEngine md F R → List (AdapterOp T F R) → F
  | _, [] => 0
  | s, op :: ops =>
    opCost tokens cfg key c s op +
      match step cfg s op with
      | .ok s' => netCost key c s' ops
      | .error _ => 0

end Booked

/-! ## One retrieval -/

section One
variable [LinearOrder F] {status : RetrieveStatus} {cfg : CacheConfig T} {v : Visit md T F R} {key : CacheEngineKey}

/-- A prompt hits no block twice. -/
theorem nodup_hitKeys (hinj : Function.Injective2 cfg.hash)
    (hinit : ∀ tokens prefixHash, cfg.hash tokens prefixHash ≠ CacheConfig.getInitHash) :
    (v.hitKeys status cfg).Nodup := by
  unfold Visit.hitKeys
  cases activeClient (some v.seq.clientId) with
  | none => exact List.nodup_nil
  | some c => exact nodup_residentRun hinj hinit

/-- In a list without duplicates a place is found once. -/
theorem filter_zip_of_nodup {α β : Type} [DecidableEq α] {l : List α} (a : α) :
    ∀ {l' : List β}, l.Nodup → l.length = l'.length →
      (a ∉ l ∧ (l.zip l').filter (fun x => x.1 = a) = []) ∨
        ∃ (i : ℕ) (b : β), l[i]? = some a ∧ l'[i]? = some b ∧ (l.zip l').filter (fun x => x.1 = a) = [(a, b)] := by
  induction l with
  | nil => intro l' _ _; exact Or.inl ⟨List.not_mem_nil, rfl⟩
  | cons x l ih =>
    intro l' hl hlen
    cases l' with
    | nil => cases hlen
    | cons y l' =>
      obtain ⟨hx, hl⟩ := List.nodup_cons.mp hl
      rw [List.zip_cons_cons, List.filter_cons]
      rcases ih hl (Nat.succ.inj hlen) with ⟨ha, hnil⟩ | ⟨i, b, hi, hb, hone⟩
      · rw [hnil]
        by_cases hxa : x = a
        · subst hxa
          exact Or.inr ⟨0, y, rfl, rfl, if_pos (decide_eq_true rfl)⟩
        · refine Or.inl ⟨fun hmem => ?_, if_neg (mt of_decide_eq_true hxa)⟩
          rcases List.mem_cons.mp hmem with rfl | hmem
          · exact hxa rfl
          · exact ha hmem
      · have hxa : x ≠ a := fun heq => hx (heq ▸ List.mem_of_getElem? hi)
        refine Or.inr ⟨i + 1, b, hi, hb, ?_⟩
        rw [if_neg (mt of_decide_eq_true hxa), hone]

variable [Field F] [FloatMath F]

/-- **What a retrieval attributes to the block:** who shared it, once, if it is hit. -/
theorem attributed_result (hnodup : (v.hitKeys status cfg).Nodup) (key : CacheEngineKey) :
    (key ∉ v.hitKeys status cfg ∧ attributed key (v.result status cfg).retrieved = []) ∨
      (key ∈ v.hitKeys status cfg ∧ ∃ n, attributed key (v.result status cfg).retrieved =
        [(decide (v.seq.clientId ∉ v.sharers key), v.sharers key, n)]) := by
  rw [attributed, retrievedKeys_result, retrievalAttribution_result]
  have hlen : ∀ {β : Type} (g : CacheEngineKey × ℕ → β),
      (v.hitKeys status cfg).length = ((v.hitKeys status cfg).zipIdx.map g).length := by
    intro β g
    rw [List.length_map, List.length_zipIdx]
  rcases filter_zip_of_nodup key hnodup (hlen _) with h | ⟨i, b, hi, hb, hone⟩
  · exact Or.inl ⟨h.1, congrArg (List.map Prod.snd) h.2⟩
  · refine Or.inr ⟨List.mem_of_getElem? hi, v.countedTokens status cfg i, ?_⟩
    rw [List.getElem?_map, List.getElem?_zipIdx, hi] at hb
    cases hb
    rw [hone, Nat.zero_add]
    rfl

/-- What the retrieval books for each client against the shares that the sharers had. -/
theorem booked_eq (hnodup : (v.hitKeys status cfg).Nodup) (hshared : v.sharers key ≠ [])
    (hunpreempted : key ∈ (v.joined status cfg).map Prod.fst → v.seq.preempted = none) (tok : ℕ) (c : ClientId) :
    booked (fun _ => tok) status cfg key c v =
      if key ∈ (v.joined status cfg).map Prod.fst then
        (if c = v.seq.clientId then prefillWeightCost * (tok : F) / ((v.sharers key).length + 1) else 0) -
          if c ∈ v.sharers key then
            prefillWeightCost * (tok : F) / (v.sharers key).length -
              prefillWeightCost * (tok : F) / ((v.sharers key).length + 1)
          else 0
      else 0 := by
  rw [booked]
  rcases attributed_result hnodup key with ⟨hmiss, hnil⟩ | ⟨hhit, n, hone⟩
  · rw [hnil, if_neg fun hjoined => hmiss ((mem_joined_of_shared hshared).mp hjoined).1]
    rfl
  · have hnew : (decide (v.seq.clientId ∉ v.sharers key) && decide (0 < (v.sharers key).length)) = true ↔
        key ∈ (v.joined status cfg).map Prod.fst := by
      rw [mem_joined_of_shared hshared, Bool.and_eq_true, decide_eq_true_iff, decide_eq_true_iff]
      exact ⟨fun h => ⟨hhit, h.1⟩, fun h => ⟨h.2, List.length_pos_iff.mpr hshared⟩⟩
    rw [hone, List.map_singleton, List.sum_singleton]
    by_cases hjoined : key ∈ (v.joined status cfg).map Prod.fst
    · have hshare : (missShare tok (decide (v.seq.clientId ∉ v.sharers key)) (v.sharers key) : F) =
          prefillWeightCost * tok / ((v.sharers key).length + 1) := by
        rw [missShare, if_pos (hnew.mpr hjoined), mul_div_assoc]
      have hcount : ((v.sharers key).count c : F) = if c ∈ v.sharers key then 1 else 0 := by
        have hclients : (v.sharers key).Nodup := nodup_sharers _ key
        split_ifs with hc
        · rw [List.count_eq_one_of_mem hclients hc, Nat.cast_one]
        · rw [List.count_eq_zero_of_not_mem hc, Nat.cast_zero]
      have hcredit : (credit c tok (decide (v.seq.clientId ∉ v.sharers key)) (v.sharers key) : F) =
          if c ∈ v.sharers key then
            prefillWeightCost * (tok : F) / (v.sharers key).length -
              prefillWeightCost * (tok : F) / ((v.sharers key).length + 1)
          else 0 := by
        rw [credit, if_pos (hnew.mpr hjoined), hcount, creditPerOld, etaAttribution, one_mul, ite_mul, one_mul,
          zero_mul]
      simp only [hunpreempted hjoined, and_true, hshare, hcredit, if_pos hjoined]
    · rw [if_neg hjoined, missShare, credit, if_neg (mt hnew.mp hjoined), if_neg (mt hnew.mp hjoined), ite_self,
        sub_zero]

/-- **One retrieval keeps the shares equal.** -/
theorem splitEqually_next (hnodup : (v.hitKeys status cfg).Nodup) (hshared : v.sharers key ≠ [])
    (hunpreempted : key ∈ (v.joined status cfg).map Prod.fst → v.seq.preempted = none) {tok : ℕ} {f : ClientId → F}
    (h : SplitEqually (prefillWeightCost * (tok : F)) (v.sharers key) f) :
    SplitEqually (prefillWeightCost * (tok : F)) ((v.next status cfg).backend.sharers key) fun c =>
      f c + booked (fun _ => tok) status cfg key c v := by
  have hmem := mem_sharers_next status cfg v key
  simp only [booked_eq hnodup hshared hunpreempted]
  by_cases hjoined : key ∈ (v.joined status cfg).map Prod.fst
  · obtain ⟨hhit, hnew⟩ := (mem_joined_of_shared hshared).mp hjoined
    simp only [if_pos hjoined]
    refine (h.join hnew).congr (List.nodup_cons.mpr ⟨hnew, nodup_sharers _ key⟩) (nodup_sharers _ key) fun c => ?_
    rw [hmem, List.mem_cons, or_comm]
    exact or_congr_left ⟨fun hc => hc.1.symm, fun hc => ⟨hc.symm, hhit⟩⟩
  · simp only [if_neg hjoined, add_zero]
    refine h.congr (nodup_sharers _ key) (nodup_sharers _ key) fun c => ?_
    rw [hmem]
    refine ⟨fun hc => ?_, Or.inl⟩
    rcases hc with hc | ⟨rfl, hhit⟩
    · exact hc
    · by_contra hnew
      exact hjoined ((mem_joined_of_shared hshared).mpr ⟨hhit, hnew⟩)

end One

/-! ## Runs -/

section Runs
variable [LinearOrder F] [Field F] [FloorRing F] [FloatMath F] (cfg : CacheConfig T)

/-- Whoever joins the block does so in a prefill of a request that was not preempted. -/
def JoinsByPrefill (key : CacheEngineKey) (s : LMCacheEngine md F R) : AdapterOp T F R → Prop
  | .retrieveKv status batch => ∀ v ∈ visits status cfg s batch, key ∈ (v.joined status cfg).map Prod.fst →
      status = .prefill ∧ v.seq.preempted = none
  | _ => True

instance (key : CacheEngineKey) (s : LMCacheEngine md F R) :
    ∀ op : AdapterOp T F R, Decidable (JoinsByPrefill cfg key s op)
  | .retrieveKv status batch =>
    inferInstanceAs (Decidable (∀ v ∈ visits status cfg s batch, key ∈ (v.joined status cfg).map Prod.fst →
      status = .prefill ∧ v.seq.preempted = none))
  | .store _ => isTrue trivial
  | .evict _ => isTrue trivial

/-- A retrieval that hits the block counts `tok` tokens for it. -/
def Counts (key : CacheEngineKey) (tok : ℕ) (s : LMCacheEngine md F R) : AdapterOp T F R → Prop
  | .retrieveKv status batch => ∀ v ∈ visits status cfg s batch,
      ∀ x ∈ attributed key (v.result status cfg).retrieved, x.2.2 = tok
  | _ => True

instance (key : CacheEngineKey) (tok : ℕ) (s : LMCacheEngine md F R) :
    ∀ op : AdapterOp T F R, Decidable (Counts cfg key tok s op)
  | .retrieveKv status batch =>
    inferInstanceAs (Decidable (∀ v ∈ visits status cfg s batch,
      ∀ x ∈ attributed key (v.result status cfg).retrieved, x.2.2 = tok))
  | .store _ => isTrue trivial
  | .evict _ => isTrue trivial

variable {cfg} {key : CacheEngineKey}

/-- While the block stays, those who hit it become its sharers. -/
theorem mem_sharers_step {c : ClientId} {s s' : LMCacheEngine md F R} {op : AdapterOp T F R}
    (hkeep : Keeps cfg key s op) (hstep : step cfg s op = .ok s') :
    c ∈ s'.backend.sharers key ↔ c ∈ s.backend.sharers key ∨ Hits cfg key c s op := by
  cases op with
  | retrieveKv status batch =>
    cases hstep
    rw [lmcacheRetrieveKv_state, mem_sharers_retrieveLoop]
    rfl
  | store a => rw [sharers_congr (hkeep s' hstep)]; exact (or_iff_left id).symm
  | evict k => rw [sharers_congr (hkeep s' hstep)]; exact (or_iff_left id).symm

theorem mem_sharers_run {c : ClientId} {ops : List (AdapterOp T F R)} :
    ∀ {s t : LMCacheEngine md F R}, Along (step cfg) (Keeps cfg key) s ops → Reaches (step cfg) s ops t →
      (c ∈ t.backend.sharers key ↔ c ∈ s.backend.sharers key ∨ Sometimes (step cfg) (Hits cfg key c) s ops) := by
  induction ops with
  | nil =>
    intro s t _ hrun
    rw [reaches_nil.mp hrun]
    exact (or_iff_left not_sometimes_nil).symm
  | cons op ops ih =>
    intro s t hkeep hrun
    obtain ⟨s', hstep, hrun⟩ := reaches_cons.mp hrun
    rw [ih (hkeep.2 s' hstep) hrun, mem_sharers_step hkeep.1 hstep, sometimes_cons, or_assoc]
    refine or_congr_right (or_congr_right ⟨fun h => ⟨s', hstep, h⟩, ?_⟩)
    rintro ⟨s'', hstep', h⟩
    exact Except.ok.inj (hstep'.symm.trans hstep) ▸ h

section Split
variable (hinj : Function.Injective2 cfg.hash)
  (hinit : ∀ tokens prefixHash, cfg.hash tokens prefixHash ≠ CacheConfig.getInitHash)
include hinj hinit

/-- So do the retrievals of a batch. -/
theorem splitEqually_retrieveLoop {status : RetrieveStatus} {tok : ℕ} (qs : List (BatchSeq T F)) :
    ∀ (s : LMCacheEngine md F R) (figures : Figures F) {f : ClientId → F}, s.backend.sharers key ≠ [] →
      (∀ v ∈ visits status cfg s qs, key ∈ (v.joined status cfg).map Prod.fst → v.seq.preempted = none) →
      SplitEqually (prefillWeightCost * (tok : F)) (s.backend.sharers key) f →
      SplitEqually (prefillWeightCost * (tok : F)) ((retrieveLoop status cfg s figures qs).2.backend.sharers key)
        fun c => f c + ((visits status cfg s qs).map (booked (fun _ => tok) status cfg key c)).sum := by
  induction qs with
  | nil =>
    intro s figures f _ _ h
    simp only [visits, List.map_nil, List.sum_nil, add_zero]
    exact h
  | cons q qs ih =>
    intro s figures f hshared hjoins h
    have hhead : (⟨s, q⟩ : Visit md T F R) ∈ visits status cfg s (q :: qs) := by
      rw [visits]
      exact List.mem_cons_self
    have hnext := splitEqually_next (v := ⟨s, q⟩) (nodup_hitKeys hinj hinit) hshared (hjoins _ hhead) h
    by_cases hearly : (Visit.result status cfg ⟨s, q⟩).ReturnsEarly status
    · rw [retrieveLoop_of_early hearly, visits_of_early hearly]
      simp only [List.map_singleton, List.sum_singleton]
      exact hnext
    · rw [visits_of_not_early hearly] at hjoins ⊢
      rw [retrieveLoop_of_not_early hearly]
      have hshared' : (Visit.next status cfg ⟨s, q⟩).backend.sharers key ≠ [] := by
        obtain ⟨c, hc⟩ := List.exists_mem_of_ne_nil _ hshared
        exact List.ne_nil_of_mem ((mem_sharers_next status cfg ⟨s, q⟩ key c).mpr (Or.inl hc))
      have hrest := ih _ (book status figures (Visit.result status cfg ⟨s, q⟩)) hshared'
        (fun v hv => hjoins v (List.mem_cons_of_mem _ hv)) hnext
      simp only [List.map_cons, List.sum_cons, ← add_assoc]
      exact hrest

/-- **One operation keeps the shares equal.** -/
theorem splitEqually_step {tok : ℕ} {f : ClientId → F} {s s' : LMCacheEngine md F R} {op : AdapterOp T F R}
    (hshared : s.backend.sharers key ≠ []) (hkeep : Keeps cfg key s op) (hjoins : JoinsByPrefill cfg key s op)
    (hstep : step cfg s op = .ok s')
    (h : SplitEqually (prefillWeightCost * (tok : F)) (s.backend.sharers key) f) :
    SplitEqually (prefillWeightCost * (tok : F)) (s'.backend.sharers key) fun c =>
      f c + opCost (fun _ => tok) cfg key c s op := by
  cases op with
  | retrieveKv status batch =>
    cases hstep
    have hloop := splitEqually_retrieveLoop hinj hinit batch s (noFigures F) hshared
      (fun v hv hjoined => (hjoins v hv hjoined).2) h
    rw [lmcacheRetrieveKv_state]
    simp only [opCost]
    split_ifs with hreturned
    · exact hloop
    · -- no figures, so the status is that of a chunk and nobody joins the block
      rw [lmcacheRetrieveKv_returned] at hreturned
      push Not at hreturned
      obtain ⟨w, -, hearly⟩ := hreturned
      obtain ⟨c, hc⟩ := List.exists_mem_of_ne_nil _ hshared
      have hnothing : ∀ v ∈ visits status cfg s batch, ∀ c, booked (fun _ => tok) status cfg key c v = (0 : F) := by
        intro v hv c'
        have hnot : key ∉ (v.joined status cfg).map Prod.fst := by
          intro hjoined
          have := (hjoins v hv hjoined).1
          rw [hearly.1] at this
          cases this
        rw [booked_eq (nodup_hitKeys hinj hinit) (List.ne_nil_of_mem (mem_sharers_of_mem_visits hc v hv))
          (fun hjoined => absurd hjoined hnot), if_neg hnot]
      have hsum : ∀ c, ((visits status cfg s batch).map (booked (fun _ => tok) status cfg key c)).sum = (0 : F) := by
        intro c'
        rw [List.map_congr_left fun v hv => hnothing v hv c', List.map_const', List.sum_replicate, nsmul_eq_mul, mul_zero]
      simp only [hsum] at hloop
      exact hloop
  | store a =>
    rw [sharers_congr (hkeep s' hstep)]
    simp only [opCost, add_zero]
    exact h
  | evict k =>
    rw [sharers_congr (hkeep s' hstep)]
    simp only [opCost, add_zero]
    exact h

/-- So does a run. -/
theorem splitEqually_run {tok : ℕ} {ops : List (AdapterOp T F R)} :
    ∀ {s t : LMCacheEngine md F R} {f : ClientId → F}, s.backend.sharers key ≠ [] →
      Along (step cfg) (Keeps cfg key) s ops → Along (step cfg) (JoinsByPrefill cfg key) s ops →
      Reaches (step cfg) s ops t → SplitEqually (prefillWeightCost * (tok : F)) (s.backend.sharers key) f →
      SplitEqually (prefillWeightCost * (tok : F)) (t.backend.sharers key) fun c =>
        f c + netCost (fun _ => tok) cfg key c s ops := by
  induction ops with
  | nil =>
    intro s t f _ _ _ hrun h
    obtain rfl := reaches_nil.mp hrun
    simp only [netCost, add_zero]
    exact h
  | cons op ops ih =>
    intro s t f hshared hkeep hjoins hrun h
    obtain ⟨s', hstep, hrun⟩ := reaches_cons.mp hrun
    obtain ⟨c, hc⟩ := List.exists_mem_of_ne_nil _ hshared
    have hshared' := List.ne_nil_of_mem ((mem_sharers_step hkeep.1 hstep).mpr (Or.inl hc))
    have hrest := ih hshared' (hkeep.2 s' hstep) (hjoins.2 s' hstep) hrun
      (splitEqually_step hinj hinit hshared hkeep.1 hjoins.1 hstep h)
    simp only [netCost, hstep, ← add_assoc]
    exact hrest

end Split

/-- A run whose retrievals count `tok` tokens for the block books what `tok` tokens cost. -/
theorem netCost_of_counts {tok : ℕ} {c : ClientId} {ops : List (AdapterOp T F R)} :
    ∀ {s : LMCacheEngine md F R}, Along (step cfg) (Counts cfg key tok) s ops →
      netCost id cfg key c s ops = netCost (fun _ => tok) cfg key c s ops := by
  induction ops with
  | nil => intro s _; rfl
  | cons op ops ih =>
    intro s hcounts
    have hop : opCost id cfg key c s op = opCost (fun _ => tok) cfg key c s op := by
      cases op with
      | retrieveKv status batch =>
        refine if_congr Iff.rfl (congrArg List.sum (List.map_congr_left fun v hv => ?_)) rfl
        refine congrArg List.sum (List.map_congr_left fun x hx => ?_)
        rw [id, hcounts.1 v hv x hx]
      | store a => rfl
      | evict k => rfl
    rw [netCost, netCost, hop]
    cases hstep : step cfg s op with
    | error e => rfl
    | ok s' => exact congrArg _ (ih (hcounts.2 s' hstep))

end Runs

/-! ## A run -/

section Examples

/-- A client asks for the chunk `[1, 2]` and one more token. -/
def askedBy (c : ClientId) : AdapterOp ℕ ℚ ℕ :=
  .retrieveKv .prefill [
    { clientId := c, preempted := none, tokenIds := [1, 2, 3], seqLen := 3, numRequiredTokens := 3
      clock := fun _ => 1, seqLen_le := by decide, numRequiredTokens_le := by decide }]

end Examples

end FairCache.LMCacheAdapter
