import FairCache.Scheduler.SafeRuns

/-!
# The swapped queue with chunked prefills

A group is swapped in with all its tokens, also where its prompt was started in chunks.

* `swappedLoop_front`, `swapInAfter_front` : a group with more tokens than a step has stays in front, and no group is swapped
  in behind it;
* `Front`, `front_of_reaches` : so it does for ever.
-/

namespace FairCache

open Lib

variable {T F B : Type}

/-! ## A step -/

namespace Scheduler

variable {config : SchedulerConfig} {bm : BlockSpaceManager B} {g : SequenceGroup T} {rest : List (SequenceGroup T)}

theorem mem_infeasible_swappedLoop {x : SequenceGroup T} {enableChunking : Bool} {queue : List (SequenceGroup T)} :
    ∀ {s s' : SwappedLoop T B}, swappedLoop config bm enableChunking queue s = .ok s' → x ∈ s.infeasible → x ∈ s'.infeasible := by
  induction queue with
  | nil => intro s s' h hx; cases h; exact hx
  | cons g queue ih =>
    intro s s' h hx
    rw [swappedLoop] at h
    obtain ⟨status, -, h⟩ := bind_ok h
    cases status with
    | later => cases h; exact hx
    | never => exact ih h (List.mem_append_left _ hx)
    | ok =>
      dsimp only at h
      split_ifs at h with hlora
      · exact ih h hx
      · obtain ⟨n, -, h⟩ := bind_ok h
        split_ifs at h
        · cases h; exact hx
        · obtain ⟨can, -, h⟩ := bind_ok h
          split_ifs at h
          · obtain ⟨s₁, hone, h⟩ := bind_ok h
            have hkept : s₁.infeasible = s.infeasible := by
              obtain ⟨r, -, hone⟩ := bind_ok hone
              obtain ⟨r', -, hone⟩ := bind_ok hone
              cases hone
              rfl
            exact ih h (hkept ▸ hx)
          · cases h; exact hx

/-- **A group with more tokens than are left of the budget ends the loop**, unless it never fits again. -/
theorem swappedLoop_front {s s' : SwappedLoop T B} (hlora : g.loraIntId = 0)
    (htokens : s.budget.tokenBudget < s.budget.numBatchedTokens + g.seqNumNewTokens)
    (h : swappedLoop config bm false (g :: rest) s = .ok s') :
    g ∈ s'.infeasible ∨ s' = { s with swapped := g :: rest } := by
  rw [swappedLoop] at h
  obtain ⟨status, -, h⟩ := bind_ok h
  have hblocked : loraBlocked config s.currLoras g = false := by
    unfold loraBlocked
    split
    · rw [hlora]
      exact decide_eq_false fun h => absurd h.1 (lt_irrefl 0)
    · rfl
  cases status with
  | later => cases h; exact Or.inr rfl
  | never => exact Or.inl (mem_infeasible_swappedLoop h (List.mem_append_right _ (List.mem_singleton.mpr rfl)))
  | ok =>
    dsimp only at h
    rw [if_neg (by rw [hblocked]; exact Bool.false_ne_true)] at h
    obtain ⟨n, hn, h⟩ := bind_ok h
    have hall : n = g.seqNumNewTokens := by
      unfold getNumNewTokens at hn
      dsimp only at hn
      rw [if_pos (Eq.refl false)] at hn
      split_ifs at hn
      exact (Except.ok.inj hn).symm
    split_ifs at h with hzero
    · cases h; exact Or.inr rfl
    · obtain ⟨can, hcan, h⟩ := bind_ok h
      have hfull : can ≠ true := fun heq => by
        have := (SchedulingBudget.canScheduleTokens_eq_true hzero (heq ▸ hcan)).1
        omega
      rw [if_neg hfull] at h
      cases h
      exact Or.inr rfl

theorem swapInAfter_front {r : RunningLoop T B} {w : SwappedLoop T B} (hlora : g.loraIntId = 0)
    (htokens : r.budget.tokenBudget < r.budget.numBatchedTokens + g.seqNumNewTokens)
    (h : swapInAfter config bm r (g :: rest) = .ok w) :
    g ∈ w.infeasible ∨ (w.swapped = g :: rest ∧ w.blocksToSwapIn = []) := by
  unfold swapInAfter at h
  split_ifs at h
  · obtain ⟨w', hw', rfl⟩ := map_ok h
    rcases swappedLoop_front hlora htokens hw' with hmem | rfl
    · exact Or.inl hmem
    · exact Or.inr ⟨rfl, rfl⟩
  · cases h
    exact Or.inr ⟨rfl, rfl⟩

variable {t : BlockTables B} {Sound : B → Prop} {others : Multiset (Place × SequenceGroup T)} {s s' : SchedulerState T F B}
variable [LinearOrder F]

/-- The group in front of the swapped queue, after a step with chunked prefills. -/
theorem scheduleChunkedPrefill_front (laws : bm.Laws t Sound) (hw : config.Works) (hmode : config.chunkedPrefillEnabled = true)
    (hready : s.Ready config t Sound others) (hlora : g.loraIntId = 0)
    (htokens : config.maxNumBatchedTokens < g.seqNumNewTokens) (hfront : s.swapped = g :: rest) {passedDelay : ℕ → Bool}
    {finishes : SequenceGroup T → Bool} {out : SchedulingOutputs T}
    (h : scheduleChunkedPrefill config bm passedDelay finishes s = .ok (s', out)) :
    g ∈ out.ignoredSeqGroups ∨ ((∃ rest', s'.swapped = g :: rest') ∧ out.blocksToSwapIn = []) := by
  have hrunning := scheduleRunning_chunked_ok laws hw finishes hmode hready
  obtain ⟨r, hr, h⟩ := bind_ok h
  obtain ⟨w, hw', h⟩ := bind_ok h
  obtain ⟨p, -, h⟩ := bind_ok h
  obtain ⟨-, -, h⟩ := bind_ok h
  obtain ⟨waiting, -, h⟩ := bind_ok h
  obtain ⟨out', hout, h⟩ := bind_ok h
  rw [hr] at hrunning
  have htokens' : r.budget.tokenBudget < r.budget.numBatchedTokens + g.seqNumNewTokens := by
    have := hrunning.fits.tokenBudget
    have := hrunning.fits.nonneg hmode
    omega
  have hkept : out'.ignoredSeqGroups = p.ignored ++ w.infeasible ∧ out'.blocksToSwapIn = w.blocksToSwapIn := by
    unfold SchedulingOutputs.postInit at hout
    split_ifs at hout
    · cases hout; exact ⟨rfl, rfl⟩
    · cases hout; exact ⟨rfl, rfl⟩
  cases h
  rw [hkept.1, hkept.2]
  rcases swapInAfter_front hlora htokens' (hfront ▸ hw') with hmem | ⟨hswapped, hnone⟩
  · exact Or.inl (List.mem_append_right _ hmem)
  · refine Or.inr ⟨⟨rest ++ r.swappedOut, ?_⟩, hnone⟩
    show w.swapped ++ r.swappedOut = _
    rw [hswapped]
    rfl

/-! ## Requests that are aborted -/

omit [LinearOrder F]

theorem abortedOf_subset (ids : Finset String) (queue : List (SequenceGroup T)) :
    (∀ x ∈ (abortedOf ids queue).1, x.requestId ∈ ids) ∧ (abortedOf ids queue).2 ⊆ ids := by
  induction queue generalizing ids with
  | nil => exact ⟨nofun, subset_rfl⟩
  | cons g queue ih =>
    rw [abortedOf]
    split_ifs with hg
    · obtain ⟨hmem, hsub⟩ := ih (ids.erase g.requestId)
      refine ⟨fun x hx => ?_, hsub.trans (Finset.erase_subset _ _)⟩
      rcases List.mem_cons.mp hx with rfl | hx
      · exact hg
      · exact Finset.erase_subset _ _ (hmem x hx)
    · exact ih ids

theorem foldl_erase_front [DecidableEq T] {gs : List (SequenceGroup T)} (h : ∀ x ∈ gs, x ≠ g) : ∀ rest : List (SequenceGroup T),
    gs.foldl List.erase (g :: rest) = g :: gs.foldl List.erase rest := by
  induction gs with
  | nil => intro rest; rfl
  | cons x gs ih =>
    intro rest
    obtain ⟨hx, hgs⟩ := List.forall_mem_cons.mp h
    rw [List.foldl_cons, List.foldl_cons, List.erase_cons_tail (by simpa using hx.symm)]
    exact ih hgs _

theorem abortSeqGroup_front [DecidableEq T] {ids : Finset String} (hfront : s.swapped = g :: rest) (hids : g.requestId ∉ ids)
    (h : abortSeqGroup config bm ids s = .ok s') : ∃ rest', s'.swapped = g :: rest' := by
  obtain ⟨waiting, -, h⟩ := bind_ok h
  obtain ⟨blocks, -, h⟩ := bind_ok h
  cases h
  let w := abortedOf ids s.waiting.iter
  let r := abortedOf w.2 s.running
  have hsub : r.2 ⊆ ids := (abortedOf_subset w.2 s.running).2.trans (abortedOf_subset ids s.waiting.iter).2
  let gone := (abortedOf r.2 s.swapped).1
  have hne : ∀ x ∈ gone, x ≠ g := fun x hx heq => hids (hsub (heq ▸ (abortedOf_subset r.2 s.swapped).1 x hx))
  exact ⟨_, (congrArg (fun queue => gone.foldl List.erase queue) hfront).trans (foldl_erase_front hne rest)⟩

end Scheduler

/-! ## Runs -/

namespace EngineRun

variable {config : SchedulerConfig} {bm : BlockSpaceManager B} {t : BlockTables B} {Sound : B → Prop}
variable {e e' : EngineRun T F B} {leaked : List (SequenceGroup T)} {g : SequenceGroup T}

/-- The group never fits again, or it is in front of the swapped queue. -/
def Front (g : SequenceGroup T) (e : EngineRun T F B) : Prop := g ∈ e.ignored ∨ ∃ rest, e.scheduler.swapped = g :: rest

variable [Field F] [LinearOrder F]

/-- A step ignores the group in front, or it leaves the group there and swaps nothing in. -/
theorem Inv.schedule_front (laws : bm.Laws t Sound) (hw : config.Works) (hmode : config.chunkedPrefillEnabled = true)
    (he : e.Inv config t Sound leaked) (hlora : g.loraIntId = 0) (htokens : config.maxNumBatchedTokens < g.seqNumNewTokens)
    {rest : List (SequenceGroup T)} (hfront : e.scheduler.swapped = g :: rest) {passedDelay : ℕ → Bool}
    {finishes : SequenceGroup T → Bool} (hop : Allowed config e (.schedule passedDelay finishes : EngineOp T F))
    {s : SchedulerState T F B} {out : SchedulingOutputs T}
    (h : Scheduler.schedule config bm passedDelay finishes e.scheduler = .ok (s, out)) :
    g ∈ out.ignoredSeqGroups ∨ ((∃ rest', s.swapped = g :: rest') ∧ out.blocksToSwapIn = []) := by
  rw [Scheduler.schedule, if_pos hmode] at h
  exact Scheduler.scheduleChunkedPrefill_front laws hw hmode (he.ready hop) hlora htokens hfront h

theorem Front.step [DecidableEq T] (laws : bm.Laws t Sound) (hw : config.Works) (hmode : config.chunkedPrefillEnabled = true)
    (he : e.Inv config t Sound leaked) (hlora : g.loraIntId = 0) (htokens : config.maxNumBatchedTokens < g.seqNumNewTokens)
    {op : EngineOp T F} (hop : Allowed config e op) (haborts : ∀ ids, op = .abortRequest ids → g.requestId ∉ ids)
    (hfront : Front g e) (h : step config bm e op = .ok e') : Front g e' := by
  cases op with
  | addRequest r => obtain ⟨w, -, rfl⟩ := map_ok h; exact hfront
  | abortRequest ids =>
    obtain ⟨s, hs, rfl⟩ := map_ok h
    refine hfront.imp_right fun ⟨rest, hrest⟩ => ?_
    exact Scheduler.abortSeqGroup_front hrest (haborts ids rfl) hs
  | schedule passedDelay finishes =>
    obtain ⟨⟨s, out⟩, hs, rfl⟩ := map_ok h
    rcases hfront with hmem | ⟨rest, hrest⟩
    · exact Or.inl (List.mem_append_left _ hmem)
    · rcases he.schedule_front laws hw hmode hlora htokens hrest hop hs with hmem | ⟨hrest', -⟩
      · exact Or.inl (List.mem_append_right _ hmem)
      · exact Or.inr hrest'
  | reportFinished => cases h; exact hfront
  | updatePrefillServed p credits => obtain ⟨w, -, rfl⟩ := map_ok h; exact hfront
  | advance sampled =>
    obtain ⟨s, hs, rfl⟩ := map_ok h
    obtain ⟨running, -, rfl⟩ := map_ok hs
    exact hfront
  | freeFinished finished =>
    obtain ⟨s, hs, rfl⟩ := map_ok h
    obtain ⟨b, -, rfl⟩ := map_ok hs
    exact hfront

theorem front_and_inv_of_reaches [DecidableEq T] (laws : bm.Laws t Sound) (hw : config.Works)
    (hmode : config.chunkedPrefillEnabled = true) (hlora : g.loraIntId = 0)
    (htokens : config.maxNumBatchedTokens < g.seqNumNewTokens) {ops : List (EngineOp T F)} :
    ∀ {e e' : EngineRun T F B} {leaked : List (SequenceGroup T)}, e.Inv config t Sound leaked → Front g e →
      (∀ ids, EngineOp.abortRequest ids ∈ ops → g.requestId ∉ ids) → Along (step config bm) (Allowed config) e ops →
      Reaches (step config bm) e ops e' → Front g e' ∧ ∃ leaked', Inv config t Sound leaked' e' := by
  induction ops with
  | nil =>
    intro e e' leaked he hfront _ _ hr
    obtain rfl := reaches_nil.mp hr
    exact ⟨hfront, leaked, he⟩
  | cons op ops ih =>
    intro e e' leaked he hfront haborts ha hr
    obtain ⟨e₁, hop, hr⟩ := reaches_cons.mp hr
    have hone := step_ok laws hw he ha.1
    rw [hop] at hone
    obtain ⟨infeasible, h₁⟩ := hone
    have hfront₁ := hfront.step laws hw hmode he hlora htokens ha.1 (fun ids heq => haborts ids (heq ▸ List.mem_cons_self)) hop
    exact ih h₁ hfront₁ (fun ids hmem => haborts ids (List.mem_cons_of_mem _ hmem)) (ha.2 e₁ hop) hr

open BlockSpaceManagerV1 in
/-- **A swapped group with more tokens than a step has blocks the swapped queue for ever**: in every later state it is in
front, and no step swaps a group in, unless a step finds that the group never fits again. -/
theorem front_of_reaches [DecidableEq T] (hw : config.Works) (hmode : config.chunkedPrefillEnabled = true)
    {fairComputationEnabled : Bool} {numGpuBlocks numCpuBlocks watermarkBlocks : ℕ} {ops ops' : List (EngineOp T F)}
    {e e' : EngineRun T F BlockSpaceManagerV1} {rest : List (SequenceGroup T)}
    (h : Along (EngineRun.step config manager) (Allowed config)
      (new T F fairComputationEnabled (BlockSpaceManagerV1.new numGpuBlocks numCpuBlocks watermarkBlocks)) (ops ++ ops'))
    (hreach : Reaches (EngineRun.step config manager)
      (new T F fairComputationEnabled (BlockSpaceManagerV1.new numGpuBlocks numCpuBlocks watermarkBlocks)) ops e)
    (hfront : e.scheduler.swapped = g :: rest) (hlora : g.loraIntId = 0)
    (htokens : config.maxNumBatchedTokens < g.seqNumNewTokens)
    (haborts : ∀ ids, EngineOp.abortRequest ids ∈ ops' → g.requestId ∉ ids)
    (hend : Reaches (EngineRun.step config manager) e ops' e') :
    g ∈ e'.ignored ∨ ((∃ rest', e'.scheduler.swapped = g :: rest') ∧
      ∀ passedDelay finishes s out, Allowed config e' (.schedule passedDelay finishes : EngineOp T F) →
        Scheduler.schedule config manager passedDelay finishes e'.scheduler = .ok (s, out) →
          g ∈ out.ignoredSeqGroups ∨ out.blocksToSwapIn = []) := by
  obtain ⟨leaked, he⟩ := inv_of_reaches laws hw (inv_newV1 _ _ _ _) h.of_append_left hreach
  obtain ⟨hfront', leaked', he'⟩ :=
    front_and_inv_of_reaches laws hw hmode hlora htokens he (Or.inr ⟨rest, hfront⟩) haborts (h.of_append hreach) hend
  rcases hfront' with hmem | ⟨rest', hrest'⟩
  · exact Or.inl hmem
  · refine Or.inr ⟨⟨rest', hrest'⟩, fun passedDelay finishes s out hop hs => ?_⟩
    exact (he'.schedule_front laws hw hmode hlora htokens hrest' hop hs).imp_right And.right

/-- A step has two tokens. -/
def narrowConfig : SchedulerConfig := { smallConfig true (some "swap") with maxNumBatchedTokens := 2 }

/-- A prompt is started in chunks, and after the first chunk it is swapped out; then the other request finishes, and there
is room. -/
def blockedRun : List (EngineOp ℕ ℚ) × List (EngineOp ℕ ℚ) :=
  let schedule : EngineOp ℕ ℚ := .schedule (fun _ => true) fun _ => false
  let advance : EngineOp ℕ ℚ := .advance fun _ => 0
  ([.addRequest (smallRequest "a" 0 1 [1, 2]), .addRequest (smallRequest "b" 1 2 [1, 2, 3, 4, 5, 6]), schedule, advance,
      schedule, advance, schedule, advance],
    [.freeFinished fun g => g.requestId = "a", schedule, advance, .abortRequest {"a"}, schedule, advance])

open BlockSpaceManagerV1 in
theorem blockedRun_front : ∃ e' g, Reaches (EngineRun.step narrowConfig manager) (new ℕ ℚ true (BlockSpaceManagerV1.new 5 4 0))
    (blockedRun.1 ++ blockedRun.2) e' ∧ e'.scheduler.running.isEmpty = true ∧ (∃ rest, e'.scheduler.swapped = g :: rest) ∧
      ∀ passedDelay finishes s out, Allowed narrowConfig e' (.schedule passedDelay finishes : EngineOp ℕ ℚ) →
        Scheduler.schedule narrowConfig manager passedDelay finishes e'.scheduler = .ok (s, out) →
          g ∈ out.ignoredSeqGroups ∨ out.blocksToSwapIn = [] := by
  have hrun : ∃ e, Reaches (EngineRun.step narrowConfig manager) (new ℕ ℚ true (BlockSpaceManagerV1.new 5 4 0))
      blockedRun.1 e ∧ ((∃ g ∈ e.scheduler.swapped.head?, g.requestId = "b" ∧ g.loraIntId = 0 ∧ 2 < g.seqNumNewTokens) ∧
        ∃ e', Reaches (EngineRun.step narrowConfig manager) e blockedRun.2 e' ∧
          (e'.scheduler.running.isEmpty = true ∧ e'.ignored.isEmpty = true)) := by
    decide +kernel
  obtain ⟨e, hreach, ⟨g, hg, hid, hlora, htokens⟩, e', hend, hidle, hignored⟩ := hrun
  obtain ⟨rest, hfront⟩ : ∃ rest, e.scheduler.swapped = g :: rest := ⟨_, (List.cons_head?_tail hg).symm⟩
  have haborts : ∀ ids, EngineOp.abortRequest ids ∈ blockedRun.2 → g.requestId ∉ ids := by
    intro ids hmem
    simp only [blockedRun, List.mem_cons, EngineOp.abortRequest.injEq, reduceCtorEq, List.not_mem_nil, or_false, false_or] at hmem
    rw [hmem, hid]
    decide
  have hblocked := front_of_reaches ⟨by decide, by decide, by decide⟩ (by decide) (by decide +kernel) hreach hfront hlora
    htokens haborts hend
  have hkept := hblocked.resolve_left fun hmem => by
    rw [List.isEmpty_iff.mp hignored] at hmem
    exact absurd hmem List.not_mem_nil
  exact ⟨e', g, reaches_append.mpr ⟨e, hreach, hend⟩, hidle, hkept⟩

end EngineRun

end FairCache
