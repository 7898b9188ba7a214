import FairCache.Scheduler.Running

/-!
# The swapped groups stay at their places

* `swapInGroup_ok` : a group is swapped in;
* `SwappedLoop.Inv` : the loop's invariant; `swappedLoop_ok`, `scheduleSwapped_ok` : the loop raises nothing.
-/

namespace FairCache

open Lib

namespace Scheduler

variable {T B : Type}

namespace SwappedLoop

/-- The groups that are scheduled. -/
def scheduled (s : SwappedLoop T B) : List (ScheduledSequenceGroup T) := s.decodeSeqGroups ++ s.prefillSeqGroups

/-- What the loop has taken from the swapped queue, at its places. -/
def takenPlaces (s : SwappedLoop T B) : Multiset (Place × SequenceGroup T) :=
  placesOf .scheduled (s.scheduled.map ScheduledSequenceGroup.seqGroup) + placesOf .swapped s.leftover +
    placesOf .infeasible s.infeasible

/-- All groups of the loop, when it is through. -/
def places (s : SwappedLoop T B) : Multiset (Place × SequenceGroup T) :=
  placesOf .swapped s.swapped + placesOf .scheduled (s.scheduled.map ScheduledSequenceGroup.seqGroup) +
    placesOf .infeasible s.infeasible

end SwappedLoop

section Rules
variable {config : SchedulerConfig} {bm : BlockSpaceManager B} {t : BlockTables B} {Sound : B → Prop}
variable (laws : bm.Laws t Sound) (hw : config.Works)
variable {E : PyError → Prop} {g : SequenceGroup T} {n live : ℤ} {s : SwappedLoop T B}
variable {rest others : Multiset (Place × SequenceGroup T)}

/-- The loop's invariant; `queue` is what is left of the swapped queue, `others` those groups of the other queues that may
be scheduled after it, and `live` groups run already. -/
structure SwappedLoop.Inv (config : SchedulerConfig) (t : BlockTables B) (Sound : B → Prop) (live : ℤ)
    (rest others : Multiset (Place × SequenceGroup T)) (queue : List (SequenceGroup T)) (s : SwappedLoop T B) : Prop where
  placed : Placed config t Sound s.blocks (placesOf .swapped queue + (s.takenPlaces + rest))
  chunks : ∀ d ∈ s.scheduled, d.Matches config.chunkedPrefillEnabled
  noPrefills : config.chunkedPrefillEnabled = false → s.prefillSeqGroups = []
  apart : ∀ x ∈ placesOf .swapped queue + others, x.2.requestId ∉ s.budget.requestIdsNumCurrSeqs
  fits : s.budget.Fits config (live + s.scheduled.length)

/-- What swapping a group in does. -/
structure SwappedLoop.Joins (d : ScheduledSequenceGroup T) (n : ℤ) (s s' : SwappedLoop T B) : Prop where
  budget : s'.budget = (s.budget.addNumBatchedTokens d.seqGroup.requestId n).addNumSeqs d.seqGroup.requestId 1
  scheduled : s'.scheduled.Perm (d :: s.scheduled)
  prefills : d.seqGroup.stage ≠ .prefill → s'.prefillSeqGroups = s.prefillSeqGroups

include laws hw in
theorem swapInGroup_ok (h : Placed config t Sound s.blocks ({(.swapped, g)} + (s.takenPlaces + rest)))
    (hcan : bm.canSwapIn s.blocks (g.seqBlocks config.blockSize) = .ok .ok) : ∃ s', swapInGroup config bm g n s = .ok s' ∧
      Placed config t Sound s'.blocks (s'.takenPlaces + rest) ∧
      SwappedLoop.Joins ⟨g, if g.stage = .prefill then n else 1⟩ n s s' := by
  obtain ⟨hat, hvalid, -⟩ := h.head
  have hpos : (g.seqBlocks config.blockSize).nBlocks ≠ 0 :=
    SequenceGroup.nBlocks_pos hw.blockSize (SequenceGroup.getLen_pos hvalid.1)
  obtain ⟨moved, b₁, copied, b, hb₁, hb, hs, honly, hholds⟩ := laws.swapIn h.sound hat.2 hpos hcan
  have hplaced := h.update .scheduled g rfl hs honly ⟨Or.inr hat.1, hholds⟩
  have hrun : ∀ (f : BlockPairs × B → BlockPairs × B → SwappedLoop T B),
      (do
        let r ← bm.swapIn s.blocks (g.seqBlocks config.blockSize)
        let r' ← bm.appendSlots r.2 (g.seqBlocks config.blockSize)
        .ok (f r r')) = .ok (f (moved, b₁) (copied, b)) := by
    intro f
    rw [hb₁]
    show (bm.appendSlots b₁ (g.seqBlocks config.blockSize) >>= _) = _
    rw [hb]
    rfl
  refine ⟨_, hrun _, ?_⟩
  by_cases hstage : g.stage = .prefill
  · simp only [if_pos hstage]
    refine ⟨?_, rfl, ?_, fun hne => absurd hstage hne⟩
    · convert hplaced using 1
      simp only [SwappedLoop.takenPlaces, SwappedLoop.scheduled, List.map_append, List.map_cons, List.map_nil,
        placesOf_append, placesOf_cons, placesOf_nil]
      abel
    · simp only [SwappedLoop.scheduled, ← List.append_assoc]
      exact List.perm_append_singleton _ _
  · simp only [if_neg hstage]
    refine ⟨?_, rfl, ?_, fun _ => rfl⟩
    · convert hplaced using 1
      simp only [SwappedLoop.takenPlaces, SwappedLoop.scheduled, List.map_append, List.map_cons, List.map_nil,
        placesOf_append, placesOf_cons, placesOf_nil]
      abel
    · simp only [SwappedLoop.scheduled, List.append_assoc]
      exact List.perm_middle

/-- The group in front does not fit any more, or its LoRA does not: it is at another place of the loop. -/
theorem SwappedLoop.Inv.set_aside {queue : List (SequenceGroup T)} {s' : SwappedLoop T B}
    (h : SwappedLoop.Inv config t Sound live rest others (g :: queue) s) (hblocks : s'.blocks = s.blocks)
    (hbudget : s'.budget = s.budget) (hdecodes : s'.decodeSeqGroups = s.decodeSeqGroups)
    (hprefills : s'.prefillSeqGroups = s.prefillSeqGroups) {p : Place} (hat : At config t s.blocks .swapped g → At config t s.blocks p g)
    (hplaces : s'.takenPlaces = {(p, g)} + s.takenPlaces) : SwappedLoop.Inv config t Sound live rest others queue s' := by
  have hscheduled : s'.scheduled = s.scheduled := by rw [SwappedLoop.scheduled, hdecodes, hprefills, SwappedLoop.scheduled]
  have hplaced := h.placed
  rw [placesOf_cons, add_assoc] at hplaced
  have hmoved := hplaced.move p g rfl (hat hplaced.head.1)
  refine ⟨?_, hscheduled ▸ h.chunks, hprefills ▸ h.noPrefills, fun x hx => ?_, ?_⟩
  · rw [hblocks]
    convert hmoved using 1
    rw [hplaces]
    abel
  · rw [hbudget]
    refine h.apart x ?_
    rw [placesOf_cons, add_assoc]
    exact Multiset.mem_add.mpr (Or.inr hx)
  · rw [hbudget, hscheduled]
    exact h.fits

/-- The group in front is swapped in. -/
theorem SwappedLoop.Inv.joins {queue : List (SequenceGroup T)} {s' : SwappedLoop T B} (hothers : ∀ x ∈ others, x ∈ rest)
    (h : SwappedLoop.Inv config t Sound live rest others (g :: queue) s) (hnew : NewTokens false g s.budget n) (hn : n ≠ 0)
    (hcan : s.budget.canScheduleTokens n 1 = .ok true)
    (hj : SwappedLoop.Joins ⟨g, if g.stage = .prefill then n else 1⟩ n s s')
    (hplaced : Placed config t Sound s'.blocks (s'.takenPlaces + (placesOf .swapped queue + rest))) :
    SwappedLoop.Inv config t Sound live rest others queue s' := by
  have hfront := h.placed
  rw [placesOf_cons, add_assoc] at hfront
  obtain ⟨⟨hprogress, -⟩, -, hother⟩ := hfront.head
  refine ⟨?_, fun d hd => ?_, fun hmode => ?_, fun x hx hmem => ?_, ?_⟩
  · rwa [add_left_comm]
  · rcases List.mem_cons.mp (hj.scheduled.subset hd) with rfl | hd
    · refine ScheduledSequenceGroup.Matches.of_whole ?_
      split_ifs with hstage
      · exact hnew.matches_prefill hn hprogress hstage
      · exact matches_decode hprogress hstage
    · exact h.chunks d hd
  · have hdecode : g.stage ≠ .prefill := by
      rcases hprogress with ⟨hstage, -⟩ | ⟨hchunked, -⟩
      · exact fun hprefill => absurd (hprefill.symm.trans hstage) (by decide)
      · rw [hmode] at hchunked
        cases hchunked
    rw [hj.prefills hdecode]
    exact h.noPrefills hmode
  · rw [hj.budget] at hmem
    rcases SchedulingBudget.mem_addNumSeqs _ _ hmem with heq | hmem
    · refine (hother x ?_).2 heq
      rcases Multiset.mem_add.mp hx with hx | hx
      · exact Multiset.mem_add.mpr (Or.inl hx)
      · exact Multiset.mem_add.mpr (Or.inr (Multiset.mem_add.mpr (Or.inr (hothers x hx))))
    · refine h.apart x ?_ (by simpa using hmem)
      rw [placesOf_cons, add_assoc]
      exact Multiset.mem_add.mpr (Or.inr hx)
  · have hid : g.requestId ∉ s.budget.requestIdsNumCurrSeqs := by
      refine h.apart (.swapped, g) ?_
      rw [placesOf_cons, add_assoc]
      exact Multiset.mem_add.mpr (Or.inl (Multiset.mem_singleton_self _))
    have hfits := h.fits.schedule (hnew.pos hn) hid hcan
    rw [hj.budget, hj.scheduled.length_eq, List.length_cons]
    push_cast
    rwa [← add_assoc]

include laws hw in
/-- **The loop** raises nothing. -/
theorem swappedLoop_ok (hothers : ∀ x ∈ others, x ∈ rest) (queue : List (SequenceGroup T)) : ∀ {s : SwappedLoop T B},
    SwappedLoop.Inv config t Sound live rest others queue s →
      Outcome E (fun s' => SwappedLoop.Inv config t Sound live rest others s'.swapped s')
        (swappedLoop config bm false queue s) := by
  induction queue with
  | nil => intro s h; exact ⟨h.placed, h.chunks, h.noPrefills, h.apart, h.fits⟩
  | cons g queue ih =>
    intro s h
    have hplaced := h.placed
    rw [placesOf_cons, add_assoc] at hplaced
    obtain ⟨⟨hprogress, hcovers⟩, -, -⟩ := hplaced.head
    have hstop : Outcome E (fun s' => SwappedLoop.Inv config t Sound live rest others s'.swapped s')
        (.ok { s with swapped := g :: queue }) := ⟨h.placed, h.chunks, h.noPrefills, h.apart, h.fits⟩
    obtain ⟨status, hstatus⟩ := laws.canSwapIn hplaced.sound hcovers
    rw [swappedLoop]
    refine Outcome.bind_of_ok hstatus ?_
    cases status with
    | later => exact hstop
    | never =>
      refine ih (h.set_aside rfl rfl rfl rfl (p := .infeasible) (fun hat => hat.2) ?_)
      simp only [SwappedLoop.takenPlaces, SwappedLoop.scheduled, placesOf_append, placesOf_cons, placesOf_nil]
      abel
    | ok =>
      dsimp only
      split_ifs with hlora
      · refine ih (h.set_aside rfl rfl rfl rfl (p := .swapped) id ?_)
        simp only [SwappedLoop.takenPlaces, SwappedLoop.scheduled, placesOf_cons]
        abel
      · obtain ⟨n, hn, hnew⟩ : ∃ n, getNumNewTokens config g false s.budget = .ok n ∧ NewTokens false g s.budget n :=
          getNumNewTokens_ok nofun hprogress.seqNumNewTokens.1 nofun
        refine Outcome.bind_of_ok hn ?_
        split_ifs with hzero
        · exact hstop
        · refine Outcome.bind_of_ok (SchedulingBudget.canScheduleTokens_ok hzero) ?_
          split_ifs with hcan
          · rw [add_left_comm (placesOf .swapped queue)] at hplaced
            obtain ⟨s', hs', hplaced', hj⟩ := swapInGroup_ok laws hw (n := n) hplaced hstatus
            have hcan' : s.budget.canScheduleTokens n 1 = .ok true := by
              rw [SchedulingBudget.canScheduleTokens_ok hzero, hcan]
            exact Outcome.bind_of_ok hs' (ih (h.joins hothers hnew hzero hcan' hj hplaced'))
          · exact hstop

/-- What `_schedule_swapped` leaves. -/
structure SwappedLoop.Result (config : SchedulerConfig) (t : BlockTables B) (Sound : B → Prop) (live : ℤ)
    (rest others : Multiset (Place × SequenceGroup T)) (s : SwappedLoop T B) : Prop where
  placed : Placed config t Sound s.blocks (s.places + rest)
  chunks : ∀ d ∈ s.scheduled, d.Matches config.chunkedPrefillEnabled
  noPrefills : config.chunkedPrefillEnabled = false → s.prefillSeqGroups = []
  apart : ∀ x ∈ others, x.2.requestId ∉ s.budget.requestIdsNumCurrSeqs
  fits : s.budget.Fits config (live + s.scheduled.length)

include laws hw in
/-- **`_schedule_swapped`** raises nothing. -/
theorem scheduleSwapped_ok {swapped : List (SequenceGroup T)} {blocks : B} {budget : SchedulingBudget}
    {currLoras : Option (Finset ℕ)} (hothers : ∀ x ∈ others, x ∈ rest)
    (h : Placed config t Sound blocks (placesOf .swapped swapped + rest))
    (hapart : ∀ x ∈ placesOf .swapped swapped + others, x.2.requestId ∉ budget.requestIdsNumCurrSeqs)
    (hfits : budget.Fits config live) :
    Outcome E (SwappedLoop.Result config t Sound live rest others)
      (scheduleSwapped config bm false swapped blocks budget currLoras) := by
  have hstart : SwappedLoop.Inv config t Sound live rest others swapped
      (⟨swapped, [], blocks, [], [], budget, currLoras, [], [], []⟩ : SwappedLoop T B) := by
    refine ⟨?_, fun d hd => absurd hd List.not_mem_nil, fun _ => rfl, hapart, ?_⟩
    · convert h using 1
      simp only [SwappedLoop.takenPlaces, SwappedLoop.scheduled, List.append_nil, List.map_nil, placesOf_nil, zero_add]
    · simpa [SwappedLoop.scheduled] using hfits
  refine (swappedLoop_ok laws hw hothers swapped hstart).map fun s hs => ?_
  obtain ⟨hplaced, hchunks, hprefills, hapart, hfits⟩ := hs
  refine ⟨?_, hchunks, hprefills, fun x hx => hapart x (Multiset.mem_add.mpr (Or.inr hx)), hfits⟩
  convert hplaced using 1
  simp only [SwappedLoop.places, SwappedLoop.takenPlaces, SwappedLoop.scheduled, placesOf_append, placesOf_reverse]
  abel

end Rules

end Scheduler

end FairCache
