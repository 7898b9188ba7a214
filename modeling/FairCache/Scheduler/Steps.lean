import FairCache.Scheduler.Conservation
import FairCache.Scheduler.Prefills
import FairCache.Scheduler.Swapped

/-!
# A step of the scheduler is safe

* `runningBudget_ok` : the budget that the default policy starts with;
* `Ready` : the scheduler before a step; `Loops` : what the three loops leave; `Stepped` : the scheduler after the step;
* `scheduleDefault_ok`, `scheduleChunkedPrefill_ok`, `schedule_ok` : a step raises nothing but for want of swap space.
-/

namespace FairCache

open Lib

variable {T F B : Type}

/-- The groups of the scheduler between two steps, at their places. -/
def SchedulerState.places (s : SchedulerState T F B) : Multiset (Place × SequenceGroup T) :=
  placesOf .waiting s.waiting.iter + placesOf .running s.running + placesOf .swapped s.swapped

/-- The scheduler before a step; `rest` are groups that left it with their blocks. -/
structure SchedulerState.Ready (config : SchedulerConfig) (t : BlockTables B) (Sound : B → Prop)
    (rest : Multiset (Place × SequenceGroup T)) (s : SchedulerState T F B) : Prop where
  placed : Placed config t Sound s.blocks (s.places + rest)
  waiting : s.waiting.Sound
  known : ∀ q ∈ s.held, s.waiting.Knows q.clientId
  running_le : s.running.length ≤ config.maxNumSeqs
  stopped : s.asyncStopped = []

/-- The scheduler after a step: the running groups that are `left` out of the batch, and those that never fit again. -/
structure SchedulerState.Stepped (config : SchedulerConfig) (t : BlockTables B) (Sound : B → Prop)
    (rest : Multiset (Place × SequenceGroup T)) (s s' : SchedulerState T F B) (out : SchedulingOutputs T)
    (left infeasible : List (SequenceGroup T)) : Prop where
  placed : Placed config t Sound s'.blocks (placesOf .waiting s'.waiting.iter + placesOf .running left +
    placesOf .scheduled (out.scheduledSeqGroups.map ScheduledSequenceGroup.seqGroup) + placesOf .swapped s'.swapped +
    placesOf .stopped s'.asyncStopped + placesOf .infeasible infeasible + rest)
  running : s'.running.Perm (left ++ out.scheduledSeqGroups.map ScheduledSequenceGroup.seqGroup)
  chunks : ∀ d ∈ out.scheduledSeqGroups, d.Matches config.chunkedPrefillEnabled
  waiting : s.waiting.Extends s'.waiting
  running_le : s'.running.length ≤ config.maxNumSeqs
  ignored : ∃ prompts : List (SequenceGroup T), out.ignoredSeqGroups = prompts ++ infeasible ∧ requests prompts ≤ requests s.waiting.iter

section Known
variable {config : SchedulerConfig} {t : BlockTables B} {Sound : B → Prop} {rest : Multiset (Place × SequenceGroup T)}
variable {s : SchedulerState T F B} (h : s.Ready config t Sound rest)
include h

theorem SchedulerState.Ready.known_waiting : ∀ q ∈ requests s.waiting.iter, s.waiting.Knows q.clientId := fun q hq =>
  h.known q (Multiset.mem_add.mpr (Or.inl (Multiset.mem_add.mpr (Or.inl (Multiset.mem_add.mpr (Or.inl hq))))))

theorem SchedulerState.Ready.known_running : ∀ q ∈ requests s.running, s.waiting.Knows q.clientId := fun q hq =>
  h.known q (Multiset.mem_add.mpr (Or.inl (Multiset.mem_add.mpr (Or.inl (Multiset.mem_add.mpr (Or.inr hq))))))

theorem SchedulerState.Ready.known_swapped : ∀ q ∈ requests s.swapped, s.waiting.Knows q.clientId := fun q hq =>
  h.known q (Multiset.mem_add.mpr (Or.inl (Multiset.mem_add.mpr (Or.inr hq))))

end Known

namespace Scheduler

variable {config : SchedulerConfig} {bm : BlockSpaceManager B} {t : BlockTables B} {Sound : B → Prop}
variable {rest : Multiset (Place × SequenceGroup T)}

/-! ## The budget of the running groups -/

theorem foldl_addNumSeqs {running : List (SequenceGroup T)} : ∀ {b : SchedulingBudget},
    (running.map SequenceGroup.requestId).Nodup → (∀ g ∈ running, g.requestId ∉ b.requestIdsNumCurrSeqs) →
      ∃ ids, (∀ id ∈ ids, id ∈ b.requestIdsNumCurrSeqs ∨ ∃ g ∈ running, g.requestId = id) ∧
        running.foldl (fun b g => b.addNumSeqs g.requestId 1) b =
          { b with requestIdsNumCurrSeqs := ids, numCurrSeqs := b.numCurrSeqs + running.length } := by
  induction running with
  | nil => intro b _ _; exact ⟨_, fun id hid => Or.inl hid, by simp⟩
  | cons g running ih =>
    intro b hnodup hnot
    rw [List.map_cons, List.nodup_cons] at hnodup
    have hadd : b.addNumSeqs g.requestId 1 =
        { b with requestIdsNumCurrSeqs := insert g.requestId b.requestIdsNumCurrSeqs, numCurrSeqs := b.numCurrSeqs + (1 : ℕ) } :=
      if_neg (hnot g List.mem_cons_self)
    obtain ⟨ids, hids, hfold⟩ := ih (b := b.addNumSeqs g.requestId 1) hnodup.2 fun x hx hmem => by
      rw [hadd] at hmem
      rcases Finset.mem_insert.mp hmem with heq | hmem
      · exact hnodup.1 (heq ▸ List.mem_map_of_mem hx)
      · exact hnot x (List.mem_cons_of_mem _ hx) hmem
    refine ⟨ids, fun id hid => ?_, ?_⟩
    · rcases hids id hid with hmem | ⟨x, hx, rfl⟩
      · rw [hadd] at hmem
        rcases Finset.mem_insert.mp hmem with rfl | hmem
        · exact Or.inr ⟨g, List.mem_cons_self, rfl⟩
        · exact Or.inl hmem
      · exact Or.inr ⟨x, List.mem_cons_of_mem _ hx, rfl⟩
    · rw [List.foldl_cons, hfold, hadd, List.length_cons]
      push_cast
      congr 1
      omega

/-- The budget with all running sequences. -/
theorem runningBudget_ok (config : SchedulerConfig) {running : List (SequenceGroup T)} (hnodup : (running.map SequenceGroup.requestId).Nodup) :
    ∃ ids, (∀ id ∈ ids, ∃ g ∈ running, g.requestId = id) ∧ runningBudget config running =
      { SchedulingBudget.new config with requestIdsNumCurrSeqs := ids, numCurrSeqs := running.length } := by
  obtain ⟨ids, hids, hfold⟩ := foldl_addNumSeqs (b := SchedulingBudget.new config) hnodup fun g _ => Finset.notMem_empty _
  refine ⟨ids, fun id hid => (hids id hid).resolve_left (Finset.notMem_empty _), ?_⟩
  rw [runningBudget, hfold]
  simp [SchedulingBudget.new]

/-! ## From the loops to the queues -/

theorem mem_requests {l : List (SequenceGroup T)} {g : SequenceGroup T} (hg : g ∈ l) : g.request ∈ requests l :=
  Multiset.mem_coe.mpr (List.mem_map_of_mem hg)

theorem mem_scheduledRequests {l : List (ScheduledSequenceGroup T)} {d : ScheduledSequenceGroup T} (hd : d ∈ l) :
    d.seqGroup.request ∈ scheduledRequests l := mem_requests (List.mem_map_of_mem hd)

theorem checkBudget_ok {b : SchedulingBudget} {live : ℤ} (h : b.Fits config live) : checkBudget config b = .ok () := by
  have := h.tokens
  have := h.seqs
  have := h.tokenBudget
  have := h.maxNumSeqs
  exact if_neg (by omega)

/-- What the three loops leave, with the blocks and the budget at the end. -/
structure Loops (config : SchedulerConfig) (t : BlockTables B) (Sound : B → Prop) (rest : Multiset (Place × SequenceGroup T))
    (s : SchedulerState T F B) (p : PrefillLoop T F B) (r : RunningLoop T B) (w : SwappedLoop T B) (b : B)
    (budget : SchedulingBudget) : Prop where
  placed : Placed config t Sound b (placesOf .waiting p.waiting.iter +
    placesOf .scheduled (p.seqGroups.map ScheduledSequenceGroup.seqGroup) + r.places + w.places + rest)
  waiting : s.waiting.Extends p.waiting
  chunks : ∀ d ∈ p.seqGroups ++ r.scheduled ++ w.scheduled, d.Matches config.chunkedPrefillEnabled
  fits : budget.Fits config (r.running.length + p.seqGroups.length + r.scheduled.length + w.scheduled.length)
  swap : r.blocksToSwapOut = [] ∨ w.blocksToSwapIn = []
  ignored : requests p.ignored ≤ requests s.waiting.iter

theorem postInit_ok (out : SchedulingOutputs T) (h : out.blocksToSwapOut = [] ∨ out.blocksToSwapIn = []) :
    ∃ out', out.postInit = .ok out' ∧ out'.scheduledSeqGroups.Perm out.scheduledSeqGroups := by
  unfold SchedulingOutputs.postInit
  rw [if_neg fun hboth => h.elim hboth.2 hboth.1]
  split_ifs
  · exact ⟨_, rfl, List.perm_insertionSort _ _⟩
  · exact ⟨_, rfl, List.Perm.refl _⟩

theorem Loops.finish {s : SchedulerState T F B} {p : PrefillLoop T F B} {r : RunningLoop T B} {w : SwappedLoop T B} {b : B}
    {budget : SchedulingBudget} {waiting : WaitingQueue F (SequenceGroup T)} {joined scheduled : List (ScheduledSequenceGroup T)}
    (h : Loops config t Sound rest s p r w b budget) (hwaiting : s.waiting.Extends waiting)
    (hiter : waiting.iter.Perm (r.preempted ++ p.waiting.iter)) (hjoined : joined.Perm scheduled)
    (hscheduled : scheduled.Perm (p.seqGroups ++ r.scheduled ++ w.scheduled)) : ∃ out,
      (outputs p r w scheduled budget (updateQueues s r w waiting joined b)).postInit = .ok out ∧
        SchedulerState.Stepped config t Sound rest s (updateQueues s r w waiting joined b) out r.running w.infeasible := by
  obtain ⟨out, hout, hperm⟩ := postInit_ok (outputs p r w scheduled budget (updateQueues s r w waiting joined b)) h.swap
  change out.scheduledSeqGroups.Perm scheduled at hperm
  have hall := hperm.trans hscheduled
  refine ⟨out, hout, ?_, ?_, fun d hd => h.chunks d (hall.subset hd), hwaiting, ?_, p.ignored, ?_, h.ignored⟩
  · have hplaced := h.placed
    have hsplit : placesOf .waiting p.waiting.iter + placesOf .scheduled (p.seqGroups.map ScheduledSequenceGroup.seqGroup) +
        r.places + w.places + rest = placesOf .gone r.finished + (placesOf .waiting (r.preempted ++ p.waiting.iter) +
          placesOf .running r.running + placesOf .scheduled ((p.seqGroups ++ r.scheduled ++ w.scheduled).map
            ScheduledSequenceGroup.seqGroup) + placesOf .swapped (w.swapped ++ r.swappedOut) +
          placesOf .stopped r.asyncStopped + placesOf .infeasible w.infeasible + rest) := by
      simp only [RunningLoop.places, RunningLoop.takenPlaces, SwappedLoop.places, placesOf_append, List.map_append]
      abel
    rw [hsplit] at hplaced
    have hleft := hplaced.leaveAll
    rwa [← placesOf_perm hiter, ← placesOf_perm (hall.map _)] at hleft
  · exact (((hjoined.trans hperm.symm).map _).append_left _)
  · have hfits := h.fits.live_le
    have hmax := h.fits.maxNumSeqs
    have hlen := (hjoined.trans hscheduled).length_eq
    simp only [List.length_append] at hlen
    show (r.running ++ joined.map ScheduledSequenceGroup.seqGroup).length ≤ _
    rw [List.length_append, List.length_map, hlen]
    omega
  · rw [ignoredSeqGroups_postInit hout]
    rfl

/-! ## The two policies -/

section Policies
variable [LinearOrder F] {s : SchedulerState T F B} {E : PyError → Prop}
variable {passedDelay : ℕ → Bool} {finishes : SequenceGroup T → Bool}
variable (laws : bm.Laws t Sound) (hw : config.Works)

/-! ### Loops that do not run -/

@[simp] theorem scheduled_noRunning (running asyncStopped : List (SequenceGroup T)) (blocks : B) (budget : SchedulingBudget)
    (currLoras : Option (Finset ℕ)) : (noRunning running asyncStopped blocks budget currLoras).scheduled = [] := rfl

@[simp] theorem places_noRunning (running asyncStopped : List (SequenceGroup T)) (blocks : B) (budget : SchedulingBudget)
    (currLoras : Option (Finset ℕ)) : (noRunning running asyncStopped blocks budget currLoras).places =
      placesOf .running running + placesOf .stopped asyncStopped := by
  simp [RunningLoop.places, RunningLoop.takenPlaces, noRunning, RunningLoop.scheduled]

@[simp] theorem scheduled_noSwapped (swapped : List (SequenceGroup T)) (blocks : B) (budget : SchedulingBudget)
    (currLoras : Option (Finset ℕ)) : (noSwapped swapped blocks budget currLoras).scheduled = [] := rfl

@[simp] theorem places_noSwapped (swapped : List (SequenceGroup T)) (blocks : B) (budget : SchedulingBudget)
    (currLoras : Option (Finset ℕ)) : (noSwapped swapped blocks budget currLoras).places = placesOf .swapped swapped := by
  simp [SwappedLoop.places, noSwapped, SwappedLoop.scheduled]

include laws hw in
/-- The swapped groups, after the running ones. -/
theorem swapInAfter_ok {r : RunningLoop T B} {swapped : List (SequenceGroup T)} (others : Multiset (Place × SequenceGroup T))
    {rest' : Multiset (Place × SequenceGroup T)} (h : r.Result config t Sound (placesOf .swapped swapped + rest')) (hothers : ∀ x ∈ others, x ∈ rest') :
    Outcome E (fun w => w.Result config t Sound (r.running.length + r.scheduled.length) (r.places + rest') others ∧
      (r.blocksToSwapOut = [] ∨ w.blocksToSwapIn = [])) (swapInAfter config bm r swapped) := by
  have hplaced := h.placed
  rw [add_left_comm] at hplaced
  have hapart : ∀ x ∈ placesOf .swapped swapped + others, x.2.requestId ∉ r.budget.requestIdsNumCurrSeqs := by
    intro x hx
    refine h.apart x (Multiset.mem_add.mpr ((Multiset.mem_add.mp hx).imp_right (hothers x)))
  unfold swapInAfter
  split_ifs with hnone
  · refine (scheduleSwapped_ok laws hw (fun x hx => Multiset.mem_add.mpr (Or.inr (hothers x hx))) hplaced hapart h.fits).imp
      fun w hw' => ⟨hw', Or.inl (h.swap hnone.2)⟩
  · refine ⟨⟨?_, fun d hd => absurd hd List.not_mem_nil, fun _ => rfl,
      fun x hx => hapart x (Multiset.mem_add.mpr (Or.inr hx)), ?_⟩, Or.inr rfl⟩
    · rw [places_noSwapped]
      exact hplaced
    · rw [scheduled_noSwapped, List.length_nil, Nat.cast_zero, add_zero]
      exact h.fits

/-! ### The default policy -/

include laws hw in
/-- The prompts. -/
theorem schedulePrompts_ok (passedDelay : ℕ → Bool) (hmode : config.chunkedPrefillEnabled = false) (h : s.Ready config t Sound rest) :
    Outcome E (PrefillLoop.Result config t Sound s.running.length
      (placesOf .running s.running + placesOf .swapped s.swapped + rest) s.waiting (runningBudget config s.running))
      (schedulePrompts config bm passedDelay s) := by
  have hplaced := h.placed
  have hsplit : s.places + rest = placesOf .running s.running + (placesOf .waiting s.waiting.iter +
      (placesOf .swapped s.swapped + rest)) := by
    unfold SchedulerState.places
    abel
  have hsplit' : s.places + rest = placesOf .waiting s.waiting.iter + (placesOf .running s.running +
      placesOf .swapped s.swapped + rest) := by
    unfold SchedulerState.places
    abel
  obtain ⟨ids, hids, hbudget⟩ := runningBudget_ok config (hsplit ▸ hplaced).nodup_ids.2
  have hfits : (runningBudget config s.running).Fits config s.running.length := by
    rw [hbudget]
    have := h.running_le
    exact ⟨rfl, rfl, Int.natCast_nonneg _, by simpa [SchedulingBudget.new] using this,
      by simpa [SchedulingBudget.new] using this, Or.inl (le_refl _), fun _ => le_refl _⟩
  have hapart : ∀ g ∈ s.waiting.iter, g.requestId ∉ (runningBudget config s.running).requestIdsNumCurrSeqs := by
    intro g hg hmem
    rw [hbudget] at hmem
    obtain ⟨x, hx, heq⟩ := hids _ hmem
    have hne := (hsplit ▸ hplaced).ids_ne (x := (.running, x)) (y := (.waiting, g)) (mem_placesOf.mpr ⟨rfl, hx⟩)
      (Multiset.mem_add.mpr (Or.inl (mem_placesOf.mpr ⟨rfl, hg⟩)))
    exact hne.2 heq
  unfold schedulePrompts
  dsimp only
  split_ifs
  · rw [← hmode]
    exact schedulePrefills_ok laws hw passedDelay _ h.waiting (fun g hg => h.known_waiting _ (mem_requests hg)) (hsplit' ▸ hplaced) hapart
      hfits
  · refine ⟨?_, h.waiting.extends_refl, fun d hd => absurd hd List.not_mem_nil, ?_, fun _ => rfl⟩
    · rw [hsplit'] at hplaced
      simpa [noPrefills] using hplaced
    · simpa [noPrefills] using hfits

omit [LinearOrder F] in
include laws hw in
/-- The running and the swapped groups, or none of them after a prompt. -/
theorem scheduleDecodes_ok (finishes : SequenceGroup T → Bool) (hmode : config.chunkedPrefillEnabled = false) (h : s.Ready config t Sound rest) {p : PrefillLoop T F B}
    (hp : p.Result config t Sound s.running.length (placesOf .running s.running + placesOf .swapped s.swapped + rest) s.waiting
      (runningBudget config s.running)) (hignored : requests p.ignored ≤ requests s.waiting.iter) :
    Outcome (SwapSpace config) (fun x => Loops config t Sound rest s p x.1 x.2 x.2.blocks x.2.budget ∧
        x.1.prefillSeqGroups = [] ∧ x.2.prefillSeqGroups = [])
      (scheduleDecodes config bm finishes s p) := by
  unfold scheduleDecodes
  split_ifs with hnone
  · have hplaced := hp.placed
    rw [hnone, List.map_nil, placesOf_nil, add_zero] at hplaced
    have hsplit : placesOf .waiting p.waiting.iter + (placesOf .running s.running + placesOf .swapped s.swapped + rest) =
        placesOf .running s.running + (placesOf .swapped s.swapped + (placesOf .waiting p.waiting.iter + rest)) := by abel
    rw [hsplit] at hplaced
    obtain ⟨ids, hids, hbudget⟩ := runningBudget_ok config hplaced.nodup_ids.2
    have hbudget' := (hp.unused hnone).trans hbudget
    have hapart : ∀ x ∈ placesOf .swapped s.swapped + (placesOf .waiting p.waiting.iter + rest),
        x.2.requestId ∉ p.budget.requestIdsNumCurrSeqs := by
      intro x hx hmem
      rw [hbudget'] at hmem
      obtain ⟨g, hg, heq⟩ := hids _ hmem
      exact (hplaced.ids_ne (x := (.running, g)) (mem_placesOf.mpr ⟨rfl, hg⟩) hx).2 heq
    have hwithin : p.budget.Within config s.running.length 0 := by
      have hle : (s.running.length : ℤ) ≤ config.maxNumSeqs := by exact_mod_cast h.running_le
      rw [hbudget']
      refine ⟨rfl, rfl, hle, fun hchunked => ?_, fun _ => ⟨le_refl _, hle, le_refl _⟩⟩
      rw [hmode] at hchunked
      cases hchunked
    have hrun := scheduleRunning_ok laws hw finishes p.currLoras hplaced hapart
      (fun hchunked => by rw [hmode] at hchunked; cases hchunked) hwithin
    rw [hmode, ← h.stopped] at hrun
    refine hrun.bind fun r hr => (swapInAfter_ok laws hw 0 hr (fun x hx => absurd hx (Multiset.notMem_zero x))).bind
      fun w hw' => ?_
    obtain ⟨hw', hswap⟩ := hw'
    refine ⟨⟨?_, hp.waiting, ?_, ?_, hswap, hignored⟩, hr.noPrefills hmode, hw'.noPrefills hmode⟩
    · have hplaced' := hw'.placed
      rw [hnone, List.map_nil, placesOf_nil, add_zero]
      convert hplaced' using 1
      abel
    · rw [hnone, List.nil_append]
      exact List.forall_mem_append.mpr ⟨hr.chunks, hw'.chunks⟩
    · rw [hnone, List.length_nil, Nat.cast_zero, add_zero]
      exact hw'.fits
  · refine ⟨⟨?_, hp.waiting, ?_, ?_, Or.inl rfl, hignored⟩, rfl, rfl⟩
    · have hplaced := hp.placed
      rw [places_noRunning, places_noSwapped, h.stopped, placesOf_nil, add_zero]
      show Placed config t Sound p.blocks _
      convert hplaced using 1
      abel
    · rw [scheduled_noRunning, scheduled_noSwapped, List.append_nil, List.append_nil]
      exact hp.chunks
    · rw [scheduled_noRunning, scheduled_noSwapped, List.length_nil, Nat.cast_zero, add_zero, add_zero]
      exact hp.fits

omit [LinearOrder F] in
theorem foldlM_chargeDecode_ok [Field F] {gs : List (ScheduledSequenceGroup T)} :
    ∀ {waiting : WaitingQueue F (SequenceGroup T)}, waiting.Sound → (∀ d ∈ gs, waiting.Knows (clientId d.seqGroup)) →
      ∃ waiting', gs.foldlM (fun waiting g => waiting.chargeDecode (clientId g.seqGroup)) waiting = .ok waiting' ∧
        waiting.Extends waiting' := by
  induction gs with
  | nil => intro waiting h _; exact ⟨waiting, rfl, h.extends_refl⟩
  | cons d gs ih =>
    intro waiting h hgs
    obtain ⟨hd, hgs⟩ := List.forall_mem_cons.mp hgs
    obtain ⟨w₁, hw₁, h₁⟩ := WaitingQueue.chargeDecode_ok h hd
    obtain ⟨w', hw', h'⟩ := ih h₁.sound fun d' hd' => h₁.knows _ (hgs d' hd')
    refine ⟨w', ?_, h₁.trans h'⟩
    rw [List.foldlM_cons, hw₁]
    exact hw'

omit [LinearOrder F] in
theorem chargeDecodes_ok [Field F] {p : PrefillLoop T F B} {scheduled : List (ScheduledSequenceGroup T)}
    {waiting : WaitingQueue F (SequenceGroup T)} (h : waiting.Sound)
    (hknown : ∀ d ∈ scheduled, waiting.Knows (clientId d.seqGroup)) : ∃ waiting',
      chargeDecodes p scheduled waiting = .ok waiting' ∧ waiting.Extends waiting' ∧ waiting'.iter = waiting.iter := by
  unfold chargeDecodes
  split_ifs
  · obtain ⟨w', hw', hext⟩ := foldlM_chargeDecode_ok h hknown
    exact ⟨w', hw', hext, iter_foldlM_chargeDecode _ hw'⟩
  · exact ⟨waiting, rfl, h.extends_refl, rfl⟩

omit [LinearOrder F] in
theorem known_preempted {r : RunningLoop T B} (h : s.Ready config t Sound rest)
    (hr : r.requests = requests s.running) : ∀ g ∈ r.preempted, s.waiting.Knows (clientId g) := by
  intro g hg
  refine h.known_running g.request ?_
  rw [← hr]
  have := mem_requests hg
  simp only [RunningLoop.requests, RunningLoop.taken, Multiset.mem_add]
  tauto

include laws hw in
/-- **A step of the default policy** raises nothing but for want of swap space. -/
theorem scheduleDefault_ok [Field F] (hmode : config.chunkedPrefillEnabled = false) (h : s.Ready config t Sound rest) :
    Outcome (SwapSpace config) (fun x => ∃ left infeasible, s.Stepped config t Sound rest x.1 x.2 left infeasible)
      (scheduleDefault config bm passedDelay finishes s) := by
  refine ((schedulePrompts_ok laws hw passedDelay hmode h).and_of_ok fun p hp =>
    requests_schedulePrompts hp).bind fun p hp => ?_
  obtain ⟨hp, hprequests⟩ := hp
  have hignored : requests p.ignored ≤ requests s.waiting.iter := hprequests ▸ Multiset.le_add_left _ _
  refine ((scheduleDecodes_ok laws hw finishes hmode h hp hignored).and_of_ok fun x hx =>
    requests_scheduleDecodes hx).bind fun x hx => ?_
  obtain ⟨r, w⟩ := x
  obtain ⟨⟨hloops, hrnone, hwnone⟩, hrrequests, hwrequests⟩ := hx
  refine Outcome.bind_of_ok (checkBudget_ok hloops.fits) ?_
  rw [h.stopped, requests_nil, add_zero] at hrrequests
  obtain ⟨w₁, hw₁, hext₁⟩ := WaitingQueue.extendleft_ok hp.waiting.sound fun g hg =>
    hp.waiting.knows _ (known_preempted h hrrequests g hg)
  have hchunks : checkNoChunks r w = .ok () := if_neg (not_or.mpr ⟨not_not.mpr hrnone, not_not.mpr hwnone⟩)
  refine Outcome.bind_of_ok hw₁ (Outcome.bind_of_ok hchunks ?_)
  have hscheduled : ∀ d ∈ p.seqGroups ++ r.decodeSeqGroups ++ w.decodeSeqGroups, s.waiting.Knows (clientId d.seqGroup) := by
    intro d hd
    rcases List.mem_append.mp hd with hd | hd
    · rcases List.mem_append.mp hd with hd | hd
      · refine h.known_waiting d.seqGroup.request ?_
        rw [← hprequests]
        have := mem_scheduledRequests hd
        simp only [Multiset.mem_add]
        tauto
      · refine h.known_running d.seqGroup.request ?_
        rw [← hrrequests]
        have := mem_scheduledRequests hd
        simp only [RunningLoop.requests, RunningLoop.taken, Multiset.mem_add]
        tauto
    · refine h.known_swapped d.seqGroup.request ?_
      rw [← hwrequests]
      have := mem_scheduledRequests hd
      simp only [Multiset.mem_add]
      tauto
  obtain ⟨w₂, hw₂, hext₂, hiter₂⟩ := chargeDecodes_ok (p := p) hext₁.sound fun d hd =>
    hext₁.knows _ (hp.waiting.knows _ (hscheduled d hd))
  have hiter : w₂.iter.Perm (r.preempted ++ p.waiting.iter) := hiter₂ ▸ WaitingQueue.iter_extendleft hw₁
  have hperm : (p.seqGroups ++ r.decodeSeqGroups ++ w.decodeSeqGroups).Perm (p.seqGroups ++ r.scheduled ++ w.scheduled) := by
    rw [RunningLoop.scheduled, SwappedLoop.scheduled, hrnone, hwnone, List.append_nil, List.append_nil]
  obtain ⟨out, hout, hstepped⟩ := hloops.finish (hp.waiting.trans (hext₁.trans hext₂)) hiter (List.Perm.refl _) hperm
  exact Outcome.bind_of_ok hw₂ (Outcome.bind_of_ok hout ⟨_, _, hstepped⟩)

/-! ### Chunked prefills -/

omit [LinearOrder F] in
include laws hw in
/-- The running groups, with an empty budget. -/
theorem scheduleRunning_chunked_ok (finishes : SequenceGroup T → Bool) (hmode : config.chunkedPrefillEnabled = true) (h : s.Ready config t Sound rest) :
    Outcome (SwapSpace config)
      (RunningLoop.Result config t Sound (placesOf .swapped s.swapped + (placesOf .waiting s.waiting.iter + rest)))
      (scheduleRunning config bm finishes true s.running s.asyncStopped s.blocks (SchedulingBudget.new config) (some ∅)) := by
  have hplaced := h.placed
  have hsplit : s.places + rest = placesOf .running s.running + (placesOf .swapped s.swapped +
      (placesOf .waiting s.waiting.iter + rest)) := by
    unfold SchedulerState.places
    abel
  have hwithin : (SchedulingBudget.new config).Within config s.running.length 0 := by
    have hle : (s.running.length : ℤ) ≤ config.maxNumSeqs := by exact_mod_cast h.running_le
    refine ⟨rfl, rfl, hle, fun _ => ⟨rfl, le_refl _, Int.natCast_nonneg _⟩, fun hwhole => ?_⟩
    rw [hmode] at hwhole
    cases hwhole
  rw [← hmode, h.stopped]
  exact scheduleRunning_ok laws hw finishes _ (hsplit ▸ hplaced) (fun x _ => Finset.notMem_empty _)
    (fun _ g _ => ⟨Finset.notMem_empty _, Finset.notMem_empty _⟩) hwithin

include laws hw in
/-- **A step with chunked prefills** raises nothing but for want of swap space. -/
theorem scheduleChunkedPrefill_ok (hmode : config.chunkedPrefillEnabled = true) (h : s.Ready config t Sound rest) :
    Outcome (SwapSpace config) (fun x => ∃ left infeasible, s.Stepped config t Sound rest x.1 x.2 left infeasible)
      (scheduleChunkedPrefill config bm passedDelay finishes s) := by
  refine ((scheduleRunning_chunked_ok laws hw finishes hmode h).and_of_ok fun r hr => requests_scheduleRunning hr).bind fun r hr => ?_
  obtain ⟨hr, -, hrrequests⟩ := hr
  refine (swapInAfter_ok laws hw (placesOf .waiting s.waiting.iter) hr
    fun x hx => Multiset.mem_add.mpr (Or.inl hx)).bind fun w hw' => ?_
  obtain ⟨hw', hswap⟩ := hw'
  have hplaced' := hw'.placed
  have hsplit' : w.places + (r.places + (placesOf .waiting s.waiting.iter + rest)) =
      placesOf .waiting s.waiting.iter + (r.places + w.places + rest) := by abel
  rw [hsplit'] at hplaced'
  have hprefills := schedulePrefills_ok laws hw (E := SwapSpace config) passedDelay w.currLoras
    h.waiting (fun g hg => h.known_waiting _ (mem_requests hg)) hplaced'
    (fun g hg => hw'.apart (.waiting, g) (mem_placesOf.mpr ⟨rfl, hg⟩)) hw'.fits
  rw [hmode] at hprefills
  refine (hprefills.and_of_ok fun p hp => requests_schedulePrefills hp).bind fun p hp => ?_
  obtain ⟨hp, hprequests⟩ := hp
  refine Outcome.bind_of_ok (checkBudget_ok hp.fits) ?_
  obtain ⟨w₁, hw₁, hext₁⟩ := WaitingQueue.extendleft_ok hp.waiting.sound fun g hg =>
    hp.waiting.knows _ (known_preempted h hrrequests g hg)
  have hloops : Loops config t Sound rest s p r w p.blocks p.budget := by
    refine ⟨?_, hp.waiting, ?_, ?_, hswap, hprequests ▸ Multiset.le_add_left _ _⟩
    · have hplaced₂ := hp.placed
      convert hplaced₂ using 1
      abel
    · exact List.forall_mem_append.mpr ⟨List.forall_mem_append.mpr ⟨hp.chunks, hr.chunks⟩, hw'.chunks⟩
    · have hfits := hp.fits
      convert hfits using 1
      abel
  have hscheduled : (p.seqGroups ++ r.prefillSeqGroups ++ w.prefillSeqGroups ++ r.decodeSeqGroups ++ w.decodeSeqGroups).Perm
      (p.seqGroups ++ r.scheduled ++ w.scheduled) := by
    refine Multiset.coe_eq_coe.mp ?_
    simp only [RunningLoop.scheduled, SwappedLoop.scheduled, ← Multiset.coe_add]
    abel
  have hjoined : (w.decodeSeqGroups ++ w.prefillSeqGroups ++ r.decodeSeqGroups ++ r.prefillSeqGroups ++ p.seqGroups).Perm
      (p.seqGroups ++ r.prefillSeqGroups ++ w.prefillSeqGroups ++ r.decodeSeqGroups ++ w.decodeSeqGroups) := by
    refine Multiset.coe_eq_coe.mp ?_
    simp only [← Multiset.coe_add]
    abel
  obtain ⟨out, hout, hstepped⟩ := hloops.finish (hp.waiting.trans hext₁) (WaitingQueue.iter_extendleft hw₁) hjoined hscheduled
  exact Outcome.bind_of_ok hw₁ (Outcome.bind_of_ok hout ⟨_, _, hstepped⟩)

include laws hw in
/-- **A step of the scheduler** raises nothing but for want of swap space. -/
theorem schedule_ok [Field F] (h : s.Ready config t Sound rest) :
    Outcome (SwapSpace config) (fun x => ∃ left infeasible, s.Stepped config t Sound rest x.1 x.2 left infeasible)
      (schedule config bm passedDelay finishes s) := by
  unfold schedule
  split_ifs with hmode
  · exact scheduleChunkedPrefill_ok laws hw hmode h
  · exact scheduleDefault_ok laws hw (Bool.eq_false_of_not_eq_true hmode) h

end Policies

end Scheduler

end FairCache
