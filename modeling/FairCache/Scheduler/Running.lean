import FairCache.Scheduler.Budget
import Mathlib.Tactic.Abel

/-!
# The running groups stay at their places

* `SwapSpace` : the one exception that the scheduler may raise; `Matches` : the chunk of a scheduled group;
* `preemptVictim_ok`, `makeRoom_ok`, `scheduleGroup_ok` : the parts of the loop;
* `RunningLoop.Inv` : the loop's invariant; `runningLoop_ok`, `scheduleRunning_ok` : the loop raises nothing but for want
  of swap space, and where it stops early the budget is spent.
-/

namespace FairCache

open Lib

/-- The one exception: a group should be swapped out, and there is no room on the CPU. -/
def SwapSpace (config : SchedulerConfig) (e : PyError) : Prop :=
  e = Scheduler.noSwapSpace ∧ config.preemptionMode = some "swap"

/-- The chunk of a scheduled group ends within its tokens, and at their end where nothing is chunked. -/
structure ScheduledSequenceGroup.Matches {T : Type} (chunked : Bool) (d : ScheduledSequenceGroup T) : Prop where
  pos : 0 < d.tokenChunkSize
  le_len : d.tokenChunkSize + d.seqGroup.numComputedTokens ≤ d.seqGroup.getLen
  whole : d.seqGroup.stage = .decode ∨ chunked = false →
    d.tokenChunkSize + d.seqGroup.numComputedTokens = d.seqGroup.getLen

section Matches
variable {T : Type} {g : SequenceGroup T} {b : SchedulingBudget} {n : ℤ} {chunked chunking : Bool}

theorem ScheduledSequenceGroup.Matches.of_whole {d : ScheduledSequenceGroup T} (h : d.Matches false) : d.Matches chunked :=
  ⟨h.pos, h.le_len, fun _ => h.whole (Or.inr rfl)⟩

theorem NewTokens.pos (h : NewTokens chunking g b n) (hn : n ≠ 0) : 0 < n := lt_of_le_of_ne h.nonneg (Ne.symm hn)

theorem NewTokens.matches_fresh (h : NewTokens chunking g b n) (hn : n ≠ 0) (hg : g.Fresh) :
    (⟨g, n⟩ : ScheduledSequenceGroup T).Matches chunking := by
  have hle := h.le_new
  have hpos := h.pos hn
  have hwhole := h.whole
  rw [hg.seqNumNewTokens] at hle hwhole
  have hcomputed := hg.2
  refine ⟨hpos, by dsimp only; omega, ?_⟩
  rintro (hdecode | hmode)
  · exact absurd (hg.1.symm.trans hdecode) (by decide)
  · have := hwhole hmode
    dsimp only
    omega

theorem NewTokens.matches_prefill (h : NewTokens chunking g b n) (hn : n ≠ 0) (hg : g.Progress chunked)
    (hstage : g.stage = .prefill) : (⟨g, n⟩ : ScheduledSequenceGroup T).Matches chunking := by
  obtain ⟨-, hnew⟩ := hg.seqNumNewTokens
  have hle := h.le_new
  refine ⟨h.pos hn, by dsimp only; omega, ?_⟩
  rintro (hdecode | hmode)
  · exact absurd (hstage.symm.trans hdecode) (by decide)
  · have := h.whole hmode
    dsimp only
    omega

theorem matches_decode (hg : g.Progress chunked) (hstage : g.stage ≠ .prefill) :
    (⟨g, 1⟩ : ScheduledSequenceGroup T).Matches chunking := by
  rcases hg with ⟨-, hlen⟩ | ⟨-, hprefill, -⟩
  · refine ⟨one_pos, ?_, fun _ => ?_⟩ <;> dsimp only <;> omega
  · exact absurd hprefill hstage

end Matches

namespace Scheduler

variable {T B : Type}

namespace RunningLoop

/-- The groups that are scheduled. -/
def scheduled (s : RunningLoop T B) : List (ScheduledSequenceGroup T) := s.decodeSeqGroups ++ s.prefillSeqGroups

/-- What the loop has taken from the running queue, at its places. -/
def takenPlaces (s : RunningLoop T B) : Multiset (Place × SequenceGroup T) :=
  placesOf .scheduled (s.scheduled.map ScheduledSequenceGroup.seqGroup) + placesOf .waiting s.preempted +
    placesOf .swapped s.swappedOut + placesOf .gone s.finished + placesOf .stopped s.asyncStopped

/-- All groups of the loop. -/
def places (s : RunningLoop T B) : Multiset (Place × SequenceGroup T) := placesOf .running s.running + s.takenPlaces

/-- What a preemption leaves as it is. -/
structure Preempts (s s' : RunningLoop T B) : Prop where
  running : s'.running = s.running
  budget : s'.budget = s.budget
  decodes : s'.decodeSeqGroups = s.decodeSeqGroups
  prefills : s'.prefillSeqGroups = s.prefillSeqGroups
  swap : (s.swappedOut = [] → s.blocksToSwapOut = []) → s'.swappedOut = [] → s'.blocksToSwapOut = []

/-- What making room leaves as it is; `k` groups are preempted. -/
structure Yields (g : SequenceGroup T) (victims : List (SequenceGroup T)) (room : Bool) (s s' : RunningLoop T B) : Prop where
  running : s'.running.Sublist victims.reverse
  budget : ∃ k : ℕ, s.budget.GivesBack g.requestId k s'.budget ∧ victims.length + 1 = s'.running.length + k + room.toNat
  decodes : s'.decodeSeqGroups = s.decodeSeqGroups
  prefills : s'.prefillSeqGroups = s.prefillSeqGroups
  swap : (s.swappedOut = [] → s.blocksToSwapOut = []) → s'.swappedOut = [] → s'.blocksToSwapOut = []

/-- What scheduling a group leaves as it is. -/
structure Joins (d : ScheduledSequenceGroup T) (budget : SchedulingBudget) (s s' : RunningLoop T B) : Prop where
  running : s'.running = s.running
  budget : s'.budget = budget
  scheduled : s'.scheduled.Perm (d :: s.scheduled)
  prefills : d.seqGroup.stage ≠ .prefill → s'.prefillSeqGroups = s.prefillSeqGroups
  swappedOut : s'.swappedOut = s.swappedOut
  blocksToSwapOut : s'.blocksToSwapOut = s.blocksToSwapOut

end RunningLoop

section Rules
variable {config : SchedulerConfig} {bm : BlockSpaceManager B} {t : BlockTables B} {Sound : B → Prop}
variable (laws : bm.Laws t Sound) (hw : config.Works)
variable {finishes : SequenceGroup T → Bool} {g : SequenceGroup T} {n : ℤ} {s : RunningLoop T B}
variable {rest : Multiset (Place × SequenceGroup T)}

include laws in
/-- A victim is recomputed, swapped out, or turns out to be finished. -/
theorem preemptVictim_ok (h : Placed config t Sound s.blocks ({(.running, g)} + (s.takenPlaces + rest))) :
    Outcome (SwapSpace config)
      (fun s' => Placed config t Sound s'.blocks (s'.takenPlaces + rest) ∧ RunningLoop.Preempts s s')
      (preemptVictim config bm finishes g s) := by
  obtain ⟨hat, -, -⟩ := h.head
  obtain ⟨b, hb, hs, honly, habsent⟩ := laws.free (g.seqBlocks config.blockSize) h.sound
  unfold preemptVictim
  dsimp only
  split_ifs with hfin hmode
  · refine Outcome.map_of_ok hb ⟨?_, rfl, rfl, rfl, rfl, fun hswap => hswap⟩
    have hplaced := h.update .gone g rfl hs honly habsent
    convert hplaced using 1
    simp only [RunningLoop.takenPlaces, RunningLoop.scheduled, placesOf_append, placesOf_cons, placesOf_nil]
    abel
  · obtain ⟨can, hcan⟩ := laws.canSwapOut h.sound hat.2
    obtain ⟨n, hn, hle⟩ := hat.2
    refine Outcome.bind_of_ok hcan ?_
    cases can with
    | false => exact ⟨rfl, hmode⟩
    | true =>
      obtain ⟨moved, b', hb', hs', honly', hholds⟩ := laws.swapOut h.sound hn hcan
      refine Outcome.map_of_ok hb' ⟨?_, rfl, rfl, rfl, rfl, fun _ hnil => ?_⟩
      · have hplaced := h.update .swapped g rfl hs' honly' ⟨hat.1, n, hholds, hle⟩
        convert hplaced using 1
        simp only [RunningLoop.takenPlaces, RunningLoop.scheduled, placesOf_append, placesOf_cons, placesOf_nil]
        abel
      · exact absurd hnil (List.append_ne_nil_of_right_ne_nil _ (List.cons_ne_nil _ _))
  · refine Outcome.map_of_ok hb ⟨?_, rfl, rfl, rfl, rfl, fun hswap => hswap⟩
    have hplaced := h.update .waiting g.resetStateForRecompute rfl hs honly ⟨⟨rfl, rfl⟩, habsent⟩
    convert hplaced using 1
    simp only [RunningLoop.takenPlaces, RunningLoop.scheduled, placesOf_append, placesOf_cons, placesOf_nil]
    abel

include laws in
/-- There is room for the group in the end, or it is preempted itself. -/
theorem makeRoom_ok (hn : 0 ≤ n) (victims : List (SequenceGroup T)) : ∀ {s : RunningLoop T B},
    Placed config t Sound s.blocks ({(.running, g)} + (placesOf .running victims + (s.takenPlaces + rest))) →
      Outcome (SwapSpace config)
        (fun r => RunningLoop.Yields g victims r.1 s r.2 ∧
          (r.1 = true → Placed config t Sound r.2.blocks ({(.running, g)} + (r.2.places + rest)) ∧
            bm.canAppendSlots r.2.blocks (g.seqBlocks config.blockSize) = true) ∧
          (r.1 = false → Placed config t Sound r.2.blocks (r.2.places + rest)))
        (makeRoom config bm finishes g n victims s) := by
  induction victims with
  | nil =>
    intro s h
    rw [placesOf_nil, zero_add] at h
    rw [makeRoom]
    split_ifs with hcan
    · refine ⟨⟨List.Sublist.refl _, ⟨0, SchedulingBudget.GivesBack.refl _ _, rfl⟩, rfl, rfl, fun h => h⟩, fun _ => ⟨?_, hcan⟩,
        nofun⟩
      rw [RunningLoop.places, placesOf_nil, zero_add]
      exact h
    · have hone : Outcome (SwapSpace config) _
          (preemptVictim config bm finishes g { giveBack g n s with running := [] }) := preemptVictim_ok laws h
      refine hone.map fun s' hs' => ?_
      obtain ⟨hplaced, hkept⟩ := hs'
      refine ⟨⟨?_, ⟨1, ?_, ?_⟩, hkept.decodes, hkept.prefills, hkept.swap⟩, nofun, fun _ => ?_⟩
      · rw [hkept.running]
        exact List.Sublist.refl _
      · rw [hkept.budget]
        exact SchedulingBudget.givesBack_subtract _ hn _
      · rw [hkept.running]
        rfl
      · rw [RunningLoop.places, hkept.running, placesOf_nil, zero_add]
        exact hplaced
  | cons victim victims ih =>
    intro s h
    rw [makeRoom]
    split_ifs with hcan
    · refine ⟨⟨List.Sublist.refl _, ⟨0, SchedulingBudget.GivesBack.refl _ _, ?_⟩, rfl, rfl, fun h => h⟩,
        fun _ => ⟨?_, hcan⟩, nofun⟩
      · rw [List.length_reverse]
        rfl
      · convert h using 1
        rw [RunningLoop.places, placesOf_reverse, add_assoc]
        rfl
    · have hvictim : {(.running, g)} + (placesOf .running (victim :: victims) + (s.takenPlaces + rest)) =
          {(.running, victim)} + (s.takenPlaces + ({(.running, g)} + placesOf .running victims + rest)) := by
        rw [placesOf_cons]
        abel
      rw [hvictim] at h
      have hone : Outcome (SwapSpace config) _ (preemptVictim config bm finishes victim (giveBack g n s)) :=
        preemptVictim_ok laws h
      refine hone.bind fun s₁ hs₁ => ?_
      obtain ⟨hplaced, hkept⟩ := hs₁
      refine (ih (s := s₁) (by convert hplaced using 1; abel)).imp fun r hr => ?_
      obtain ⟨⟨hrunning, ⟨k, hgives, hk⟩, hdecodes, hprefills, hswap⟩, hroom, hnone⟩ := hr
      have hback := SchedulingBudget.givesBack_subtract g.requestId hn s.budget
      refine ⟨⟨?_, ⟨1 + k, ?_, ?_⟩, hdecodes.trans hkept.decodes, hprefills.trans hkept.prefills,
        fun hs => hswap (hkept.swap hs)⟩, hroom, hnone⟩
      · rw [List.reverse_cons]
        exact hrunning.trans (List.sublist_append_left _ _)
      · rw [hkept.budget] at hgives
        exact hback.trans hgives
      · rw [List.length_cons]
        omega

/-- The budget with a running group that is scheduled. -/
def chargeRunning (config : SchedulerConfig) (g : SequenceGroup T) (n : ℤ) (b : SchedulingBudget) : SchedulingBudget :=
  if config.chunkedPrefillEnabled then (b.addNumBatchedTokens g.requestId n).addNumSeqs g.requestId 1
  else b.addNumBatchedTokens g.requestId n

theorem mem_chargeRunning {b : SchedulingBudget} {id : String}
    (h : id ∈ (chargeRunning config g n b).requestIdsNumCurrSeqs) : id = g.requestId ∨ id ∈ b.requestIdsNumCurrSeqs := by
  unfold chargeRunning at h
  split_ifs at h
  · exact (SchedulingBudget.mem_addNumSeqs _ _ h).imp_right fun h => by simpa using h
  · exact Or.inr (by simpa using h)

theorem uncounted_chargeRunning {b : SchedulingBudget} {id : String} (h : b.Uncounted id) (hne : id ≠ g.requestId) :
    (chargeRunning config g n b).Uncounted id := by
  refine ⟨fun hmem => ?_, fun hmem => (mem_chargeRunning hmem).elim hne h.2⟩
  unfold chargeRunning at hmem
  split_ifs at hmem
  · rw [SchedulingBudget.requestIdsNumBatchedTokens_addNumSeqs] at hmem
    exact (SchedulingBudget.mem_addNumBatchedTokens _ _ _ hmem).elim hne h.1
  · exact (SchedulingBudget.mem_addNumBatchedTokens _ _ _ hmem).elim hne h.1

include laws hw in
/-- A group with room is scheduled. -/
theorem scheduleGroup_ok (h : Placed config t Sound s.blocks ({(.running, g)} + (s.places + rest)))
    (hcan : bm.canAppendSlots s.blocks (g.seqBlocks config.blockSize) = true) : ∃ s',
      scheduleGroup config bm config.chunkedPrefillEnabled g n s = .ok s' ∧
        Placed config t Sound s'.blocks (s'.places + rest) ∧
        RunningLoop.Joins ⟨g, if g.stage = .prefill then n else 1⟩ (chargeRunning config g n s.budget) s s' := by
  obtain ⟨hat, hvalid, -⟩ := h.head
  have hpos : (g.seqBlocks config.blockSize).nBlocks ≠ 0 :=
    SequenceGroup.nBlocks_pos hw.blockSize (SequenceGroup.getLen_pos hvalid.1)
  obtain ⟨copied, b, hb, hs, honly, hholds⟩ := laws.appendSlots h.sound hat.2 hpos hcan
  have hplaced := h.update .scheduled g rfl hs honly ⟨Or.inr hat.1, hholds⟩
  unfold scheduleGroup
  dsimp only
  rw [hb]
  by_cases hstage : g.stage = .prefill
  · simp only [if_pos hstage]
    refine ⟨_, rfl, ?_, rfl, rfl, ?_, fun hne => absurd hstage hne, rfl, rfl⟩
    · convert hplaced using 1
      simp only [RunningLoop.places, RunningLoop.takenPlaces, RunningLoop.scheduled, List.map_append, List.map_cons,
        List.map_nil, placesOf_append, placesOf_cons, placesOf_nil]
      abel
    · simp only [RunningLoop.scheduled, ← List.append_assoc]
      exact List.perm_append_singleton _ _
  · simp only [if_neg hstage]
    refine ⟨_, rfl, ?_, rfl, rfl, ?_, fun _ => rfl, rfl, rfl⟩
    · convert hplaced using 1
      simp only [RunningLoop.places, RunningLoop.takenPlaces, RunningLoop.scheduled, List.map_append, List.map_cons,
        List.map_nil, placesOf_append, placesOf_cons, placesOf_nil]
      abel
    · simp only [RunningLoop.scheduled, List.append_assoc]
      exact List.perm_middle

/-- The loop's invariant; `rest` are the groups of the other queues. -/
structure RunningLoop.Inv (config : SchedulerConfig) (t : BlockTables B) (Sound : B → Prop)
    (rest : Multiset (Place × SequenceGroup T)) (s : RunningLoop T B) : Prop where
  placed : Placed config t Sound s.blocks (s.places + rest)
  chunks : ∀ d ∈ s.scheduled, d.Matches config.chunkedPrefillEnabled
  noPrefills : config.chunkedPrefillEnabled = false → s.prefillSeqGroups = []
  swap : s.swappedOut = [] → s.blocksToSwapOut = []
  apart : ∀ x ∈ rest, x.2.requestId ∉ s.budget.requestIdsNumCurrSeqs
  uncounted : config.chunkedPrefillEnabled = true → ∀ g ∈ s.running, s.budget.Uncounted g.requestId
  within : s.budget.Within config (s.running.length + s.scheduled.length) s.scheduled.length

/-- Where the loop ends: all groups are through, or nothing is left of the budget. -/
def RunningLoop.Done (s : RunningLoop T B) : Prop := s.running = [] ∨ s.budget.remainingTokenBudget = 0

/-- Room is made for the group in front, which is in hand then. -/
theorem RunningLoop.Inv.yields {queue : List (SequenceGroup T)} {room : Bool} {s' : RunningLoop T B} (h : s.Inv config t Sound rest)
    (hrunning : s.running = g :: queue) (hy : RunningLoop.Yields g queue.reverse room s s') :
    s'.scheduled = s.scheduled ∧ s'.budget.Within config (s'.running.length + room.toNat + s.scheduled.length) s.scheduled.length ∧
      (∀ x ∈ rest, x.2.requestId ∉ s'.budget.requestIdsNumCurrSeqs) ∧
      (config.chunkedPrefillEnabled = true → s'.budget = s.budget) := by
  obtain ⟨k, hgives, hk⟩ := hy.budget
  have huncounted : config.chunkedPrefillEnabled = true → s.budget.Uncounted g.requestId := fun hmode =>
    h.uncounted hmode g (hrunning ▸ List.mem_cons_self)
  refine ⟨?_, ?_, fun x hx hmem => h.apart x hx (hgives.ids hmem), fun hmode => hgives.uncounted (huncounted hmode)⟩
  · rw [RunningLoop.scheduled, hy.decodes, hy.prefills]
    rfl
  · have hwithin := h.within.givesBack hgives huncounted
    convert hwithin using 1
    rw [hrunning, List.length_cons]
    rw [List.length_reverse] at hk
    omega

/-- The group in front runs, and no other group has its id. -/
theorem RunningLoop.Inv.front {queue : List (SequenceGroup T)} (h : s.Inv config t Sound rest) (hrunning : s.running = g :: queue) :
    g.Progress config.chunkedPrefillEnabled ∧ (∀ x ∈ queue, x.requestId ≠ g.requestId) ∧
      ∀ x ∈ rest, x.2.requestId ≠ g.requestId := by
  have hplaced := h.placed
  rw [RunningLoop.places, hrunning, placesOf_cons, add_assoc, add_assoc] at hplaced
  obtain ⟨hat, -, hother⟩ := hplaced.head
  refine ⟨hat.1, fun x hx => ?_, fun x hx => ?_⟩
  · exact (hother (.running, x) (Multiset.mem_add.mpr (Or.inl (mem_placesOf.mpr ⟨rfl, hx⟩)))).2
  · exact (hother x (Multiset.mem_add.mpr (Or.inr (Multiset.mem_add.mpr (Or.inr hx))))).2

/-- The group in hand is scheduled. -/
theorem RunningLoop.Inv.joins {queue : List (SequenceGroup T)} {s₁ s₂ : RunningLoop T B} (h : s.Inv config t Sound rest)
    (hrunning : s.running = g :: queue) (hnew : NewTokens config.chunkedPrefillEnabled g s.budget n) (hn : n ≠ 0)
    (hy : RunningLoop.Yields g queue.reverse true s s₁)
    (hj : RunningLoop.Joins ⟨g, if g.stage = .prefill then n else 1⟩ (chargeRunning config g n s₁.budget) s₁ s₂)
    (hplaced : Placed config t Sound s₂.blocks (s₂.places + rest)) : s₂.Inv config t Sound rest := by
  obtain ⟨hscheduled, hwithin, hapart, hbudget⟩ := h.yields hrunning hy
  obtain ⟨hprogress, hqueue, hrest⟩ := h.front hrunning
  have hperm := hj.scheduled
  rw [hscheduled] at hperm
  have hwhole : config.chunkedPrefillEnabled = false → g.stage ≠ .prefill ∧ n = 1 := by
    intro hmode
    rcases hprogress with ⟨hstage, hlen⟩ | ⟨hchunked, -⟩
    · refine ⟨fun hprefill => absurd (hprefill.symm.trans hstage) (by decide), ?_⟩
      rw [hnew.whole hmode, SequenceGroup.seqNumNewTokens, if_pos hstage]
    · rw [hmode] at hchunked
      cases hchunked
  refine ⟨hplaced, fun d hd => ?_, fun hmode => ?_, ?_, fun x hx hmem => ?_, fun hmode x hx => ?_, ?_⟩
  · rcases List.mem_cons.mp (hperm.subset hd) with rfl | hd
    · split_ifs with hstage
      · exact hnew.matches_prefill hn hprogress hstage
      · exact matches_decode hprogress hstage
    · exact h.chunks d hd
  · rw [hj.prefills (hwhole hmode).1, hy.prefills]
    exact h.noPrefills hmode
  · rw [hj.swappedOut, hj.blocksToSwapOut]
    exact hy.swap h.swap
  · rw [hj.budget] at hmem
    exact (mem_chargeRunning hmem).elim (hrest x hx) (hapart x hx)
  · rw [hj.running] at hx
    have hmem := List.mem_reverse.mp (List.mem_reverse.mp (hy.running.subset hx))
    rw [hj.budget, hbudget hmode]
    exact uncounted_chargeRunning (h.uncounted hmode x (hrunning ▸ List.mem_cons_of_mem _ hmem)) (hqueue x hmem)
  · rw [hj.budget, hj.running, hperm.length_eq, List.length_cons]
    have hcharged := hwithin.schedule g.requestId hnew.nonneg (fun hmode => (hwhole hmode).2) fun hmode => by
      rw [hbudget hmode]
      exact ⟨hnew.le_remaining hmode, h.uncounted hmode g (hrunning ▸ List.mem_cons_self)⟩
    have hlive : ((s₁.running.length : ℤ) + ((s.scheduled.length + 1 : ℕ) : ℤ)) =
        s₁.running.length + (true.toNat : ℤ) + s.scheduled.length := by
      rw [Bool.toNat_true]
      push_cast
      omega
    rw [hlive]
    exact_mod_cast hcharged

/-- The group in hand was preempted. -/
theorem RunningLoop.Inv.gives {queue : List (SequenceGroup T)} {s₁ : RunningLoop T B} (h : s.Inv config t Sound rest)
    (hrunning : s.running = g :: queue) (hy : RunningLoop.Yields g queue.reverse false s s₁)
    (hplaced : Placed config t Sound s₁.blocks (s₁.places + rest)) : s₁.Inv config t Sound rest := by
  obtain ⟨hscheduled, hwithin, hapart, hbudget⟩ := h.yields hrunning hy
  refine ⟨hplaced, ?_, fun hmode => ?_, hy.swap h.swap, hapart, fun hmode x hx => ?_, ?_⟩
  · rw [hscheduled]
    exact h.chunks
  · rw [hy.prefills]
    exact h.noPrefills hmode
  · have hmem := List.mem_reverse.mp (List.mem_reverse.mp (hy.running.subset hx))
    rw [hbudget hmode]
    exact h.uncounted hmode x (hrunning ▸ List.mem_cons_of_mem _ hmem)
  · rw [hscheduled]
    simpa using hwithin

include laws hw in
/-- One turn of the loop for a group that gets tokens and is not stopped. -/
theorem RunningLoop.Inv.turn {queue : List (SequenceGroup T)} (h : s.Inv config t Sound rest) (hrunning : s.running = g :: queue)
    (hnew : NewTokens config.chunkedPrefillEnabled g s.budget n) (hn : n ≠ 0) : Outcome (SwapSpace config)
      (fun r => Outcome (SwapSpace config) (fun s' => s'.Inv config t Sound rest ∧ s'.running.length ≤ queue.length)
        (if r.1 then scheduleGroup config bm config.chunkedPrefillEnabled g n r.2 else .ok r.2))
      (makeRoom config bm finishes g n queue.reverse s) := by
  have hplaced := h.placed
  rw [RunningLoop.places, hrunning, placesOf_cons, ← placesOf_reverse (p := .running) (l := queue), add_assoc, add_assoc]
    at hplaced
  refine (makeRoom_ok laws hnew.nonneg queue.reverse hplaced).imp fun r hr => ?_
  obtain ⟨room, s'⟩ := r
  obtain ⟨hy, hroom, hnone⟩ := hr
  have hlen : s'.running.length ≤ queue.length := by
    have := hy.running.length_le
    rwa [List.reverse_reverse] at this
  cases room with
  | true =>
    obtain ⟨hplaced', hcan⟩ := hroom rfl
    obtain ⟨s₂, hs₂, hplaced₂, hj⟩ := scheduleGroup_ok laws hw (n := n) hplaced' hcan
    exact Outcome.of_ok hs₂ ⟨h.joins hrunning hnew hn hy hj hplaced₂, hj.running ▸ hlen⟩
  | false => exact ⟨h.gives hrunning hy (hnone rfl), hlen⟩

/-- A group that is too long is stopped. -/
theorem RunningLoop.Inv.stop {queue : List (SequenceGroup T)} (h : s.Inv config t Sound rest) (hrunning : s.running = g :: queue) :
    RunningLoop.Inv config t Sound rest { s with running := queue, asyncStopped := s.asyncStopped ++ [g] } := by
  refine ⟨?_, h.chunks, h.noPrefills, h.swap, h.apart, fun hmode x hx => ?_, ?_⟩
  · have hplaced := h.placed
    rw [RunningLoop.places, hrunning, placesOf_cons, add_assoc, add_assoc] at hplaced
    have hmoved := hplaced.move .stopped g rfl trivial
    convert hmoved using 1
    simp only [RunningLoop.places, RunningLoop.takenPlaces, RunningLoop.scheduled, placesOf_append, placesOf_cons,
      placesOf_nil]
    abel
  · exact h.uncounted hmode x (hrunning ▸ List.mem_cons_of_mem _ hx)
  · have hwithin := h.within
    rw [hrunning, List.length_cons] at hwithin
    exact hwithin.fewer (by push_cast; exact Int.add_le_add_right (by omega) _)

include laws hw in
/-- **The loop** raises nothing but for want of swap space. -/
theorem runningLoop_ok (turns : ℕ) : ∀ {s : RunningLoop T B}, s.Inv config t Sound rest → s.running.length ≤ turns →
    Outcome (SwapSpace config) (fun s' => s'.Inv config t Sound rest ∧ s'.Done)
      (runningLoop config bm finishes config.chunkedPrefillEnabled turns s) := by
  induction turns with
  | zero =>
    intro s h hturns
    exact ⟨h, Or.inl (List.eq_nil_of_length_eq_zero (by omega))⟩
  | succ turns ih =>
    intro s h hturns
    rw [runningLoop]
    cases hrunning : s.running with
    | nil => exact ⟨h, Or.inl hrunning⟩
    | cons g queue =>
      rw [hrunning, List.length_cons] at hturns
      obtain ⟨hprogress, -⟩ := h.front hrunning
      have hremaining : config.chunkedPrefillEnabled = true → 0 ≤ s.budget.remainingTokenBudget := fun hmode => by
        have := (h.within.chunked hmode).2.2
        have := h.within.tokenBudget
        unfold SchedulingBudget.remainingTokenBudget
        omega
      obtain ⟨n, hn, hnew⟩ := getNumNewTokens_ok hw.noCaching hprogress.seqNumNewTokens.1 hremaining
      refine Outcome.bind_of_ok hn ?_
      split_ifs with hzero hstopped
      · exact ⟨h, Or.inr (hnew.spent hzero)⟩
      · exact ih (h.stop hrunning) (by simpa using hturns)
      · refine (h.turn laws hw hrunning hnew hzero).bind fun r hr => ?_
        obtain ⟨room, s₁⟩ := r
        cases room with
        | true => exact hr.bind fun s' hs' => ih hs'.1 (by omega)
        | false => exact hr.bind fun s' hs' => ih hs'.1 (by omega)

/-- What `_schedule_running` leaves; `rest` are the groups of the other queues. -/
structure RunningLoop.Result (config : SchedulerConfig) (t : BlockTables B) (Sound : B → Prop)
    (rest : Multiset (Place × SequenceGroup T)) (s : RunningLoop T B) : Prop where
  placed : Placed config t Sound s.blocks (s.places + rest)
  chunks : ∀ d ∈ s.scheduled, d.Matches config.chunkedPrefillEnabled
  noPrefills : config.chunkedPrefillEnabled = false → s.prefillSeqGroups = []
  swap : s.swappedOut = [] → s.blocksToSwapOut = []
  apart : ∀ x ∈ rest, x.2.requestId ∉ s.budget.requestIdsNumCurrSeqs
  fits : s.budget.Fits config (s.running.length + s.scheduled.length)

include laws hw in
/-- **`_schedule_running`** raises nothing but for want of swap space. -/
theorem scheduleRunning_ok (finishes : SequenceGroup T → Bool) {running : List (SequenceGroup T)} {blocks : B}
    {budget : SchedulingBudget} (currLoras : Option (Finset ℕ)) (h : Placed config t Sound blocks (placesOf .running running + rest))
    (hapart : ∀ x ∈ rest, x.2.requestId ∉ budget.requestIdsNumCurrSeqs)
    (huncounted : config.chunkedPrefillEnabled = true → ∀ g ∈ running, budget.Uncounted g.requestId)
    (hwithin : budget.Within config running.length 0) :
    Outcome (SwapSpace config) (RunningLoop.Result config t Sound rest)
      (scheduleRunning config bm finishes config.chunkedPrefillEnabled running [] blocks budget currLoras) := by
  rw [scheduleRunning, if_neg (not_not.mpr rfl)]
  have hstart : RunningLoop.Inv config t Sound rest
      (⟨running, blocks, [], [], budget, currLoras, [], [], [], [], [], []⟩ : RunningLoop T B) := by
    refine ⟨?_, fun d hd => absurd hd List.not_mem_nil, fun _ => rfl, fun _ => rfl, hapart, huncounted, ?_⟩
    · convert h using 1
      simp only [RunningLoop.places, RunningLoop.takenPlaces, RunningLoop.scheduled, List.append_nil, List.map_nil,
        placesOf_nil, add_zero]
    · exact hwithin.fewer (by simp [RunningLoop.scheduled])
  refine (runningLoop_ok laws hw running.length hstart (le_refl _)).map fun s hs => ?_
  obtain ⟨⟨hplaced, hchunks, hprefills, hswap, hapart, -, hwithin⟩, hdone⟩ := hs
  have hend : ((s.running.length : ℤ) + s.scheduled.length = s.scheduled.length) ∨ s.budget.remainingTokenBudget = 0 :=
    hdone.imp_left fun hnil => by rw [hnil, List.length_nil, Nat.cast_zero, zero_add]
  have hfits := hwithin.fits hw (by omega) hend
  refine ⟨?_, hchunks, hprefills, hswap, hapart, hfits⟩
  have hsplit : s.places + rest = placesOf .waiting s.preempted + (placesOf .running s.running +
      placesOf .scheduled (s.scheduled.map ScheduledSequenceGroup.seqGroup) + placesOf .swapped s.swappedOut +
      placesOf .gone s.finished + placesOf .stopped s.asyncStopped + rest) := by
    simp only [RunningLoop.places, RunningLoop.takenPlaces]
    abel
  rw [hsplit] at hplaced
  have hplaced' := hplaced.forall₂ ((s.preempted.map SequenceGroup.markPreempted).map (.waiting, ·)) (by
    rw [List.map_map, List.forall₂_map_left_iff, List.forall₂_map_right_iff]
    exact List.forall₂_same.mpr fun g _ => ⟨rfl, fun h => h⟩)
  change Placed config t Sound s.blocks (placesOf .waiting (s.preempted.map SequenceGroup.markPreempted) + _) at hplaced'
  convert hplaced' using 1
  simp only [RunningLoop.places, RunningLoop.takenPlaces, RunningLoop.scheduled]
  abel

end Rules

end Scheduler

end FairCache
