import FairCache.Scheduler.Running
import FairCache.Scheduler.WaitingRules

/-!
# The waiting groups stay at their places

* `prefillTurn_ok` : the decision about the group in front; `startPrefill_ok` : it is scheduled;
* `PrefillLoop.Inv` : the loop's invariant; `prefillLoop_ok`, `schedulePrefills_ok` : the loop raises nothing.
-/

namespace FairCache

open Lib

namespace Scheduler

variable {T F B : Type} [LinearOrder F]
variable {config : SchedulerConfig} {bm : BlockSpaceManager B} {t : BlockTables B} {Sound : B → Prop}
variable (laws : bm.Laws t Sound) (hw : config.Works)
variable {E : PyError → Prop} {g : SequenceGroup T} {n live : ℤ} {s : PrefillLoop T F B}
variable {w : WaitingQueue F (SequenceGroup T)} {budget : SchedulingBudget} {rest : Multiset (Place × SequenceGroup T)}

/-- What the loop has taken from the waiting queue, at its places; an ignored group is at none. -/
def PrefillLoop.takenPlaces (s : PrefillLoop T F B) : Multiset (Place × SequenceGroup T) :=
  placesOf .waiting s.leftover + placesOf .scheduled (s.seqGroups.map ScheduledSequenceGroup.seqGroup)

/-- The loop's invariant. It started with the queue `w` and with `budget`, and `live` groups run already. -/
structure PrefillLoop.Inv (config : SchedulerConfig) (t : BlockTables B) (Sound : B → Prop) (live : ℤ)
    (rest : Multiset (Place × SequenceGroup T)) (w : WaitingQueue F (SequenceGroup T)) (budget : SchedulingBudget)
    (s : PrefillLoop T F B) : Prop where
  placed : Placed config t Sound s.blocks (placesOf .waiting s.waiting.iter + (s.takenPlaces + rest))
  waiting : w.Extends s.waiting
  known : ∀ g ∈ s.waiting.iter ++ s.leftover, w.Knows (clientId g)
  chunks : ∀ d ∈ s.seqGroups, d.Matches config.chunkedPrefillEnabled
  apart : ∀ g ∈ s.waiting.iter, g.requestId ∉ s.budget.requestIdsNumCurrSeqs
  fits : s.budget.Fits config (live + s.seqGroups.length)
  unused : s.seqGroups = [] → s.budget = budget

variable (bm) in
omit [LinearOrder F] in
include hw in
/-- The decision about a group that waits. -/
theorem prefillTurn_ok (hg : At config t s.blocks .waiting g) (hvalid : g.request.Valid config)
    (htokens : s.budget.numBatchedTokens ≤ s.budget.tokenBudget) :
    ∃ turn, prefillTurn config bm config.chunkedPrefillEnabled g s = .ok turn ∧ ∀ n, turn = .start n →
      NewTokens config.chunkedPrefillEnabled g s.budget n ∧ n ≠ 0 ∧ bm.canAllocate s.blocks (g.seqBlocks config.blockSize) = .ok ∧
        s.budget.canScheduleTokens n 1 = .ok true := by
  obtain ⟨hfresh, -⟩ := hg
  have hpos : 0 < g.seqNumNewTokens := by
    have := SequenceGroup.getLen_pos hvalid.1
    rw [hfresh.seqNumNewTokens]
    omega
  obtain ⟨n, hn, hnew⟩ := getNumNewTokens_ok hw.noCaching hpos fun _ => sub_nonneg.mpr htokens
  obtain ⟨limit, hlimit⟩ := hvalid.2
  have hlimit' : getPromptLimit config g = .ok limit := hlimit
  unfold prefillTurn
  rw [hn]
  have hassert : ¬ (config.chunkedPrefillEnabled = false ∧ n ≠ g.getLen) := by
    rintro ⟨hmode, hne⟩
    exact hne ((hnew.whole hmode).trans hfresh.seqNumNewTokens)
  show ∃ turn, (if config.chunkedPrefillEnabled = false ∧ n ≠ g.getLen then _ else _) = _ ∧ _
  rw [if_neg hassert, hlimit']
  show ∃ turn, (if (limit : ℤ) < n then _ else _) = _ ∧ _
  by_cases hlong : (limit : ℤ) < n
  · rw [if_pos hlong]
    exact ⟨_, rfl, nofun⟩
  rw [if_neg hlong]
  cases halloc : bm.canAllocate s.blocks (g.seqBlocks config.blockSize) with
  | later => exact ⟨_, rfl, nofun⟩
  | never => exact ⟨_, rfl, nofun⟩
  | ok =>
    dsimp only
    split_ifs with hlora hzero
    · exact ⟨_, rfl, nofun⟩
    · exact ⟨_, rfl, nofun⟩
    · rw [SchedulingBudget.canScheduleTokens_ok hzero]
      refine ⟨_, rfl, fun m hm => ?_⟩
      split_ifs at hm with hstop
      obtain rfl : n = m := PrefillTurn.start.inj hm
      have hcan := eq_true_of_ne_false (not_or.mp hstop).1
      refine ⟨hnew, hzero, rfl, ?_⟩
      rw [SchedulingBudget.canScheduleTokens_ok hzero, hcan]

/-- The group in front leaves the queue. -/
theorem PrefillLoop.Inv.front (h : PrefillLoop.Inv config t Sound live rest w budget s) (hne : s.waiting.isNonempty = true) :
    ∃ g w', s.waiting.peek = .ok g ∧ s.waiting.popleft = .ok (g, w') ∧ w.Extends w' ∧ s.waiting.iter.Perm (g :: w'.iter) ∧
      Placed config t Sound s.blocks ({(.waiting, g)} + (placesOf .waiting w'.iter + (s.takenPlaces + rest))) := by
  obtain ⟨g, w', hpeek, hpop, hw'⟩ := WaitingQueue.popleft_ok h.waiting.sound
    (fun g hg => h.waiting.knows _ (h.known g (List.mem_append_left _ hg))) hne
  have hiter := WaitingQueue.iter_popleft hpop
  have hplaced := h.placed
  rw [placesOf_perm hiter, placesOf_cons, add_assoc] at hplaced
  exact ⟨g, w', hpeek, hpop, h.waiting.trans hw', hiter, hplaced⟩

omit [LinearOrder F] in
/-- The group in front is ignored or left over. -/
theorem PrefillLoop.Inv.pass {w' : WaitingQueue F (SequenceGroup T)} {s' : PrefillLoop T F B}
    (h : PrefillLoop.Inv config t Sound live rest w budget s) (hw' : w.Extends w') (hiter : s.waiting.iter.Perm (g :: w'.iter))
    (hplaced : Placed config t Sound s.blocks (placesOf .waiting w'.iter + (s'.takenPlaces + rest)))
    (hwaiting : s'.waiting = w') (hleftover : ∀ x ∈ s'.leftover, x = g ∨ x ∈ s.leftover) (hblocks : s'.blocks = s.blocks)
    (hbudget : s'.budget = s.budget) (hgroups : s'.seqGroups = s.seqGroups) :
    PrefillLoop.Inv config t Sound live rest w budget s' := by
  refine ⟨?_, hwaiting ▸ hw', fun x hx => ?_, hgroups ▸ h.chunks, fun x hx => ?_, ?_, fun hnil => ?_⟩
  · rw [hwaiting, hblocks]
    exact hplaced
  · rw [hwaiting] at hx
    refine h.known x ?_
    rcases List.mem_append.mp hx with hx | hx
    · exact List.mem_append_left _ (hiter.symm.subset (List.mem_cons_of_mem _ hx))
    · rcases hleftover x hx with rfl | hx
      · exact List.mem_append_left _ (hiter.symm.subset List.mem_cons_self)
      · exact List.mem_append_right _ hx
  · rw [hwaiting] at hx
    rw [hbudget]
    exact h.apart x (hiter.symm.subset (List.mem_cons_of_mem _ hx))
  · rw [hbudget, hgroups]
    exact h.fits
  · rw [hbudget]
    exact h.unused (hgroups ▸ hnil)

include laws in
/-- The group in front is scheduled. -/
theorem PrefillLoop.Inv.start {w' : WaitingQueue F (SequenceGroup T)} (h : PrefillLoop.Inv config t Sound live rest w budget s)
    (hpop : s.waiting.popleft = .ok (g, w')) (hw' : w.Extends w') (hiter : s.waiting.iter.Perm (g :: w'.iter))
    (hplaced : Placed config t Sound s.blocks ({(.waiting, g)} + (placesOf .waiting w'.iter + (s.takenPlaces + rest))))
    (hnew : NewTokens config.chunkedPrefillEnabled g s.budget n) (hn : n ≠ 0) (halloc : bm.canAllocate s.blocks (g.seqBlocks config.blockSize) = .ok)
    (hcan : s.budget.canScheduleTokens n 1 = .ok true) :
    ∃ s', startPrefill config bm g n s = .ok s' ∧ PrefillLoop.Inv config t Sound live rest w budget s' := by
  obtain ⟨⟨hfresh, habsent⟩, -, hother⟩ := hplaced.head
  obtain ⟨b, hb, hs, honly, hholds⟩ := laws.allocate hplaced.sound habsent halloc
  have hmoved := hplaced.update .scheduled g rfl hs honly ⟨Or.inl hfresh, hholds⟩
  unfold startPrefill popWaiting
  dsimp only
  rw [hpop]
  show ∃ s', (bm.allocate s.blocks (g.seqBlocks config.blockSize) >>= _) = _ ∧ _
  rw [hb]
  refine ⟨_, rfl, ?_, hw', fun x hx => ?_, fun d hd => ?_, fun x hx hmem => ?_, ?_, fun hnil => ?_⟩
  · convert hmoved using 1
    simp only [PrefillLoop.takenPlaces, List.map_append, List.map_cons, List.map_nil, placesOf_append, placesOf_cons,
      placesOf_nil]
    abel
  · refine h.known x ?_
    rcases List.mem_append.mp hx with hx | hx
    · exact List.mem_append_left _ (hiter.symm.subset (List.mem_cons_of_mem _ hx))
    · exact List.mem_append_right _ hx
  · rcases List.mem_append.mp hd with hd | hd
    · exact h.chunks d hd
    · rw [List.mem_singleton.mp hd]
      exact hnew.matches_fresh hn hfresh
  · rcases SchedulingBudget.mem_addNumSeqs _ _ hmem with heq | hmem
    · exact (hother (.waiting, x) (Multiset.mem_add.mpr (Or.inl (mem_placesOf.mpr ⟨rfl, hx⟩)))).2 heq
    · exact h.apart x (hiter.symm.subset (List.mem_cons_of_mem _ hx)) (by simpa using hmem)
  · have hfits := h.fits.schedule (hnew.pos hn) (h.apart g (hiter.symm.subset List.mem_cons_self)) hcan
    rw [List.length_append, List.length_singleton]
    push_cast
    rwa [← add_assoc]
  · exact absurd hnil (List.append_ne_nil_of_right_ne_nil _ (List.cons_ne_nil _ _))

include laws hw in
/-- **The loop** raises nothing. -/
theorem prefillLoop_ok (passedDelay : ℕ → Bool) (turns : ℕ) : ∀ {s : PrefillLoop T F B},
    PrefillLoop.Inv config t Sound live rest w budget s → Outcome E (PrefillLoop.Inv config t Sound live rest w budget)
      (prefillLoop config bm passedDelay config.chunkedPrefillEnabled turns s) := by
  induction turns with
  | zero => exact fun h => h
  | succ turns ih =>
    intro s h
    rw [prefillLoop]
    split_ifs with hturn
    · obtain ⟨g, w', hpeek, hpop, hw', hiter, hplaced⟩ := h.front (Bool.and_eq_true _ _ ▸ hturn).2
      obtain ⟨hat, hvalid, -⟩ := hplaced.head
      obtain ⟨turn, hdecide, hstart⟩ := prefillTurn_ok bm hw hat hvalid h.fits.tokens
      refine Outcome.bind_of_ok hpeek (Outcome.bind_of_ok hdecide ?_)
      cases turn with
      | stop => exact h
      | ignore =>
        have hpopped : popWaiting { s with ignored := s.ignored ++ [g] } =
            .ok { s with ignored := s.ignored ++ [g], waiting := w' } := by rw [popWaiting, hpop]; rfl
        refine Outcome.bind_of_ok hpopped (ih ?_)
        have hgone := (hplaced.move .gone g rfl hat.2).leave
        exact h.pass hw' hiter hgone rfl (fun x hx => Or.inr hx) rfl rfl rfl
      | leave =>
        have hpopped : popWaiting { s with leftover := g :: s.leftover } =
            .ok { s with leftover := g :: s.leftover, waiting := w' } := by rw [popWaiting, hpop]; rfl
        refine Outcome.bind_of_ok hpopped (ih ?_)
        refine h.pass hw' hiter ?_ rfl (fun x hx => List.mem_cons.mp hx) rfl rfl rfl
        convert hplaced using 1
        simp only [PrefillLoop.takenPlaces, placesOf_cons]
        abel
      | start n =>
        obtain ⟨hnew, hn, halloc, hcan⟩ := hstart n rfl
        obtain ⟨s', hs', h'⟩ := h.start laws hpop hw' hiter hplaced hnew hn halloc hcan
        exact Outcome.bind_of_ok hs' (ih h')
    · exact h

/-- What `_schedule_prefills` leaves. -/
structure PrefillLoop.Result (config : SchedulerConfig) (t : BlockTables B) (Sound : B → Prop) (live : ℤ)
    (rest : Multiset (Place × SequenceGroup T)) (w : WaitingQueue F (SequenceGroup T)) (budget : SchedulingBudget)
    (s : PrefillLoop T F B) : Prop where
  placed : Placed config t Sound s.blocks (placesOf .waiting s.waiting.iter +
    placesOf .scheduled (s.seqGroups.map ScheduledSequenceGroup.seqGroup) + rest)
  waiting : w.Extends s.waiting
  chunks : ∀ d ∈ s.seqGroups, d.Matches config.chunkedPrefillEnabled
  fits : s.budget.Fits config (live + s.seqGroups.length)
  unused : s.seqGroups = [] → s.budget = budget

include laws hw in
/-- **`_schedule_prefills`** raises nothing. -/
theorem schedulePrefills_ok (passedDelay : ℕ → Bool) {blocks : B} (currLoras : Option (Finset ℕ)) (hsound : w.Sound)
    (hknown : ∀ g ∈ w.iter, w.Knows (clientId g)) (h : Placed config t Sound blocks (placesOf .waiting w.iter + rest))
    (hapart : ∀ g ∈ w.iter, g.requestId ∉ budget.requestIdsNumCurrSeqs) (hfits : budget.Fits config live) :
    Outcome E (PrefillLoop.Result config t Sound live rest w budget)
      (schedulePrefills config bm passedDelay config.chunkedPrefillEnabled w blocks budget currLoras) := by
  have hstart : PrefillLoop.Inv config t Sound live rest w budget
      (⟨w, [], blocks, budget, currLoras, [], []⟩ : PrefillLoop T F B) := by
    refine ⟨?_, hsound.extends_refl, ?_, fun d hd => absurd hd List.not_mem_nil, hapart, ?_, fun _ => rfl⟩
    · convert h using 1
      simp only [PrefillLoop.takenPlaces, List.map_nil, placesOf_nil, zero_add]
    · intro g hg
      exact hknown g (by simpa using hg)
    · simpa using hfits
  refine (prefillLoop_ok laws hw passedDelay w.iter.length hstart).bind fun s hs => ?_
  obtain ⟨w', hw', hext⟩ := WaitingQueue.extendleft_ok hs.waiting.sound fun g hg =>
    hs.waiting.knows _ (hs.known g (List.mem_append_right _ hg))
  refine Outcome.bind_of_ok hw' ⟨?_, hs.waiting.trans hext, hs.chunks, hs.fits, hs.unused⟩
  have hplaced := hs.placed
  convert hplaced using 1
  dsimp only
  rw [placesOf_perm (WaitingQueue.iter_extendleft hw')]
  simp only [PrefillLoop.takenPlaces, placesOf_append]
  abel

end Scheduler

end FairCache
