import FairCache.Scheduler.Steps

/-!
# Every run of the engine is safe

* `placeIn`, `EngineRun.places` : the groups of the engine at their places, with the batch that is executed;
* `EngineRun.Inv` : the invariant of a run; `Allowed` : when an operation may be called;
* `addRequest_ok`, `abortSeqGroup_ok`, `advance_ok`, .. : each operation keeps the invariant;
* `everyOutcome_inv` : so does every run, which raises nothing but for want of swap space.
-/

namespace FairCache

open Lib

variable {T F B : Type}

/-! ## The batch -/

/-- A running group is scheduled if it is in the batch. -/
def placeIn (batch : List ScheduledMetadata) (g : SequenceGroup T) : Place :=
  if (batch.find? (·.seqId = g.seqId)).isSome then .scheduled else .running

/-- The running groups at their places. -/
def runningPlaces (batch : List ScheduledMetadata) (running : List (SequenceGroup T)) :
    Multiset (Place × SequenceGroup T) := Multiset.ofList (running.map fun g => (placeIn batch g, g))

section Batch
variable {batch : List ScheduledMetadata} {running running' : List (SequenceGroup T)}

theorem runningPlaces_nil (running : List (SequenceGroup T)) : runningPlaces [] running = placesOf .running running := rfl

theorem runningPlaces_append : runningPlaces batch (running ++ running') =
    runningPlaces batch running + runningPlaces batch running' := by
  unfold runningPlaces
  rw [List.map_append, Multiset.coe_add]

theorem runningPlaces_perm (h : running.Perm running') : runningPlaces batch running = runningPlaces batch running' :=
  Multiset.coe_eq_coe.mpr (h.map _)

theorem placeIn_of_forall {g : SequenceGroup T} (h : ∀ m ∈ batch, m.seqId ≠ g.seqId) : placeIn batch g = .running := by
  have hnone : batch.find? (fun m => decide (m.seqId = g.seqId)) = none :=
    List.find?_eq_none.mpr fun m hm => by simpa using h m hm
  rw [placeIn, hnone]
  rfl

theorem placeIn_of_mem {g : SequenceGroup T} {m : ScheduledMetadata} (hm : m ∈ batch) (h : m.seqId = g.seqId) :
    placeIn batch g = .scheduled := by
  rw [placeIn, if_pos]
  rw [List.find?_isSome]
  exact ⟨m, hm, decide_eq_true h⟩

/-- Right after a step, the batch is what is scheduled. -/
theorem runningPlaces_batch {left : List (SequenceGroup T)} {scheduled : List (ScheduledSequenceGroup T)}
    (hne : ∀ g ∈ left, ∀ d ∈ scheduled, d.seqGroup.seqId ≠ g.seqId) :
    runningPlaces (scheduled.map ScheduledSequenceGroup.metadata) (left ++ scheduled.map ScheduledSequenceGroup.seqGroup) =
      placesOf .running left + placesOf .scheduled (scheduled.map ScheduledSequenceGroup.seqGroup) := by
  rw [runningPlaces_append]
  congr 1
  · refine congrArg Multiset.ofList (List.map_congr_left fun g hg => Prod.ext (placeIn_of_forall fun m hm => ?_) rfl)
    obtain ⟨d, hd, rfl⟩ := List.mem_map.mp hm
    exact hne g hg d hd
  · refine congrArg Multiset.ofList (List.map_congr_left fun g hg => Prod.ext ?_ rfl)
    obtain ⟨d, hd, rfl⟩ := List.mem_map.mp hg
    exact placeIn_of_mem (List.mem_map_of_mem hd) rfl

end Batch

/-! ## The invariant -/

namespace EngineRun

/-- All groups of the engine, at their places. -/
def places (e : EngineRun T F B) : Multiset (Place × SequenceGroup T) :=
  placesOf .waiting e.scheduler.waiting.iter + runningPlaces e.batch e.scheduler.running +
    placesOf .swapped e.scheduler.swapped + placesOf .stopped e.scheduler.asyncStopped

/-- The batch has the chunk of a group. -/
def InBatch (config : SchedulerConfig) (batch : List ScheduledMetadata) (g : SequenceGroup T) : Prop :=
  ∀ m, batch.find? (·.seqId = g.seqId) = some m → ∃ n, (⟨g, n⟩ : ScheduledSequenceGroup T).Matches config.chunkedPrefillEnabled ∧
    m = (⟨g, n⟩ : ScheduledSequenceGroup T).metadata

/-- The invariant of a run. `leaked` : the ignored groups that were swapped out keep their blocks. -/
structure Inv (config : SchedulerConfig) (t : BlockTables B) (Sound : B → Prop) (leaked : List (SequenceGroup T))
    (e : EngineRun T F B) : Prop where
  placed : Placed config t Sound e.scheduler.blocks (e.places + placesOf .infeasible leaked)
  leaked : ∀ g ∈ leaked, g ∈ e.ignored
  batch : ∀ g ∈ e.scheduler.running, InBatch config e.batch g
  waiting : e.scheduler.waiting.Sound
  known : ∀ q ∈ e.scheduler.held, e.scheduler.waiting.Knows q.clientId
  running_le : e.scheduler.running.length ≤ config.maxNumSeqs

/-- The groups that the engine has seen and that may have blocks. -/
def groups (e : EngineRun T F B) : List (SequenceGroup T) :=
  e.scheduler.waiting.iter ++ e.scheduler.running ++ e.scheduler.swapped ++ e.scheduler.asyncStopped ++ e.ignored

/-- When an operation may be called. A request is new and fits the model; a step follows the output of the step before; the
clients of the figures were seen; and a stopped group is finished by its pending output. -/
def Allowed (config : SchedulerConfig) (e : EngineRun T F B) : EngineOp T F → Prop
  | .addRequest r => r.Valid config ∧ ∀ g ∈ e.groups, g.seqId ≠ r.seqId ∧ g.requestId ≠ r.requestId
  | .schedule _ _ => e.batch = [] ∧ e.scheduler.asyncStopped = []
  | .updatePrefillServed p _ => ∀ c ∈ p, e.scheduler.waiting.Knows c
  | .freeFinished finished => ∀ g ∈ e.scheduler.asyncStopped, finished g = true
  | .abortRequest _ | .reportFinished | .advance _ => True

section Ops
variable {config : SchedulerConfig} {bm : BlockSpaceManager B} {t : BlockTables B} {Sound : B → Prop}
variable (laws : bm.Laws t Sound) (hw : config.Works) {e : EngineRun T F B} {leaked : List (SequenceGroup T)}

theorem mem_places {x : Place × SequenceGroup T} (hx : x ∈ e.places) : x.2 ∈ e.groups := by
  unfold places at hx
  simp only [Multiset.mem_add, mem_placesOf, runningPlaces, Multiset.mem_coe, List.mem_map] at hx
  unfold groups
  simp only [List.mem_append]
  rcases hx with ((⟨-, h⟩ | ⟨g, h, rfl⟩) | ⟨-, h⟩) | ⟨-, h⟩ <;> tauto

/-- The clients are known after an operation that gives no group in. -/
theorem known_of_accounts {s s' : SchedulerState T F B} {ignored : List (SequenceGroup T)}
    (h : ∀ q ∈ s.held, s.waiting.Knows q.clientId) (hacc : Accounts s s' ignored) (hext : s.waiting.Extends s'.waiting) :
    ∀ q ∈ s'.held, s'.waiting.Knows q.clientId := by
  obtain ⟨left, hheld, -⟩ := hacc
  intro q hq
  refine hext.knows _ (h q ?_)
  rw [← hheld, add_assoc]
  exact Multiset.mem_add.mpr (Or.inl hq)

/-! ## The operations -/

variable [Field F] [LinearOrder F]

theorem addRequest_ok (h : e.Inv config t Sound leaked) {r : NewRequest T} (hop : Allowed config e (.addRequest r : EngineOp T F)) :
    ∃ w, e.scheduler.waiting.append (SequenceGroup.new r) = .ok w ∧
      Inv config t Sound leaked { e with scheduler := { e.scheduler with waiting := w } } := by
  obtain ⟨hvalid, hnew⟩ := hop
  have hplaced := h.placed
  obtain ⟨w, hw, hext, hknows⟩ := WaitingQueue.append_ok h.waiting (SequenceGroup.new r)
  have hiter := WaitingQueue.iter_append hw
  have hfresh : ∀ x ∈ e.places + placesOf .infeasible leaked, x.2.seqId ≠ r.seqId ∧ x.2.requestId ≠ r.requestId := by
    intro x hx
    rcases Multiset.mem_add.mp hx with hx | hx
    · exact hnew _ (mem_places hx)
    · exact hnew _ (List.mem_append_right _ (h.leaked _ (mem_placesOf.mp hx).2))
  refine ⟨w, hw, ?_, h.leaked, h.batch, hext.sound, fun q hq => ?_, h.running_le⟩
  · have hentered := hplaced.enter (g := SequenceGroup.new r) hvalid ⟨rfl, rfl⟩ hfresh
    convert hentered using 1
    show placesOf .waiting w.iter + _ + _ + _ + _ = _ + (e.places + _)
    rw [placesOf_perm hiter, placesOf_cons]
    unfold places
    abel
  · have hheld : SchedulerState.held { e.scheduler with waiting := w } = {r} + e.scheduler.held := by
      have hrequests := requests_perm hiter
      rw [requests_cons] at hrequests
      show requests w.iter + _ + _ + _ = _
      rw [hrequests, SchedulerState.held]
      show {r} + requests e.scheduler.waiting.iter + _ + _ + _ = _
      abel
    rw [hheld] at hq
    rcases Multiset.mem_add.mp hq with hq | hq
    · rw [Multiset.mem_singleton.mp hq]
      exact hknows
    · exact hext.knows _ (h.known q hq)

section Free
omit [Field F] [LinearOrder F]

include laws in
/-- Groups that are freed are nobody's. -/
theorem freeGroups_ok (xs : List (Place × SequenceGroup T)) : ∀ {b : B} {rest : Multiset (Place × SequenceGroup T)},
    Placed config t Sound b (Multiset.ofList xs + rest) →
      ∃ b', Scheduler.freeGroups config bm (xs.map Prod.snd) b = .ok b' ∧ Placed config t Sound b' rest := by
  induction xs with
  | nil => intro b rest h; exact ⟨b, rfl, by simpa using h⟩
  | cons x xs ih =>
    intro b rest h
    rw [← Multiset.cons_coe, ← Multiset.singleton_add, add_assoc] at h
    obtain ⟨b₁, hb₁, hs, honly, habsent⟩ := laws.free (x.2.seqBlocks config.blockSize) h.sound
    obtain ⟨b', hb', hplaced⟩ := ih (h.update .gone x.2 rfl hs honly habsent).leave
    refine ⟨b', ?_, hplaced⟩
    rw [Scheduler.freeGroups, List.map_cons, List.foldlM_cons, hb₁]
    exact hb'

theorem perm_foldl_erase [DecidableEq T] {gs queue : List (SequenceGroup T)} (h : gs.Sublist queue) :
    queue.Perm (gs ++ gs.foldl List.erase queue) := by
  rw [← List.diff_eq_foldl]
  exact (List.subperm_append_diff_self_of_count_le fun g _ => h.subperm.count_le g).symm

theorem foldlM_remove_ok [DecidableEq T] {gs : List (SequenceGroup T)} : ∀ {w : WaitingQueue F (SequenceGroup T)},
    w.Sound → gs.Subperm w.iter → ∃ w', gs.foldlM (fun q g => WaitingQueue.remove g q) w = .ok w' ∧ w.Extends w' ∧
      w.iter.Perm (gs ++ w'.iter) := by
  induction gs with
  | nil => intro w h _; exact ⟨w, rfl, h.extends_refl, List.Perm.refl _⟩
  | cons g gs ih =>
    intro w h hsub
    have hg := hsub.subset List.mem_cons_self
    obtain ⟨w₁, hw₁, h₁⟩ := WaitingQueue.remove_ok h hg
    have hperm := WaitingQueue.iter_remove hg hw₁
    obtain ⟨w', hw', h', hiter⟩ := ih h₁.sound ((List.subperm_cons g).mp (hsub.trans hperm.subperm))
    refine ⟨w', ?_, h₁.trans h', hperm.trans (hiter.cons g)⟩
    rw [List.foldlM_cons, hw₁]
    exact hw'

include laws in
theorem abortSeqGroup_ok [DecidableEq T] (h : e.Inv config t Sound leaked) (ids : Finset String) : ∃ s,
    Scheduler.abortSeqGroup config bm ids e.scheduler = .ok s ∧ Inv config t Sound leaked { e with scheduler := s } := by
  have hplaced := h.placed
  let w := Scheduler.abortedOf ids e.scheduler.waiting.iter
  let r := Scheduler.abortedOf w.2 e.scheduler.running
  let a := Scheduler.abortedOf r.2 e.scheduler.swapped
  have hw := Scheduler.abortedOf_sublist ids e.scheduler.waiting.iter
  have hr := Scheduler.abortedOf_sublist w.2 e.scheduler.running
  have ha := Scheduler.abortedOf_sublist r.2 e.scheduler.swapped
  obtain ⟨waiting, hwaiting, hext, hiter⟩ := foldlM_remove_ok h.waiting hw.subperm
  have hrunning := perm_foldl_erase hr
  have hswapped := perm_foldl_erase ha
  let xs : List (Place × SequenceGroup T) :=
    w.1.map (.waiting, ·) ++ r.1.map (fun g => (placeIn e.batch g, g)) ++ a.1.map (.swapped, ·)
  have hsplit : e.places + placesOf .infeasible leaked = Multiset.ofList xs + (placesOf .waiting waiting.iter +
      runningPlaces e.batch (r.1.foldl List.erase e.scheduler.running) +
      placesOf .swapped (a.1.foldl List.erase e.scheduler.swapped) + placesOf .stopped e.scheduler.asyncStopped +
      placesOf .infeasible leaked) := by
    have hxs : Multiset.ofList xs = placesOf .waiting w.1 + runningPlaces e.batch r.1 + placesOf .swapped a.1 := by
      show Multiset.ofList (_ ++ _ ++ _) = _
      rw [← Multiset.coe_add, ← Multiset.coe_add]
      rfl
    rw [hxs, places, placesOf_perm hiter, runningPlaces_perm hrunning, placesOf_perm hswapped, placesOf_append,
      runningPlaces_append, placesOf_append]
    abel
  rw [hsplit] at hplaced
  obtain ⟨b, hb, hplaced'⟩ := freeGroups_ok laws xs hplaced
  have hxs : xs.map Prod.snd = w.1 ++ r.1 ++ a.1 := by simp [xs, Function.comp_def]
  rw [hxs] at hb
  have hrun : Scheduler.abortSeqGroup config bm ids e.scheduler = .ok
      { e.scheduler with
        waiting := waiting
        running := r.1.foldl List.erase e.scheduler.running
        swapped := a.1.foldl List.erase e.scheduler.swapped
        blocks := b
        finishedRequestsIds := e.scheduler.finishedRequestsIds ++ (w.1 ++ r.1 ++ a.1).map SequenceGroup.requestId } := by
    unfold Scheduler.abortSeqGroup
    dsimp only
    rw [hwaiting]
    show (Scheduler.freeGroups config bm (w.1 ++ r.1 ++ a.1) e.scheduler.blocks >>= _) = _
    rw [hb]
    rfl
  refine ⟨_, hrun, hplaced', h.leaked, fun g hg => h.batch g ?_, hext.sound,
    known_of_accounts h.known (Scheduler.accounts_abortSeqGroup hrun) hext, ?_⟩
  · exact hrunning.symm.subset (List.mem_append_right _ hg)
  · have hlen := hrunning.length_eq
    rw [List.length_append] at hlen
    exact ((Nat.le_add_left _ _).trans hlen.ge).trans h.running_le

include laws in
theorem freeFinishedSeqGroups_ok (h : e.Inv config t Sound leaked) {finished : SequenceGroup T → Bool}
    (hop : Allowed config e (.freeFinished finished : EngineOp T F)) : ∃ s,
      Scheduler.freeFinishedSeqGroups config bm finished e.scheduler = .ok s ∧ Inv config t Sound leaked { e with scheduler := s } := by
  have hplaced := h.placed
  let gone := e.scheduler.running.filter finished
  let left := e.scheduler.running.filter fun g => !finished g
  have hstopped : e.scheduler.asyncStopped.filter finished = e.scheduler.asyncStopped := List.filter_eq_self.mpr hop
  have hrunning : e.scheduler.running.Perm (gone ++ left) := (List.filter_append_perm _ _).symm
  let xs : List (Place × SequenceGroup T) :=
    gone.map (fun g => (placeIn e.batch g, g)) ++ e.scheduler.asyncStopped.map (.stopped, ·)
  have hsplit : e.places + placesOf .infeasible leaked = Multiset.ofList xs + (placesOf .waiting e.scheduler.waiting.iter +
      runningPlaces e.batch left + placesOf .swapped e.scheduler.swapped + placesOf .infeasible leaked) := by
    have hxs : Multiset.ofList xs = runningPlaces e.batch gone + placesOf .stopped e.scheduler.asyncStopped := by
      show Multiset.ofList (_ ++ _) = _
      rw [← Multiset.coe_add]
      rfl
    rw [hxs, places, runningPlaces_perm hrunning, runningPlaces_append]
    abel
  rw [hsplit] at hplaced
  obtain ⟨b, hb, hplaced'⟩ := freeGroups_ok laws xs hplaced
  have hxs : xs.map Prod.snd = gone ++ e.scheduler.asyncStopped.filter finished := by
    simp [xs, hstopped, Function.comp_def]
  rw [hxs] at hb
  have hrun : Scheduler.freeFinishedSeqGroups config bm finished e.scheduler = .ok
      { e.scheduler with
        running := left
        asyncStopped := []
        blocks := b
        finishedRequestsIds :=
          e.scheduler.finishedRequestsIds ++ (gone ++ e.scheduler.asyncStopped).map SequenceGroup.requestId } := by
    unfold Scheduler.freeFinishedSeqGroups
    rw [hb]
    rfl
  refine ⟨_, hrun, ?_, h.leaked, fun g hg => h.batch g (List.mem_filter.mp hg).1, h.waiting,
    known_of_accounts h.known (Scheduler.accounts_freeFinishedSeqGroups hrun) h.waiting.extends_refl, ?_⟩
  · convert hplaced' using 1
    show _ + _ + _ + placesOf .stopped [] + _ = _
    rw [placesOf_nil, add_zero]
  · exact (List.length_filter_le _ _).trans h.running_le

end Free

section Advance
omit [Field F] [LinearOrder F]

/-- A group with one token more has the blocks it had, or one more. -/
theorem covers_of_holds {b : B} {g g' : SequenceGroup T} (hsize : config.blockSize ≠ 0) (hrequest : g'.request = g.request)
    (hlen : g'.getLen = g.getLen ∨ g'.getLen = g.getLen + 1)
    (hholds : t.Holds b g.seqId .gpu (g.seqBlocks config.blockSize).nBlocks) :
    t.Covers b .gpu (g'.seqBlocks config.blockSize) := by
  have hid : g'.seqId = g.seqId := congrArg NewRequest.seqId hrequest
  refine ⟨_, hid ▸ hholds, ?_, ?_⟩
  · exact Nat.div_le_div_right (by omega)
  · show (g'.getLen + config.blockSize - 1) / config.blockSize ≤ (g.getLen + config.blockSize - 1) / config.blockSize + 1
    rw [← Nat.add_div_right _ (Nat.pos_of_ne_zero hsize)]
    exact Nat.div_le_div_right (by omega)

/-- A chunk that ends before the tokens do. -/
theorem updateNumComputedTokens_part {g : SequenceGroup T} {n : ℤ} (h : n + g.numComputedTokens < g.getLen) :
    g.updateNumComputedTokens n = .ok { g with numComputedTokens := g.numComputedTokens + n } := by
  unfold SequenceGroup.updateNumComputedTokens
  dsimp only
  rw [if_neg, if_neg]
  · show ¬ ((g.getLen : ℤ) - (g.numComputedTokens + n) = 0)
    omega
  · show ¬ ((g.getLen : ℤ) < g.numComputedTokens + n)
    omega

/-- A chunk that ends where the tokens do. -/
theorem updateNumComputedTokens_full {g : SequenceGroup T} {n : ℤ} (h : n + g.numComputedTokens = g.getLen) :
    g.updateNumComputedTokens n = .ok { g with numComputedTokens := g.numComputedTokens + n, stage := .decode } := by
  unfold SequenceGroup.updateNumComputedTokens
  dsimp only
  rw [if_neg, if_pos]
  · show (g.getLen : ℤ) - (g.numComputedTokens + n) = 0
    omega
  · show ¬ ((g.getLen : ℤ) < g.numComputedTokens + n)
    omega

/-- The chunk of a group is computed, and it runs on. -/
theorem advanceGroup_ok {batch : List ScheduledMetadata} (sampled : ℕ → T) {b : B} {g : SequenceGroup T}
    (hsize : config.blockSize ≠ 0) (hbatch : InBatch config batch g) : ∃ g', Scheduler.advanceGroup batch sampled g = .ok g' ∧
      g'.request = g.request ∧ (At config t b (placeIn batch g) g → At config t b .running g') := by
  unfold Scheduler.advanceGroup
  cases hfind : batch.find? (fun m => decide (m.seqId = g.seqId)) with
  | none =>
    refine ⟨g, rfl, rfl, fun hat => ?_⟩
    rw [placeIn, hfind] at hat
    exact hat
  | some m =>
    obtain ⟨n, hmatches, rfl⟩ := hbatch m hfind
    have hplace : placeIn batch g = .scheduled := by
      rw [placeIn, hfind]
      rfl
    rcases eq_or_lt_of_le hmatches.le_len with hfull | hpart
    · have hsample : (⟨g, n⟩ : ScheduledSequenceGroup T).metadata.doSample = true :=
        decide_eq_true fun hpart => absurd hpart.2 (not_lt_of_ge hfull.ge)
      let g' : SequenceGroup T :=
        SequenceGroup.appendTokenId { g with numComputedTokens := g.numComputedTokens + n, stage := .decode } (sampled g.seqId)
      have hlen : g'.getLen = g.getLen + 1 := by
        simp [g', SequenceGroup.appendTokenId, SequenceGroup.getLen, SequenceGroup.getTokenIds, add_assoc]
      refine ⟨g', ?_, rfl, fun hat => ?_⟩
      · show (g.updateNumComputedTokens n >>= _) = _
        rw [updateNumComputedTokens_full hfull]
        show Except.ok (if _ then _ else _) = _
        rw [if_pos hsample]
      · rw [hplace] at hat
        refine ⟨Or.inl ⟨rfl, ?_⟩, covers_of_holds (g := g) hsize rfl (Or.inr hlen) hat.2⟩
        show g.numComputedTokens + n + 1 = _
        rw [hlen]
        push_cast
        dsimp only at hfull
        omega
    · have hstage : g.stage = .prefill := by
        cases hdecode : g.stage with
        | prefill => rfl
        | decode => exact absurd (hmatches.whole (Or.inl hdecode)) hpart.ne
      have hchunked : config.chunkedPrefillEnabled = true := by
        by_contra hwhole
        exact absurd (hmatches.whole (Or.inr (Bool.eq_false_of_not_eq_true hwhole))) hpart.ne
      have hsample : ¬ (⟨g, n⟩ : ScheduledSequenceGroup T).metadata.doSample = true := fun hsample =>
        of_decide_eq_true hsample ⟨hstage, hpart⟩
      refine ⟨{ g with numComputedTokens := g.numComputedTokens + n }, ?_, rfl, fun hat => ?_⟩
      · show (g.updateNumComputedTokens n >>= _) = _
        rw [updateNumComputedTokens_part hpart]
        show Except.ok (if _ then _ else _) = _
        rw [if_neg hsample]
      · rw [hplace] at hat
        have hcomputed : 0 ≤ g.numComputedTokens := by
          rcases hat.1 with hfresh | ⟨hdecode, -⟩ | ⟨-, -, hle, -⟩
          · exact hfresh.2.ge
          · exact absurd (hstage.symm.trans hdecode) (by decide)
          · exact hle
        have hpos := hmatches.pos
        refine ⟨Or.inr ⟨hchunked, hstage, ?_, ?_⟩, covers_of_holds (g := g) hsize rfl (Or.inl rfl) hat.2⟩
        · show 0 ≤ g.numComputedTokens + n
          dsimp only at hpos
          omega
        · show g.numComputedTokens + n < (g.getLen : ℤ)
          dsimp only at hpart
          omega

include hw in
theorem advance_ok (h : e.Inv config t Sound leaked) (sampled : ℕ → T) : ∃ s, Scheduler.advance e.batch sampled e.scheduler = .ok s ∧
    Inv config t Sound leaked { e with scheduler := s, batch := [] } := by
  have hplaced := h.placed
  have hmap : ∃ running, e.scheduler.running.mapM (Scheduler.advanceGroup e.batch sampled) = .ok running ∧
      List.Forall₂ (fun g g' : SequenceGroup T => g'.request = g.request ∧
        (At config t e.scheduler.blocks (placeIn e.batch g) g → At config t e.scheduler.blocks .running g'))
        e.scheduler.running running :=
    exists_mapM_ok fun g hg => advanceGroup_ok sampled hw.blockSize (h.batch g hg)
  obtain ⟨running, hrunning, hall⟩ := hmap
  have hrun : Scheduler.advance e.batch sampled e.scheduler = .ok { e.scheduler with running := running } := by
    rw [Scheduler.advance, hrunning]
    rfl
  refine ⟨_, hrun, ?_, h.leaked, fun g _ m hm => absurd hm nofun, h.waiting,
    known_of_accounts h.known (Scheduler.accounts_advance hrun) h.waiting.extends_refl, ?_⟩
  · have hsplit : e.places + placesOf .infeasible leaked = runningPlaces e.batch e.scheduler.running +
        (placesOf .waiting e.scheduler.waiting.iter + placesOf .swapped e.scheduler.swapped +
          placesOf .stopped e.scheduler.asyncStopped + placesOf .infeasible leaked) := by
      unfold places
      abel
    rw [hsplit] at hplaced
    have hplaced' := hplaced.forall₂ (running.map (.running, ·)) (by
      rw [List.forall₂_map_left_iff, List.forall₂_map_right_iff]
      exact hall)
    change Placed config t Sound e.scheduler.blocks (placesOf .running running + _) at hplaced'
    convert hplaced' using 1
    show placesOf .waiting e.scheduler.waiting.iter + runningPlaces [] running + _ + _ + _ = _
    rw [runningPlaces_nil]
    abel
  · exact hall.length_eq ▸ h.running_le

end Advance

/-! ## Steps and runs -/

omit [Field F] [LinearOrder F] in
/-- Where a step may be made, the scheduler is ready for it. -/
theorem Inv.ready (h : e.Inv config t Sound leaked) {passedDelay : ℕ → Bool} {finishes : SequenceGroup T → Bool}
    (hop : Allowed config e (.schedule passedDelay finishes : EngineOp T F)) :
    e.scheduler.Ready config t Sound (placesOf .infeasible leaked) := by
  obtain ⟨hbatch, hstopped⟩ := hop
  have hplaced := h.placed
  have hplaces : e.places = e.scheduler.places := by
    rw [places, hbatch, hstopped, placesOf_nil, add_zero, runningPlaces_nil]
    rfl
  rw [hplaces] at hplaced
  exact ⟨hplaced, h.waiting, h.known, h.running_le, hstopped⟩

include laws hw in
theorem schedule_ok (h : e.Inv config t Sound leaked) {passedDelay : ℕ → Bool} {finishes : SequenceGroup T → Bool}
    (hop : Allowed config e (.schedule passedDelay finishes : EngineOp T F)) :
    Outcome (SwapSpace config) (fun x => ∃ prompts infeasible : List (SequenceGroup T),
        x.2.ignoredSeqGroups = prompts ++ infeasible ∧ requests prompts ≤ requests e.scheduler.waiting.iter ∧
        Inv config t Sound (leaked ++ infeasible)
          { e with
            scheduler := x.1
            batch := x.2.scheduledSeqGroups.map ScheduledSequenceGroup.metadata
            ignored := e.ignored ++ x.2.ignoredSeqGroups })
      (Scheduler.schedule config bm passedDelay finishes e.scheduler) := by
  refine ((Scheduler.schedule_ok laws hw (h.ready hop)).and_of_ok fun x hx => Scheduler.accounts_schedule hx).imp fun x hx => ?_
  obtain ⟨s, out⟩ := x
  obtain ⟨⟨left, infeasible, hplaced', hrunning, hchunks, hext, hle, prompts, hignored, hprompts⟩, hacc⟩ := hx
  dsimp only at hplaced' hrunning hchunks hext hle hignored hprompts hacc ⊢
  have hsplit : placesOf .waiting s.waiting.iter + placesOf .running left +
      placesOf .scheduled (out.scheduledSeqGroups.map ScheduledSequenceGroup.seqGroup) + placesOf .swapped s.swapped +
      placesOf .stopped s.asyncStopped + placesOf .infeasible infeasible + placesOf .infeasible leaked =
      placesOf .scheduled (out.scheduledSeqGroups.map ScheduledSequenceGroup.seqGroup) + (placesOf .running left +
        (placesOf .waiting s.waiting.iter + placesOf .swapped s.swapped + placesOf .stopped s.asyncStopped +
          placesOf .infeasible infeasible + placesOf .infeasible leaked)) := by abel
  have hids := hsplit ▸ hplaced'
  have hne : ∀ g ∈ left, ∀ d ∈ out.scheduledSeqGroups, d.seqGroup.seqId ≠ g.seqId := fun g hg d hd =>
    (hids.ids_ne (x := (.scheduled, d.seqGroup)) (y := (.running, g)) (mem_placesOf.mpr ⟨rfl, List.mem_map_of_mem hd⟩)
      (Multiset.mem_add.mpr (Or.inl (mem_placesOf.mpr ⟨rfl, hg⟩)))).1
  refine ⟨prompts, infeasible, hignored, hprompts, ?_, fun g hg => ?_, fun g hg m hm => ?_, hext.sound,
    known_of_accounts h.known hacc hext, hle⟩
  · convert hplaced' using 1
    show _ + runningPlaces (out.scheduledSeqGroups.map ScheduledSequenceGroup.metadata) s.running + _ + _ + _ = _
    rw [runningPlaces_perm hrunning, runningPlaces_batch hne, placesOf_append]
    abel
  · rw [hignored]
    rcases List.mem_append.mp hg with hg | hg
    · exact List.mem_append_left _ (h.leaked g hg)
    · exact List.mem_append_right _ (List.mem_append_right _ hg)
  · have hid : m.seqId = g.seqId := by
      have := List.find?_some hm
      exact of_decide_eq_true this
    obtain ⟨d, hd, rfl⟩ := List.mem_map.mp (List.mem_of_find?_eq_some hm)
    change d.seqGroup.seqId = g.seqId at hid
    have hg' : g = d.seqGroup := by
      rcases List.mem_append.mp (hrunning.subset hg) with hg | hg
      · exact absurd hid (hne g hg d hd)
      · obtain ⟨d', hd', rfl⟩ := List.mem_map.mp hg
        have hnodup := hids.nodup_ids.1
        exact List.inj_on_of_nodup_map hnodup (List.mem_map_of_mem hd') (List.mem_map_of_mem hd) hid.symm
    subst hg'
    exact ⟨d.tokenChunkSize, hchunks d hd, rfl⟩

include laws hw in
/-- **Every operation** keeps the invariant, and it raises nothing but for want of swap space. -/
theorem step_ok [DecidableEq T] (h : e.Inv config t Sound leaked) {op : EngineOp T F} (hop : Allowed config e op) :
    Outcome (SwapSpace config) (fun e' => ∃ infeasible, Inv config t Sound (leaked ++ infeasible) e')
      (step config bm e op) := by
  cases op with
  | addRequest r =>
    obtain ⟨w, hw, h'⟩ := addRequest_ok h hop
    exact Outcome.map_of_ok hw ⟨[], by rwa [List.append_nil]⟩
  | abortRequest ids =>
    obtain ⟨s, hs, h'⟩ := abortSeqGroup_ok laws h ids
    exact Outcome.map_of_ok hs ⟨[], by rwa [List.append_nil]⟩
  | schedule passedDelay finishes =>
    refine (schedule_ok laws hw h hop).map fun x hx => ?_
    obtain ⟨-, infeasible, -, -, h'⟩ := hx
    exact ⟨infeasible, h'⟩
  | reportFinished => exact ⟨[], by rw [List.append_nil]; exact ⟨h.placed, h.leaked, h.batch, h.waiting, h.known, h.running_le⟩⟩
  | updatePrefillServed p credits =>
    obtain ⟨w, hw, hext⟩ := WaitingQueue.updatePrefillServed_ok credits h.waiting hop
    have hiter := WaitingQueue.iter_updatePrefillServed hw
    have hplaced := h.placed
    refine Outcome.map_of_ok hw ⟨[], ?_⟩
    rw [List.append_nil]
    refine ⟨?_, h.leaked, h.batch, hext.sound, fun q hq => hext.knows _ (h.known q ?_), h.running_le⟩
    · unfold places at hplaced ⊢
      dsimp only
      rwa [hiter]
    · unfold SchedulerState.held at hq ⊢
      dsimp only at hq
      rwa [hiter] at hq
  | advance sampled =>
    obtain ⟨s, hs, h'⟩ := advance_ok hw h sampled
    exact Outcome.map_of_ok hs ⟨[], by rwa [List.append_nil]⟩
  | freeFinished finished =>
    obtain ⟨s, hs, h'⟩ := freeFinishedSeqGroups_ok laws h hop
    exact Outcome.map_of_ok hs ⟨[], by rwa [List.append_nil]⟩

omit [LinearOrder F] in
theorem inv_new {fairComputationEnabled : Bool} {blocks : B} (hs : Sound blocks) (habsent : ∀ i, t.Absent blocks i) :
    Inv config t Sound [] (new T F fairComputationEnabled blocks) := by
  have hiter : (new T F fairComputationEnabled blocks).scheduler.waiting.iter = [] := by cases fairComputationEnabled <;> rfl
  have hplaces : (new T F fairComputationEnabled blocks).places + placesOf .infeasible [] = 0 := by
    rw [places, hiter]
    rfl
  have hheld : (new T F fairComputationEnabled blocks).scheduler.held = 0 := by
    rw [SchedulerState.held, hiter]
    rfl
  refine ⟨?_, fun g hg => absurd hg List.not_mem_nil, fun g hg => absurd hg List.not_mem_nil, ?_, fun q hq => ?_,
    Nat.zero_le _⟩
  · rw [hplaces]
    exact ⟨hs, Multiset.nodup_zero, Multiset.nodup_zero, fun x hx => absurd hx (Multiset.notMem_zero x),
      fun x hx => absurd hx (Multiset.notMem_zero x), fun i _ => habsent i⟩
  · cases fairComputationEnabled with
    | true => exact fun c => ⟨fun hc => absurd hc (AList.notMem_empty c), fun hc => absurd hc (AList.notMem_empty c)⟩
    | false => exact fun c hc => absurd rfl hc
  · rw [hheld] at hq
    exact absurd hq (Multiset.notMem_zero q)

include laws hw in
/-- A run keeps the invariant, with what it leaked before. -/
theorem inv_of_reaches [DecidableEq T] {ops : List (EngineOp T F)} : ∀ {e e' : EngineRun T F B} {leaked : List (SequenceGroup T)},
    e.Inv config t Sound leaked → Along (step config bm) (Allowed config) e ops → Reaches (step config bm) e ops e' →
      ∃ infeasible, Inv config t Sound (leaked ++ infeasible) e' := by
  induction ops with
  | nil =>
    intro e e' leaked h _ hr
    obtain rfl := reaches_nil.mp hr
    exact ⟨[], by rwa [List.append_nil]⟩
  | cons op ops ih =>
    intro e e' leaked h ha hr
    obtain ⟨e₁, hop, hr⟩ := reaches_cons.mp hr
    have hone := step_ok laws hw h ha.1
    rw [hop] at hone
    obtain ⟨infeasible, h₁⟩ := hone
    obtain ⟨more, h'⟩ := ih h₁ (ha.2 e₁ hop) hr
    exact ⟨infeasible ++ more, by rwa [← List.append_assoc]⟩

include laws hw in
/-- **Every run is safe**: every state satisfies the invariant, and only the lack of swap space ends the run. -/
theorem everyOutcome_inv [DecidableEq T] {fairComputationEnabled : Bool} {blocks : B} (hs : Sound blocks)
    (habsent : ∀ i, t.Absent blocks i) {ops : List (EngineOp T F)}
    (h : Along (step config bm) (Allowed config) (new T F fairComputationEnabled blocks) ops) :
    EveryOutcome (step config bm) (SwapSpace config) (fun e => ∃ leaked, Inv config t Sound leaked e)
      (new T F fairComputationEnabled blocks) ops := by
  refine everyOutcome_of_step (fun e op he hop => ?_) ⟨[], inv_new hs habsent⟩ h
  obtain ⟨leaked, he⟩ := he
  exact (step_ok laws hw he hop).imp fun e' h' => ⟨_, h'.choose_spec⟩

end Ops

end EngineRun

end FairCache
