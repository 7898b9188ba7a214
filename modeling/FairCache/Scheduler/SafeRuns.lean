import FairCache.Scheduler.Safety

/-!
# The engine with the first block manager

* `Safe` : what holds in every state; `everyOutcome_safe` : every run is safe, and only the lack of swap space ends it;
* `covers_of_infeasible` : a swapped group that does not fit any more keeps its CPU blocks for ever.
-/

namespace FairCache.EngineRun

open Lib BlockSpaceManagerV1

variable {T F : Type} {config : SchedulerConfig}

/-! ## Safety -/

/-- The groups in the queues. -/
def queued {B : Type} (e : EngineRun T F B) : List (SequenceGroup T) :=
  e.scheduler.waiting.iter ++ e.scheduler.running ++ e.scheduler.swapped ++ e.scheduler.asyncStopped

/-- What holds of the queues and of the block tables: a waiting group has no table, a running one has its blocks on the GPU,
a swapped one on the CPU, all but perhaps the last, and no other table is left but those of stopped and ignored groups. -/
structure Safe (config : SchedulerConfig) (e : EngineRun T F BlockSpaceManagerV1) : Prop where
  blocks : e.scheduler.blocks.Consistent
  running_le : e.scheduler.running.length ≤ config.maxNumSeqs
  seqIds : (e.queued.map SequenceGroup.seqId).Nodup
  waiting : ∀ g ∈ e.scheduler.waiting.iter, g.seqId ∉ e.scheduler.blocks.blockTables
  running : ∀ g ∈ e.scheduler.running, tables.Covers e.scheduler.blocks .gpu (g.seqBlocks config.blockSize)
  swapped : ∀ g ∈ e.scheduler.swapped, tables.Covers e.scheduler.blocks .cpu (g.seqBlocks config.blockSize)
  others : ∀ i ∈ e.scheduler.blocks.blockTables,
    ∃ g ∈ e.scheduler.running ++ e.scheduler.swapped ++ e.scheduler.asyncStopped ++ e.ignored, g.seqId = i

section Safe
variable {B : Type} {t : BlockTables B} {Sound : B → Prop} {e : EngineRun T F B} {leaked : List (SequenceGroup T)}

theorem map_places {α : Type} (e : EngineRun T F B) (f : SequenceGroup T → α) :
    e.places.map (fun x => f x.2) = Multiset.ofList (e.queued.map f) := by
  have hrunning : (runningPlaces e.batch e.scheduler.running).map (fun x => f x.2) =
      Multiset.ofList (e.scheduler.running.map f) := by
    rw [runningPlaces, Multiset.map_coe, List.map_map]
    rfl
  simp only [places, queued, Multiset.map_add, map_placesOf, hrunning, List.map_append, Multiset.coe_add]

theorem mem_places_waiting {g : SequenceGroup T} (hg : g ∈ e.scheduler.waiting.iter) : (Place.waiting, g) ∈ e.places := by
  simp only [places, Multiset.mem_add, mem_placesOf]
  exact Or.inl (Or.inl (Or.inl ⟨trivial, hg⟩))

theorem mem_places_running {g : SequenceGroup T} (hg : g ∈ e.scheduler.running) : (placeIn e.batch g, g) ∈ e.places := by
  have hmem : (placeIn e.batch g, g) ∈ runningPlaces e.batch e.scheduler.running :=
    Multiset.mem_coe.mpr (List.mem_map.mpr ⟨g, hg, rfl⟩)
  simp only [places, Multiset.mem_add]
  exact Or.inl (Or.inl (Or.inr hmem))

theorem mem_places_swapped {g : SequenceGroup T} (hg : g ∈ e.scheduler.swapped) : (Place.swapped, g) ∈ e.places := by
  simp only [places, Multiset.mem_add, mem_placesOf]
  exact Or.inl (Or.inr ⟨trivial, hg⟩)

theorem Inv.at_place (h : e.Inv config t Sound leaked) {x : Place × SequenceGroup T} (hx : x ∈ e.places) :
    At config t e.scheduler.blocks x.1 x.2 := h.placed.at_place x (Multiset.mem_add.mpr (Or.inl hx))

/-- A running group has its blocks, before its step and after it. -/
theorem Inv.running_covers (h : e.Inv config t Sound leaked) {g : SequenceGroup T} (hg : g ∈ e.scheduler.running) :
    t.Covers e.scheduler.blocks .gpu (g.seqBlocks config.blockSize) := by
  have hat := h.at_place (mem_places_running hg)
  unfold placeIn at hat
  split_ifs at hat
  · exact ⟨_, hat.2, le_refl _, Nat.le_succ _⟩
  · exact hat.2

end Safe

theorem Inv.safe {e : EngineRun T F BlockSpaceManagerV1} {leaked : List (SequenceGroup T)}
    (h : e.Inv config tables Consistent leaked) : Safe config e where
  blocks := h.placed.sound
  running_le := h.running_le
  seqIds := by
    have hids := Multiset.nodup_of_le (Multiset.map_le_map (Multiset.le_add_right e.places _)) h.placed.seqIds
    rw [map_places] at hids
    exact hids
  waiting g hg := (h.at_place (mem_places_waiting hg)).2
  running g hg := h.running_covers hg
  swapped g hg := (h.at_place (mem_places_swapped hg)).2
  others i hi := by
    have hmem : i ∈ (e.places + placesOf .infeasible leaked).map fun x => x.2.seqId := by
      by_contra hnot
      exact h.placed.absent i hnot hi
    obtain ⟨x, hx, rfl⟩ := Multiset.mem_map.mp hmem
    refine ⟨x.2, ?_, rfl⟩
    rcases Multiset.mem_add.mp hx with hx | hx
    · have hat := h.at_place hx
      have hgroups := mem_places hx
      have hwaiting : x.2 ∉ e.scheduler.waiting.iter := fun hw => (h.at_place (mem_places_waiting hw)).2 hi
      unfold groups at hgroups
      simp only [List.mem_append] at hgroups ⊢
      tauto
    · exact List.mem_append_right _ (h.leaked _ (mem_placesOf.mp hx).2)

/-! ## What can be decided -/

instance {T : Type} (config : SchedulerConfig) (r : NewRequest T) : Decidable (r.Valid config) :=
  have : Decidable (∃ limit, getPromptLimit config (SequenceGroup.new r) = .ok limit) :=
    decidable_of_iff (∃ limit, getPromptLimit config (SequenceGroup.new r) = .ok limit ∧ True) (by simp only [and_true])
  have : Decidable (r.promptTokenIds ≠ []) := decidable_of_iff (¬ r.promptTokenIds.isEmpty = true) (by simp)
  inferInstanceAs (Decidable (_ ∧ _))

instance {G : Type} (w : WaitingQueue F G) (c : ClientId) : Decidable (w.Knows c) :=
  match w with
  | .fair (.cpi q) => inferInstanceAs (Decidable (c ∈ q.served))
  | .fair (.req q) => inferInstanceAs (Decidable (c ∈ q.served))
  | .deque _ => .isFalse nofun

instance decidableAllowed {B : Type} (config : SchedulerConfig) (e : EngineRun T F B) :
    ∀ op : EngineOp T F, Decidable (Allowed config e op)
  | .addRequest r => inferInstanceAs (Decidable (r.Valid config ∧ _))
  | .schedule _ _ =>
    decidable_of_iff (e.batch.isEmpty = true ∧ e.scheduler.asyncStopped.isEmpty = true) (by simp [Allowed])
  | .updatePrefillServed p _ => inferInstanceAs (Decidable (∀ c ∈ p.keys, e.scheduler.waiting.Knows c))
  | .freeFinished finished => inferInstanceAs (Decidable (∀ g ∈ e.scheduler.asyncStopped, finished g = true))
  | .abortRequest _ | .reportFinished | .advance _ => .isTrue trivial

/-! ## Runs -/

variable [Field F]

theorem inv_newV1 (fairComputationEnabled : Bool) (numGpuBlocks numCpuBlocks watermarkBlocks : ℕ) :
    Inv config tables Consistent []
      (new T F fairComputationEnabled (BlockSpaceManagerV1.new numGpuBlocks numCpuBlocks watermarkBlocks)) :=
  inv_new (consistent_new _ _ _) fun i => AList.notMem_empty i

variable [LinearOrder F] [DecidableEq T]

/-- A group is swapped out for want of blocks and back in when the other finished, and a request is aborted. -/
def swapRun : List (EngineOp ℕ ℚ) :=
  let schedule : EngineOp ℕ ℚ := .schedule (fun _ => true) fun _ => false
  let advance : EngineOp ℕ ℚ := .advance fun _ => 0
  [.addRequest (smallRequest "a" 0 1 [1, 2]), .addRequest (smallRequest "b" 1 2 [1, 2, 3]), schedule, advance, schedule,
    .updatePrefillServed ((∅ : Dict ClientId (ℚ × ℚ)).set 1 (1, 2)) none, advance, schedule, advance, schedule, advance, schedule, advance,
    .freeFinished fun g => g.requestId = "a", schedule, .addRequest (smallRequest "c" 2 1 [1]), advance, schedule,
    .abortRequest {"c"}, .reportFinished]

/-- **The CPU blocks of a swapped group that a step ignores are never free again**: in every later state, whatever is aborted
or finished, the group has its table, and no queue has the group. -/
theorem covers_of_ignored (hw : config.Works) {fairComputationEnabled : Bool} {numGpuBlocks numCpuBlocks watermarkBlocks : ℕ}
    {ops ops' : List (EngineOp T F)} {passedDelay : ℕ → Bool} {finishes : SequenceGroup T → Bool}
    {e e' : EngineRun T F BlockSpaceManagerV1} {s : SchedulerState T F BlockSpaceManagerV1} {out : SchedulingOutputs T}
    {g : SequenceGroup T}
    (h : Along (step config manager) (Allowed config)
      (new T F fairComputationEnabled (BlockSpaceManagerV1.new numGpuBlocks numCpuBlocks watermarkBlocks))
      (ops ++ .schedule passedDelay finishes :: ops'))
    (hreach : Reaches (step config manager)
      (new T F fairComputationEnabled (BlockSpaceManagerV1.new numGpuBlocks numCpuBlocks watermarkBlocks)) ops e)
    (hschedule : Scheduler.schedule config manager passedDelay finishes e.scheduler = .ok (s, out))
    (hswapped : g ∈ e.scheduler.swapped) (hignored : g ∈ out.ignoredSeqGroups)
    (hend : Reaches (step config manager) e (.schedule passedDelay finishes :: ops') e') :
    tables.Covers e'.scheduler.blocks .cpu (g.seqBlocks config.blockSize) ∧ ∀ x ∈ e'.queued, x.seqId ≠ g.seqId := by
  obtain ⟨leaked, he⟩ := inv_of_reaches laws hw (inv_newV1 _ _ _ _) h.of_append_left hreach
  have hrest := h.of_append hreach
  -- it was not a prompt, so it is one of those that never fit again
  have hone := schedule_ok laws hw he hrest.1
  rw [hschedule] at hone
  obtain ⟨prompts, infeasible, hsplit, hprompts, h₁⟩ := hone
  have hnot : g ∉ prompts := fun hg => by
    obtain ⟨x, hx, heq⟩ := List.mem_map.mp (Multiset.mem_coe.mp (Multiset.mem_of_le hprompts (Scheduler.mem_requests hg)))
    have hsafe := he.safe.seqIds
    unfold queued at hsafe
    rw [List.map_append, List.map_append, List.map_append] at hsafe
    have hdisjoint := List.disjoint_of_nodup_append (List.nodup_append.mp hsafe).1
    have hid : x.seqId = g.seqId := congrArg NewRequest.seqId heq
    exact hdisjoint (List.mem_append_left _ (hid ▸ List.mem_map_of_mem hx)) (List.mem_map_of_mem hswapped)
  have hg : g ∈ infeasible := (List.mem_append.mp (hsplit ▸ hignored)).resolve_left hnot
  obtain ⟨e₁, hop, hend⟩ := reaches_cons.mp hend
  have hstep : step config manager e (.schedule passedDelay finishes) = .ok
      { e with
        scheduler := s
        batch := out.scheduledSeqGroups.map ScheduledSequenceGroup.metadata
        ignored := e.ignored ++ out.ignoredSeqGroups } := by
    rw [step, hschedule]
    rfl
  obtain rfl := Except.ok.inj (hstep.symm.trans hop)
  obtain ⟨more, h'⟩ := inv_of_reaches laws hw h₁ (hrest.2 _ hop) hend
  have hmem : (Place.infeasible, g) ∈ placesOf .infeasible (leaked ++ infeasible ++ more) :=
    mem_placesOf.mpr ⟨rfl, List.mem_append_left _ (List.mem_append_right _ hg)⟩
  refine ⟨h'.placed.at_place _ (Multiset.mem_add.mpr (Or.inr hmem)), fun x hx => ?_⟩
  obtain ⟨y, hy, hid⟩ : ∃ y ∈ e'.places, y.2.seqId = x.seqId := by
    have := Multiset.mem_coe.mpr (List.mem_map_of_mem (f := SequenceGroup.seqId) hx)
    rw [← map_places] at this
    exact Multiset.mem_map.mp this
  exact hid ▸ (h'.placed.ids_ne hy hmem).1

/-- A group is swapped out, and then the GPU is too small for it; a second request comes and finishes. -/
def leakedRun : List (EngineOp ℕ ℚ) × List (EngineOp ℕ ℚ) :=
  let schedule : EngineOp ℕ ℚ := .schedule (fun _ => true) fun _ => false
  let advance : EngineOp ℕ ℚ := .advance fun _ => 0
  ([.addRequest (smallRequest "a" 0 1 [1, 2, 3, 4, 5]), schedule, advance, schedule, advance],
    [advance, .abortRequest {"a"}, .addRequest (smallRequest "b" 1 2 [1]), schedule, advance, .freeFinished fun _ => true])

theorem leakedRun_covers : ∃ e', Reaches (step (smallConfig false (some "swap")) manager)
    (new ℕ ℚ true (BlockSpaceManagerV1.new 3 3 0))
    (leakedRun.1 ++ .schedule (fun _ => true) (fun _ => false) :: leakedRun.2) e' ∧
      tables.Covers e'.scheduler.blocks .cpu ⟨0, 3⟩ ∧ ∀ x ∈ e'.queued, x.seqId ≠ 0 := by
  have hrun : ∃ e, Reaches (step (smallConfig false (some "swap")) manager) (new ℕ ℚ true (BlockSpaceManagerV1.new 3 3 0))
      leakedRun.1 e ∧ ∃ r, Scheduler.schedule (smallConfig false (some "swap")) manager (fun _ => true) (fun _ => false)
        e.scheduler = .ok r ∧ ((∃ g ∈ e.scheduler.swapped, g ∈ r.2.ignoredSeqGroups ∧ g.seqId = 0 ∧ g.getLen = 6) ∧
          ∃ e', Reaches (step (smallConfig false (some "swap")) manager) e
            (.schedule (fun _ => true) (fun _ => false) :: leakedRun.2) e' ∧ True) := by
    decide +kernel
  obtain ⟨e, hreach, r, hr, ⟨g, hg, hignored, hid, hlen⟩, e', hend, -⟩ := hrun
  have hcovers := covers_of_ignored ⟨by decide, by decide, by decide⟩ (by decide +kernel) hreach hr hg hignored hend
  refine ⟨e', reaches_append.mpr ⟨e, hreach, hend⟩, ?_, fun x hx => ?_⟩
  · have hblocks : g.seqBlocks (smallConfig false (some "swap")).blockSize = ⟨0, 3⟩ := by
      rw [SequenceGroup.seqBlocks, hid, hlen]
      rfl
    exact hblocks ▸ hcovers.1
  · exact hid ▸ hcovers.2 x hx

end FairCache.EngineRun
