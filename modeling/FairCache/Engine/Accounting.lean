import FairCache.Engine.Step
import FairCache.Lib.Run
import FairCache.Queue.Charges

/-!
# The two steps account alike

* `board` : a state without the counters that nothing reads; every part of a step commutes with it;
* `step_ok` : what a synchronous step that returns does, next to the asynchronous one;
* `BalancedStep` : the step charges no figures but balanced ones;
* `sameBoards_iff` : runs whose steps all do, and only those, leave the scoreboards equal after every step.
-/

namespace FairCache

open Lib

/-! ## What the steps read of the queue -/

namespace CPIReqQueue

variable {F G : Type}

/-- The queue without its counters. -/
def board (q : CPIReqQueue F G) : CPIReqQueue F G :=
  { q with servedRequests := ∅, servedTokens := ∅, hitTokensCount := ∅, missTokensCount := ∅ }

@[simp] theorem board_served (q : CPIReqQueue F G) : q.board.served = q.served := rfl

@[simp] theorem board_credits (q : CPIReqQueue F G) : q.board.credits = q.credits := rfl

theorem boards_eq {q q' : CPIReqQueue F G} (h : q.board = q'.board) :
    q.served = q'.served ∧ q.credits = q'.credits := by
  rw [← board_served, ← board_served q', ← board_credits, ← board_credits q', h]
  exact ⟨rfl, rfl⟩

@[simp] theorem board_clientWaitingQueues (q : CPIReqQueue F G) :
    q.board.clientWaitingQueues = q.clientWaitingQueues := rfl

@[simp] theorem board_waiting (q : CPIReqQueue F G) (c : ClientId) : q.board.waiting c = q.waiting c := rfl

section
variable [Field F] [LinearOrder F] [HasClientId G]

omit [LinearOrder F] in
@[simp] theorem enqueue_board (q : CPIReqQueue F G) (g : G) : q.board.enqueue g = (q.enqueue g).board := by
  unfold enqueue
  rw [board_clientWaitingQueues]
  cases q.clientWaitingQueues.lookup (clientId g) <;> rfl

theorem append_board (q : CPIReqQueue F G) (g : G) : q.board.append g = (q.append g).map board := by
  unfold append
  simp only [enqueue_board, board_waiting, board_served, board_clientWaitingQueues]
  split_ifs
  · rfl
  · rw [show (q.enqueue g).board.otherScores = (q.enqueue g).otherScores from rfl]
    cases ((q.enqueue g).otherScores (clientId g)).min? <;> rfl
  · rfl

omit [Field F] [HasClientId G] in
theorem popleft_board (q : CPIReqQueue F G) : q.board.popleft = q.popleft.map fun r => (r.1, r.2.board) := by
  unfold popleft
  rw [board_clientWaitingQueues, board_served]
  cases selectClient q.clientWaitingQueues q.served with
  | error e => rfl
  | ok c =>
    simp only [board_waiting]
    cases q.waiting c <;> rfl

omit [LinearOrder F] [HasClientId G] in
theorem chargeDecode_board (q : CPIReqQueue F G) (c : ClientId) :
    q.board.chargeDecode c = (q.chargeDecode c).map board := by
  unfold chargeDecode
  rw [board_served]
  cases q.served.lookup c <;> rfl

omit [Field F] [LinearOrder F] in
theorem appendleft_board (q : CPIReqQueue F G) (g : G) : q.board.appendleft g = (q.appendleft g).map board := by
  unfold appendleft
  rw [board_clientWaitingQueues]
  cases q.clientWaitingQueues.lookup (clientId g) <;> rfl

theorem runQueueOp_board (q : CPIReqQueue F G) (op : QueueOp G) :
    q.board.runQueueOp op = (q.runQueueOp op).map board := by
  cases op with
  | popleft =>
    show q.board.popleft.map _ = (q.popleft.map _).map board
    rw [popleft_board]
    cases q.popleft <;> rfl
  | appendleft g => exact appendleft_board q g
  | chargeDecode c => exact chargeDecode_board q c

omit [HasClientId G] in
/-- The figures change the scoreboards and the counters only. -/
theorem board_updatePrefillServed (q : CPIReqQueue F G) (prefillServed : Dict ClientId (F × F))
    (credits : Option (Dict ClientId F)) :
    (q.updatePrefillServed prefillServed credits).board =
      { q.board with
        served := (q.updatePrefillServed prefillServed credits).served
        credits := (q.updatePrefillServed prefillServed credits).credits } := by
  let Frame (q' : CPIReqQueue F G) := q'.board = { q.board with served := q'.served, credits := q'.credits }
  have hstep : ∀ q' q'' : CPIReqQueue F G, Frame q' →
      q''.board = { q'.board with served := q''.served, credits := q''.credits } → Frame q'' := by
    intro q' q'' hq' hq''
    rw [hq'] at hq''
    exact hq''
  rw [updatePrefillServed_eq]
  refine List.foldlRecOn (motive := Frame) _ _ (List.foldlRecOn (motive := Frame) _ _ rfl
    fun q' hq' e _ => hstep _ _ hq' rfl) fun q' hq' e _ => hstep _ _ hq' rfl

end

end CPIReqQueue

namespace LLMEngine

variable {F G T R W : Type}

/-- The engine without the counters of its waiting queue. -/
def board (s : EngineState F G T R W) : EngineState F G T R W := { s with waiting := s.waiting.board }

variable [Field F] [LinearOrder F] [HasClientId G]
variable (calls : EngineCalls F G T R W) (config : EngineConfig) (s : EngineState F G T R W)

omit [Field F] [LinearOrder F] [HasClientId G] in
theorem processModelOutputs_board : processModelOutputs calls (board s) = (processModelOutputs calls s).map board := by
  unfold processModelOutputs
  show Except.map _ (calls.processModelOutputs s.ctx s.rest) = _
  cases calls.processModelOutputs s.ctx s.rest <;> rfl

omit [Field F] [LinearOrder F] [HasClientId G] in
theorem drainOutput_board : drainOutput calls (board s) = (drainOutput calls s).map board := by
  unfold drainOutput
  rw [processModelOutputs_board]
  rw [show (board s).ctx = s.ctx from rfl]
  split_ifs <;> rfl

theorem addRequests_board (arrivals : List G) :
    addRequests (board s) arrivals = (addRequests s arrivals).map board := by
  unfold addRequests
  show Except.map _ (arrivals.foldlM CPIReqQueue.append s.waiting.board) = _
  rw [foldlM_map_of_comm CPIReqQueue.append_board]
  cases arrivals.foldlM CPIReqQueue.append s.waiting <;> rfl

theorem schedule_board (call : ScheduleCall G W) :
    schedule (board s) call = (schedule s call).map board := by
  unfold schedule
  show Except.map _ (call.queueOps.foldlM CPIReqQueue.runQueueOp s.waiting.board) = _
  rw [foldlM_map_of_comm CPIReqQueue.runQueueOp_board]
  cases call.queueOps.foldlM CPIReqQueue.runQueueOp s.waiting <;> rfl

omit [Field F] [LinearOrder F] [HasClientId G] in
theorem switchToSync_board (allowAsync : Bool) :
    switchToSync calls (board s) allowAsync = (switchToSync calls s allowAsync).map board := by
  unfold switchToSync
  rw [drainOutput_board]
  split_ifs <;> rfl

omit [Field F] [LinearOrder F] [HasClientId G] in
theorem cachedIteration_board : cachedIteration (board s) = (cachedIteration s).map fun r => (r.1, board r.2) := by
  obtain ⟨q, ⟨l, o, allowAsync⟩, ctx, w⟩ := s
  cases l <;> cases o <;> rfl

omit [Field F] [LinearOrder F] [HasClientId G] in
theorem cacheSchedulerOutputs_board (it : Iteration G) :
    cacheSchedulerOutputs config (board s) it =
      ((cacheSchedulerOutputs config s it).1, board (cacheSchedulerOutputs config s it).2) := by
  unfold cacheSchedulerOutputs
  split_ifs <;> rfl

theorem newIteration_board (call : ScheduleCall G W) :
    newIteration calls config (board s) call =
      (newIteration calls config s call).map fun r => (r.1, board r.2) := by
  unfold newIteration
  rw [schedule_board]
  refine bind_map_of_comm (fun s => ?_) _
  rw [switchToSync_board]
  refine bind_map_of_comm (fun s => ?_) _
  exact congrArg Except.ok (cacheSchedulerOutputs_board config s _)

theorem scheduleIteration_board (call : ScheduleCall G W) :
    scheduleIteration calls config (board s) call =
      (scheduleIteration calls config s call).map fun r => (r.1, board r.2) := by
  unfold scheduleIteration
  show (hasRemainingSteps config s.cachedSchedulerOutputs.seqGroupMetadataList >>= _) =
    Except.map _ (hasRemainingSteps config s.cachedSchedulerOutputs.seqGroupMetadataList >>= _)
  cases hasRemainingSteps config s.cachedSchedulerOutputs.seqGroupMetadataList with
  | error e => rfl
  | ok remaining =>
    cases remaining with
    | true => exact cachedIteration_board { s with ctx := { s.ctx with requestOutputs := [] } }
    | false => exact newIteration_board calls config { s with ctx := { s.ctx with requestOutputs := [] } } call

omit [Field F] [LinearOrder F] [HasClientId G] in
theorem executeModel_board (allowAsync : Bool) (n : ℕ) :
    executeModel calls (board s) allowAsync n = (executeModel calls s allowAsync n).map board := by
  induction n with
  | zero => rfl
  | succ n ih =>
    unfold executeModel
    rw [ih]
    refine bind_map_of_comm (fun s => ?_) _
    rw [processModelOutputs_board]
    split_ifs <;> rfl

omit [Field F] [LinearOrder F] [HasClientId G] in
theorem finishSteps_board (it : Iteration G) :
    finishSteps config (board s) it = (finishSteps config s it).map fun r => (r.1, board r.2) := by
  unfold finishSteps
  cases config.isMultiStep with
  | false => rfl
  | true =>
    cases it.cached <;> cases it.seqGroupMetadataList.mapM SequenceGroupMetadata.finishStep <;> rfl

omit [Field F] [LinearOrder F] [HasClientId G] in
theorem processBatch_board (it : Iteration G) (outputs : List (SamplerOutput F T)) :
    processBatch calls (board s) it outputs = (processBatch calls s it outputs).map board := by
  unfold processBatch
  split_ifs
  · rcases outputs with _ | ⟨o, _ | ⟨o', os⟩⟩
    · rfl
    · show Except.map _ (calls.advanceToNextStep o _ _ s.rest) = Except.map _ (Except.map _ _)
      cases calls.advanceToNextStep o it.seqGroupMetadataList it.schedulerOutputs.scheduledSeqGroups s.rest <;> rfl
    · rfl
  · exact processModelOutputs_board calls s

omit [Field F] [LinearOrder F] [HasClientId G] in
theorem drainIfFinished_board : drainIfFinished calls (board s) = (drainIfFinished calls s).map board := by
  unfold drainIfFinished
  rw [drainOutput_board, show (board s).waiting.isNonempty = s.waiting.isNonempty from rfl,
    show (board s).rest = s.rest from rfl]
  split_ifs
  · rfl
  · refine bind_map_of_comm (fun s => ?_) _
    unfold assertDrained
    rw [show (board s).ctx = s.ctx from rfl]
    split_ifs <;> rfl

omit [Field F] [LinearOrder F] [HasClientId G] in
theorem finishIteration_board (it : Iteration G) (outputs : List (SamplerOutput F T)) :
    finishIteration calls config (board s) it outputs = (finishIteration calls config s it outputs).map board := by
  unfold finishIteration
  rw [finishSteps_board]
  refine bind_map_of_comm (fun r => ?_) _
  simp only
  cases hasRemainingSteps config (some r.1.seqGroupMetadataList) with
  | error e => rfl
  | ok remaining =>
    cases remaining with
    | true => rfl
    | false =>
      show (processBatch calls (board (appendOutput config r.2 r.1 outputs)) r.1 outputs >>= _) =
        (processBatch calls (appendOutput config r.2 r.1 outputs) r.1 outputs >>= _).map board
      rw [processBatch_board]
      exact bind_map_of_comm (drainIfFinished_board calls) _

/-- **The asynchronous step does not read the counters.** -/
theorem stepAsync_board (i : StepInput F G T W) :
    stepAsync calls config (board s) i = (stepAsync calls config s i).map board := by
  unfold stepAsync
  rw [addRequests_board]
  refine bind_map_of_comm (fun s => ?_) _
  rw [scheduleIteration_board]
  refine bind_map_of_comm (fun r => ?_) _
  simp only
  split_ifs
  · rw [drainOutput_board]
    exact bind_map_of_comm (fun s => finishIteration_board calls config s r.1 []) _
  · rw [executeModel_board]
    exact bind_map_of_comm (fun s => finishIteration_board calls config s r.1 i.outputs) _

/-! ## One step -/

omit [Field F] [LinearOrder F] [HasClientId G] in
theorem processModelOutputs_waiting {s t : EngineState F G T R W} (h : processModelOutputs calls s = .ok t) :
    t.waiting = s.waiting := by
  obtain ⟨r, -, rfl⟩ := map_ok h
  rfl

omit [Field F] [LinearOrder F] [HasClientId G] in
theorem drainOutput_waiting {s t : EngineState F G T R W} (h : drainOutput calls s = .ok t) :
    t.waiting = s.waiting := by
  unfold drainOutput at h
  split_ifs at h
  · cases h; rfl
  · exact processModelOutputs_waiting calls h

omit [Field F] [LinearOrder F] [HasClientId G] in
theorem executeModel_waiting {s t : EngineState F G T R W} {allowAsync : Bool} {n : ℕ}
    (h : executeModel calls s allowAsync n = .ok t) : t.waiting = s.waiting := by
  induction n generalizing t with
  | zero => cases h; rfl
  | succ n ih =>
    obtain ⟨s', hs', h⟩ := bind_ok h
    split_ifs at h
    · exact (processModelOutputs_waiting calls h).trans (ih hs')
    · cases h; exact ih hs'

omit [Field F] [LinearOrder F] [HasClientId G] in
theorem processBatch_waiting {s t : EngineState F G T R W} {it : Iteration G} {outputs : List (SamplerOutput F T)}
    (h : processBatch calls s it outputs = .ok t) : t.waiting = s.waiting := by
  unfold processBatch at h
  split_ifs at h
  · rcases outputs with _ | ⟨o, _ | ⟨o', os⟩⟩
    · cases h; rfl
    · obtain ⟨w, -, rfl⟩ := map_ok h
      rfl
    · cases h
  · exact processModelOutputs_waiting calls h

omit [Field F] [LinearOrder F] [HasClientId G] in
theorem drainIfFinished_waiting {s t : EngineState F G T R W} (h : drainIfFinished calls s = .ok t) :
    t.waiting = s.waiting := by
  unfold drainIfFinished at h
  split_ifs at h
  · cases h; rfl
  · obtain ⟨s', hs', h⟩ := bind_ok h
    unfold assertDrained at h
    split_ifs at h
    cases h
    exact drainOutput_waiting calls hs'

omit [Field F] [LinearOrder F] [HasClientId G] in
theorem finishSteps_waiting {s t : EngineState F G T R W} {it it' : Iteration G}
    (h : finishSteps config s it = .ok (it', t)) : t.waiting = s.waiting := by
  unfold finishSteps at h
  split_ifs at h
  · obtain ⟨l, -, h⟩ := map_ok h
    cases h; rfl
  · obtain ⟨l, -, h⟩ := map_ok h
    cases h; rfl
  · cases h; rfl

omit [Field F] [LinearOrder F] [HasClientId G] in
/-- The waiting queue stays as it is from the outputs on. -/
theorem finishIteration_waiting {s t : EngineState F G T R W} {it : Iteration G}
    {outputs : List (SamplerOutput F T)} (h : finishIteration calls config s it outputs = .ok t) :
    t.waiting = s.waiting := by
  obtain ⟨⟨it', s'⟩, hs', h⟩ := bind_ok h
  obtain ⟨remaining, -, h⟩ := bind_ok h
  refine Eq.trans ?_ (finishSteps_waiting config hs')
  cases remaining with
  | true => cases h; rfl
  | false =>
    obtain ⟨s'', hs'', h⟩ := bind_ok h
    have hbatch := processBatch_waiting calls hs''
    exact (drainIfFinished_waiting calls h).trans hbatch

variable {calls config s}

/-- **What a synchronous step that returns does**: the asynchronous step, with the prefills charged before the step is
finished. -/
theorem step_ok {i : StepInput F G T W} {t : EngineState F G T R W} (h : step calls config s i = .ok t) :
    ∃ s₁ it s₂, addRequests s i.arrivals = .ok s₁ ∧ scheduleIteration calls config s₁ i.schedule = .ok (it, s₂) ∧
      ((it.schedulerOutputs.isEmpty = true ∧ stepAsync calls config s i = .ok t) ∨
        (it.schedulerOutputs.isEmpty = false ∧ ∃ s₃ s₄, s₃.waiting = s₂.waiting ∧
          chargePrefills s₃ it i.outputs = .ok s₄ ∧ finishIteration calls config s₄ it i.outputs = .ok t ∧
          stepAsync calls config s i = finishIteration calls config s₃ it i.outputs)) := by
  unfold step at h
  unfold stepAsync
  obtain ⟨s₁, h₁, h⟩ := bind_ok h
  split_ifs at h
  obtain ⟨⟨it, s₂⟩, h₂, h⟩ := bind_ok h
  refine ⟨s₁, it, s₂, h₁, h₂, ?_⟩
  rw [h₁, show ∀ f : EngineState F G T R W → Except PyError (EngineState F G T R W), (Except.ok s₁ >>= f) = f s₁
    from fun _ => rfl, h₂]
  cases hempty : it.schedulerOutputs.isEmpty with
  | true =>
    refine Or.inl ⟨rfl, Eq.trans ?_ h⟩
    show (if it.schedulerOutputs.isEmpty = true then _ else _) = (if it.schedulerOutputs.isEmpty = true then _ else _)
    rw [if_pos hempty, if_pos hempty]
  | false =>
    have hne : ¬ it.schedulerOutputs.isEmpty = true := by simp [hempty]
    replace h : (if it.schedulerOutputs.isEmpty = true then _ else _) = Except.ok t := h
    rw [if_neg hne] at h
    obtain ⟨s₃, h₃, h⟩ := bind_ok h
    obtain ⟨s₄, h₄, h⟩ := bind_ok h
    refine Or.inr ⟨rfl, s₃, s₄, executeModel_waiting calls h₃, h₄, h, ?_⟩
    show (if it.schedulerOutputs.isEmpty = true then _ else _) = _
    rw [if_neg hne, h₃]
    rfl

/-! ## Runs of both -/

variable (calls config)

/-- The step charges no figures but balanced ones. -/
def BalancedStep (s : EngineState F G T R W) (i : StepInput F G T W) : Prop :=
  ∀ s₁ it s₂ o prefillServed, addRequests s i.arrivals = .ok s₁ →
    scheduleIteration calls config s₁ i.schedule = .ok (it, s₂) → it.schedulerOutputs.isEmpty = false →
    0 < it.schedulerOutputs.numPrefillGroups → i.outputs.head? = some o → o.prefillServed = some prefillServed →
    s₂.waiting.Balanced prefillServed o.credits

/-- Both engines take a step. -/
def stepBoth (p : EngineState F G T R W × EngineState F G T R W) (i : StepInput F G T W) :
    Except PyError (EngineState F G T R W × EngineState F G T R W) := do
  let s ← step calls config p.1 i
  let t ← stepAsync calls config p.2 i
  .ok (s, t)

omit [Field F] [HasClientId G] in
/-- The two scoreboards are equal, and so is the request `popleft` selects. -/
structure SameBoards (p : EngineState F G T R W × EngineState F G T R W) : Prop where
  served : p.1.waiting.served = p.2.waiting.served
  credits : p.1.waiting.credits = p.2.waiting.credits
  next : p.1.waiting.popleft.map (·.1) = p.2.waiting.popleft.map (·.1)

omit [Field F] [HasClientId G] in
theorem sameBoards_of_board {p : EngineState F G T R W × EngineState F G T R W} (h : board p.1 = board p.2) :
    SameBoards p := by
  have hq : p.1.waiting.board = p.2.waiting.board := congrArg EngineState.waiting h
  refine ⟨(CPIReqQueue.boards_eq hq).1, (CPIReqQueue.boards_eq hq).2, ?_⟩
  have hnext : ∀ q : CPIReqQueue F G, q.popleft.map (·.1) = q.board.popleft.map (·.1) := by
    intro q
    rw [CPIReqQueue.popleft_board]
    cases q.popleft <;> rfl
  rw [hnext, hnext p.2.waiting, hq]

variable {calls config}

omit [HasClientId G] in
/-- Charging keeps the state but for the waiting queue. -/
theorem chargePrefills_ok {s₃ s₄ : EngineState F G T R W} {it : Iteration G} {outputs : List (SamplerOutput F T)}
    (h : chargePrefills s₃ it outputs = .ok s₄) :
    s₄ = s₃ ∧ (∀ o prefillServed, 0 < it.schedulerOutputs.numPrefillGroups → outputs.head? = some o →
      o.prefillServed ≠ some prefillServed) ∨
    ∃ o prefillServed, 0 < it.schedulerOutputs.numPrefillGroups ∧ outputs.head? = some o ∧
      o.prefillServed = some prefillServed ∧
      s₄ = { s₃ with waiting := s₃.waiting.updatePrefillServed prefillServed o.credits } := by
  unfold chargePrefills at h
  split_ifs at h with hgroups
  · cases outputs with
    | nil => cases h
    | cons o os =>
      cases hp : o.prefillServed with
      | none =>
        simp only [hp] at h
        cases h
        exact Or.inl ⟨rfl, fun o' p _ ho' => by cases ho'; simp [hp]⟩
      | some p =>
        simp only [hp] at h
        cases h
        exact Or.inr ⟨o, p, hgroups, rfl, hp, rfl⟩
  · cases h
    exact Or.inl ⟨rfl, fun _ _ hpos => absurd hpos hgroups⟩

variable [IsStrictOrderedRing F]

/-- **One step of both engines**: the scoreboards stay equal exactly when the step charges balanced figures only. -/
theorem stepBoth_sameBoards_iff {p p' : EngineState F G T R W × EngineState F G T R W} {i : StepInput F G T W}
    (hp : board p.1 = board p.2) (h : stepBoth calls config p i = .ok p') :
    (BalancedStep calls config p.1 i ↔ SameBoards p') ∧
      (BalancedStep calls config p.1 i → board p'.1 = board p'.2) := by
  obtain ⟨s', hs', h⟩ := bind_ok h
  obtain ⟨t', ht', h⟩ := bind_ok h
  cases h
  obtain ⟨u, hu, hboard⟩ : ∃ u, stepAsync calls config p.1 i = .ok u ∧ board u = board t' := by
    refine map_ok ?_
    rw [← stepAsync_board, hp, stepAsync_board, ht']
    rfl
  obtain ⟨s₁, it, s₂, h₁, h₂, hcase⟩ := step_ok hs'
  rcases hcase with ⟨hempty, hsame⟩ | ⟨hne, s₃, s₄, hwait, hcharge, hfinish, hasync⟩
  · obtain rfl : s' = u := Except.ok.inj (hsame.symm.trans hu)
    have hbal : BalancedStep calls config p.1 i := by
      intro s₁' it' s₂' o ps h₁' h₂' hne'
      rw [h₁] at h₁'; cases h₁'
      rw [h₂] at h₂'; cases h₂'
      rw [hempty] at hne'; cases hne'
    exact ⟨⟨fun _ => sameBoards_of_board hboard, fun _ => hbal⟩, fun _ => hboard⟩
  · rw [hasync] at hu
    have hbal : BalancedStep calls config p.1 i ↔
        (s₄.waiting.served = s₃.waiting.served ∧ s₄.waiting.credits = s₃.waiting.credits) := by
      rcases chargePrefills_ok hcharge with ⟨rfl, hnone⟩ | ⟨o, ps, hpos, ho, hps, rfl⟩
      · refine ⟨fun _ => ⟨rfl, rfl⟩, fun _ => ?_⟩
        intro s₁' it' s₂' o ps h₁' h₂' _ hpos ho hps
        rw [h₁] at h₁'; cases h₁'
        rw [h₂] at h₂'; cases h₂'
        exact absurd hps (hnone o ps hpos ho)
      · rw [CPIReqQueue.updatePrefillServed_eq_iff, hwait]
        constructor
        · intro hb
          exact hb s₁ it s₂ o ps h₁ h₂ hne hpos ho hps
        · intro hb s₁' it' s₂' o' ps' h₁' h₂' _ _ ho' hps'
          rw [h₁] at h₁'; cases h₁'
          rw [h₂] at h₂'; cases h₂'
          rw [ho] at ho'; cases ho'
          rw [hps] at hps'; cases hps'
          exact hb
    have hkeep : BalancedStep calls config p.1 i → board s' = board t' := by
      intro hb
      have h₃₄ : board s₄ = board s₃ := by
        have hboards := hbal.mp hb
        rcases chargePrefills_ok hcharge with ⟨rfl, -⟩ | ⟨o, ps, -, -, -, rfl⟩
        · rfl
        · have hserved : (s₃.waiting.updatePrefillServed ps o.credits).served = s₃.waiting.served := hboards.1
          have hcredits : (s₃.waiting.updatePrefillServed ps o.credits).credits = s₃.waiting.credits := hboards.2
          refine congrArg (fun q => { s₃ with waiting := q }) ?_
          rw [CPIReqQueue.board_updatePrefillServed, hserved, hcredits]
          rfl
      have hmap := congrArg (Except.map board) hu
      rw [← finishIteration_board, ← h₃₄, finishIteration_board, hfinish] at hmap
      exact (Except.ok.inj hmap).trans hboard
    refine ⟨⟨fun hb => sameBoards_of_board (hkeep hb), fun hsame => hbal.mpr ?_⟩, hkeep⟩
    have hq : u.waiting.board = t'.waiting.board := congrArg EngineState.waiting hboard
    obtain ⟨hserved, hcredits⟩ := CPIReqQueue.boards_eq hq
    rw [← finishIteration_waiting calls config hfinish, ← finishIteration_waiting calls config hu, hserved, hcredits]
    exact ⟨hsame.served, hsame.credits⟩

/-- An engine that drops what waits for post-processing and runs nothing else. -/
def quietCalls : EngineCalls ℚ ClientId Unit Unit Unit where
  processModelOutputs ctx w := .ok ({ ctx with outputQueue := ctx.outputQueue.tail }, w)
  getAndResetFinishedRequestsIds := id
  advanceToNextStep _ _ _ w := .ok w
  hasRunningOrSwapped _ := false

/-- An engine with an empty queue. -/
def idleEngine : EngineState ℚ ClientId Unit Unit Unit :=
  { waiting := .new ℚ ClientId, cachedSchedulerOutputs := {}, ctx := ⟨[], []⟩, rest := () }

/-- Two requests of client 1 and one of client 2 arrive; the first is prefilled, and the workers return `figures`. -/
def prefillStep (figures : Option (Dict ClientId (ℚ × ℚ))) : StepInput ℚ ClientId Unit Unit :=
  { arrivals := [1, 1, 2]
    schedule := ⟨[.popleft], id, [⟨1, 0⟩], ⟨[1], 1, [], [], [], 0⟩, false⟩
    outputs := [⟨(), figures, none⟩]
    callbacks := 0 }

end LLMEngine

end FairCache
