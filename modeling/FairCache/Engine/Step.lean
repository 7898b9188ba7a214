import FairCache.Queue.CPIReqQueue

/-!
# The engine steps

`LLMEngine.step` and its asynchronous variant `_AsyncLLMEngine.step_async`, for the virtual engine 0.

* `StepInput` : what a step receives from the scheduler and from the workers;
* `EngineCalls` : what the steps call beside the waiting queue;
* `scheduleIteration`, `executeModel`, `drainOutput`, `finishIteration` : the parts the two steps have in common;
* `step`, `stepAsync` : the two steps. Only `step` charges the prefills.
-/

namespace FairCache

open Lib

/-- `remaining_steps` is read off the state of a group's metadata. -/
structure SequenceGroupMetadata where
  numSteps : ℕ
  currentStep : ℕ
  deriving DecidableEq

namespace SequenceGroupMetadata

def remainingSteps (m : SequenceGroupMetadata) : ℤ := (m.numSteps : ℤ) - m.currentStep

/-- `finish_step`. -/
def finishStep (m : SequenceGroupMetadata) : Except PyError SequenceGroupMetadata :=
  if m.currentStep < m.numSteps then .ok { m with currentStep := m.currentStep + 1 } else .error (.assertionError "")

end SequenceGroupMetadata

/-- The scheduling decision. -/
structure SchedulerOutputs (G : Type) where
  scheduledSeqGroups : List G
  numPrefillGroups : ℕ
  blocksToSwapIn : List (ℕ × ℕ)
  blocksToSwapOut : List (ℕ × ℕ)
  blocksToCopy : List (ℕ × ℕ)
  numLookaheadSlots : ℕ

/-- Nothing to execute. -/
def SchedulerOutputs.isEmpty {G : Type} (o : SchedulerOutputs G) : Bool :=
  o.scheduledSeqGroups.isEmpty && o.blocksToSwapIn.isEmpty && o.blocksToSwapOut.isEmpty && o.blocksToCopy.isEmpty

/-- What the workers return for one forward pass: tokens `T`, and the figures of the prefills. -/
structure SamplerOutput (F T : Type) where
  outputs : T
  prefillServed : Option (Dict ClientId (F × F))
  credits : Option (Dict ClientId F)

/-- The scheduler outputs cached between the passes of a multi-step batch. -/
structure SchedulerOutputState (G : Type) where
  seqGroupMetadataList : Option (List SequenceGroupMetadata) := none
  schedulerOutputs : Option (SchedulerOutputs G) := none
  allowAsyncOutputProc : Bool := false

/-- Results that wait for post-processing. -/
structure OutputData (F G T : Type) where
  outputs : List (SamplerOutput F T)
  seqGroupMetadataList : List SequenceGroupMetadata
  schedulerOutputs : SchedulerOutputs G
  isAsync : Bool
  isLastStep : Bool

/-- The context of the virtual engine; a step returns `requestOutputs`. -/
structure SchedulerContext (F G T R : Type) where
  outputQueue : List (OutputData F G T)
  requestOutputs : List R

/-- The engine: the waiting queue, the caches, and all the rest (`W`: sequences, blocks, running queues). -/
structure EngineState (F G T R W : Type) where
  waiting : CPIReqQueue F G
  cachedSchedulerOutputs : SchedulerOutputState G
  ctx : SchedulerContext F G T R
  rest : W

/-- The configuration the steps read. -/
structure EngineConfig where
  isMultiStep : Bool
  pipelineParallelSize : ℕ

/-- What the steps call beside the waiting queue. -/
structure EngineCalls (F G T R W : Type) where
  processModelOutputs : SchedulerContext F G T R → W → Except PyError (SchedulerContext F G T R × W)
  getAndResetFinishedRequestsIds : W → W
  advanceToNextStep : SamplerOutput F T → List SequenceGroupMetadata → List G → W → Except PyError W
  hasRunningOrSwapped : W → Bool

/-- What a scheduler call does to the waiting queue. -/
inductive QueueOp (G : Type)
  | popleft
  | appendleft (seqGroup : G)
  | chargeDecode (client : ClientId)

/-- A scheduler call: its effects and what it returns. -/
structure ScheduleCall (G W : Type) where
  queueOps : List (QueueOp G)
  rest : W → W
  seqGroupMetadataList : List SequenceGroupMetadata
  schedulerOutputs : SchedulerOutputs G
  allowAsyncOutputProc : Bool

/-- What a step receives: the requests that arrived since the last one, the scheduler call if it makes one, the outputs
of the workers and how often these ran the asynchronous callback. -/
structure StepInput (F G T W : Type) where
  arrivals : List G
  schedule : ScheduleCall G W
  outputs : List (SamplerOutput F T)
  callbacks : ℕ

namespace CPIReqQueue

variable {F G : Type} [Field F] [LinearOrder F] [HasClientId G]

/-- `served[client] += decode_weight`. -/
def chargeDecode (q : CPIReqQueue F G) (client : ClientId) : Except PyError (CPIReqQueue F G) :=
  match q.served.lookup client with
  | none => .error .keyError
  | some v => .ok { q with served := q.served.set client (v + q.decodeWeight) }

def runQueueOp (q : CPIReqQueue F G) : QueueOp G → Except PyError (CPIReqQueue F G)
  | .popleft => q.popleft.map (·.2)
  | .appendleft seqGroup => q.appendleft seqGroup
  | .chargeDecode client => q.chargeDecode client

end CPIReqQueue

namespace LLMEngine

variable {F G T R W : Type} [Field F] [LinearOrder F] [HasClientId G]
variable (calls : EngineCalls F G T R W) (config : EngineConfig)

/-- The local variables of a step once the scheduler ran. `cached` : the list is the one in the cache, so that finishing
a step of its groups shows there. -/
structure Iteration (G : Type) where
  seqGroupMetadataList : List SequenceGroupMetadata
  schedulerOutputs : SchedulerOutputs G
  allowAsyncOutputProc : Bool
  cached : Bool

/-- `_has_remaining_steps`. -/
def hasRemainingSteps : Option (List SequenceGroupMetadata) → Except PyError Bool
  | none => .ok false
  | some [] => .ok false
  | some (m :: ms) =>
    if config.isMultiStep = false then .ok false
    else if ms.any fun m' => m'.remainingSteps ≠ m.remainingSteps then
      .error (.assertionError "All running sequence groups should have the same remaining steps.")
    else .ok (0 < m.remainingSteps)

/-- `_process_model_outputs`. -/
def processModelOutputs (s : EngineState F G T R W) : Except PyError (EngineState F G T R W) :=
  (calls.processModelOutputs s.ctx s.rest).map fun r => { s with ctx := r.1, rest := r.2 }

/-- `if len(ctx.output_queue) > 0: _process_model_outputs(ctx)`. -/
def drainOutput (s : EngineState F G T R W) : Except PyError (EngineState F G T R W) :=
  if s.ctx.outputQueue.isEmpty then .ok s else processModelOutputs calls s

/-- Requests enter the waiting queue. -/
def addRequests (s : EngineState F G T R W) (arrivals : List G) : Except PyError (EngineState F G T R W) :=
  (arrivals.foldlM CPIReqQueue.append s.waiting).map fun q => { s with waiting := q }

/-- `scheduler.schedule()`. -/
def schedule (s : EngineState F G T R W) (call : ScheduleCall G W) : Except PyError (EngineState F G T R W) :=
  (call.queueOps.foldlM CPIReqQueue.runQueueOp s.waiting).map fun q => { s with waiting := q, rest := call.rest s.rest }

/-- `if not allow_async_output_proc` : switch from async to sync mode, with nothing left to process. -/
def switchToSync (s : EngineState F G T R W) (allowAsyncOutputProc : Bool) : Except PyError (EngineState F G T R W) :=
  if allowAsyncOutputProc then .ok s else drainOutput calls s

/-- `_cache_scheduler_outputs_for_multi_step`, where there are lookahead slots. -/
def cacheSchedulerOutputs (s : EngineState F G T R W) (it : Iteration G) : Iteration G × EngineState F G T R W :=
  if config.isMultiStep = true ∧ 0 < it.schedulerOutputs.numLookaheadSlots then
    ({ it with cached := true },
      { s with
        cachedSchedulerOutputs := ⟨some it.seqGroupMetadataList, some it.schedulerOutputs, it.allowAsyncOutputProc⟩ })
  else (it, s)

/-- The outputs in the cache. -/
def cachedIteration (s : EngineState F G T R W) : Except PyError (Iteration G × EngineState F G T R W) :=
  match s.cachedSchedulerOutputs with
  | ⟨some l, some o, allowAsync⟩ => .ok (⟨l, o, allowAsync, true⟩, s)
  | _ => .error (.assertionError "")

/-- Ask the scheduler for new ones. -/
def newIteration (s : EngineState F G T R W) (call : ScheduleCall G W) :
    Except PyError (Iteration G × EngineState F G T R W) := do
  let s ← schedule s call
  let s ← switchToSync calls s call.allowAsyncOutputProc
  .ok (cacheSchedulerOutputs config s
    ⟨call.seqGroupMetadataList, call.schedulerOutputs, call.allowAsyncOutputProc, false⟩)

/-- The step up to the point where it knows what to execute: the cached outputs while their steps last, else a
scheduler call. -/
def scheduleIteration (s : EngineState F G T R W) (call : ScheduleCall G W) :
    Except PyError (Iteration G × EngineState F G T R W) := do
  let s := { s with ctx := { s.ctx with requestOutputs := [] } }
  let remaining ← hasRemainingSteps config s.cachedSchedulerOutputs.seqGroupMetadataList
  if remaining then cachedIteration s else newIteration calls config s call

/-- The workers run, and with them the asynchronous callback. -/
def executeModel (s : EngineState F G T R W) (allowAsyncOutputProc : Bool) :
    ℕ → Except PyError (EngineState F G T R W)
  | 0 => .ok { s with rest := calls.getAndResetFinishedRequestsIds s.rest }
  | n + 1 => do
    let s ← executeModel s allowAsyncOutputProc n
    if allowAsyncOutputProc then processModelOutputs calls s else .ok s

/-- `seq_group.finish_step()` for every group; where the list is the cached one, it shows there. -/
def finishSteps (s : EngineState F G T R W) (it : Iteration G) :
    Except PyError (Iteration G × EngineState F G T R W) :=
  if config.isMultiStep then
    (it.seqGroupMetadataList.mapM SequenceGroupMetadata.finishStep).map fun l =>
      ({ it with seqGroupMetadataList := l },
        if it.cached then
          { s with cachedSchedulerOutputs := { s.cachedSchedulerOutputs with seqGroupMetadataList := some l } }
        else s)
  else .ok (it, s)

/-- The last pass of a batch clears the cache and queues the results. -/
def appendOutput (s : EngineState F G T R W) (it : Iteration G) (outputs : List (SamplerOutput F T)) :
    EngineState F G T R W :=
  let data := ⟨outputs, it.seqGroupMetadataList, it.schedulerOutputs, it.allowAsyncOutputProc, true⟩
  { s with
    cachedSchedulerOutputs := if config.isMultiStep then {} else s.cachedSchedulerOutputs
    ctx := { s.ctx with outputQueue := s.ctx.outputQueue ++ [data] } }

/-- The results are processed now, or later and the sequences advance. -/
def processBatch (s : EngineState F G T R W) (it : Iteration G) (outputs : List (SamplerOutput F T)) :
    Except PyError (EngineState F G T R W) :=
  if it.allowAsyncOutputProc then
    match outputs with
    | [] => .ok s
    | [o] =>
      (calls.advanceToNextStep o it.seqGroupMetadataList it.schedulerOutputs.scheduledSeqGroups s.rest).map
        fun w => { s with rest := w }
    | _ => .error (.assertionError "Async postprocessor expects only a single output set")
  else processModelOutputs calls s

/-- `assert len(ctx.output_queue) == 0`. -/
def assertDrained (s : EngineState F G T R W) : Except PyError (EngineState F G T R W) :=
  if s.ctx.outputQueue.isEmpty then .ok s else .error (.assertionError "")

/-- Without unfinished requests nothing may be left to process. -/
def drainIfFinished (s : EngineState F G T R W) : Except PyError (EngineState F G T R W) :=
  if s.waiting.isNonempty || calls.hasRunningOrSwapped s.rest then .ok s
  else drainOutput calls s >>= assertDrained

/-- The step from the workers' outputs on. -/
def finishIteration (s : EngineState F G T R W) (it : Iteration G) (outputs : List (SamplerOutput F T)) :
    Except PyError (EngineState F G T R W) := do
  let (it, s) ← finishSteps config s it
  let remaining ← hasRemainingSteps config (some it.seqGroupMetadataList)
  if remaining then .ok s
  else processBatch calls (appendOutput config s it outputs) it outputs >>= drainIfFinished calls

/-- `update_prefill_served` with the figures of the first output, if prefills ran and there are any. -/
def chargePrefills (s : EngineState F G T R W) (it : Iteration G) (outputs : List (SamplerOutput F T)) :
    Except PyError (EngineState F G T R W) :=
  if 0 < it.schedulerOutputs.numPrefillGroups then
    match outputs with
    | [] => .error .indexError
    | o :: _ =>
      match o.prefillServed with
      | none => .ok s
      | some prefillServed => .ok { s with waiting := s.waiting.updatePrefillServed prefillServed o.credits }
  else .ok s

/-- `LLMEngine.step`. -/
def step (s : EngineState F G T R W) (i : StepInput F G T W) : Except PyError (EngineState F G T R W) := do
  let s ← addRequests s i.arrivals
  if 1 < config.pipelineParallelSize then
    .error (.notImplementedError ("Pipeline parallelism is only supported through AsyncLLMEngine " ++
      "as performance will be severely degraded otherwise."))
  else
    let (it, s) ← scheduleIteration calls config s i.schedule
    if it.schedulerOutputs.isEmpty then
      let s ← drainOutput calls s
      finishIteration calls config s it []
    else
      let s ← executeModel calls s it.allowAsyncOutputProc i.callbacks
      let s ← chargePrefills s it i.outputs
      finishIteration calls config s it i.outputs

/-- `_AsyncLLMEngine.step_async`. -/
def stepAsync (s : EngineState F G T R W) (i : StepInput F G T W) : Except PyError (EngineState F G T R W) := do
  let s ← addRequests s i.arrivals
  let (it, s) ← scheduleIteration calls config s i.schedule
  if it.schedulerOutputs.isEmpty then
    let s ← drainOutput calls s
    finishIteration calls config s it []
  else
    let s ← executeModel calls s it.allowAsyncOutputProc i.callbacks
    finishIteration calls config s it i.outputs

end LLMEngine

end FairCache
