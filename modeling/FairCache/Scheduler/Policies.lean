import FairCache.Lib.Run
import FairCache.Scheduler.Loops
import Mathlib.Data.String.Basic

/-!
# The two scheduling policies

* `SchedulerState` : the queues and the block manager; `SchedulingOutputs` : what a step schedules;
* `scheduleDefault` : `_schedule_default` with the policy `fcfs`, where prompts come before decodes;
* `scheduleChunkedPrefill` : `_schedule_chunked_prefill`, where prompts are processed in chunks beside the decodes.
-/

namespace FairCache

open Lib

/-- What the scheduler keeps between two steps. -/
structure SchedulerState (T F B : Type) where
  waiting : WaitingQueue F (SequenceGroup T)
  running : List (SequenceGroup T)
  swapped : List (SequenceGroup T)
  asyncStopped : List (SequenceGroup T)
  blocks : B
  finishedRequestsIds : List String

/-- `SchedulerOutputs`, with the fields that only the engine's statistics and its answers read. -/
structure SchedulingOutputs (T : Type) extends SchedulerOutputs (ScheduledSequenceGroup T) where
  numBatchedTokens : ℤ
  ignoredSeqGroups : List (SequenceGroup T)
  runningQueueSize : ℕ
  preempted : ℕ

/-- What the model runner reads of a scheduled group (`SequenceGroupMetadata`); the sequence is found by its id. -/
structure ScheduledMetadata where
  requestId : String
  seqId : ℕ
  isPrompt : Bool
  tokenChunkSize : ℤ
  doSample : Bool

/-- `_sort_by_lora_ids`. -/
def sortByLoraIds {T : Type} (l : List (ScheduledSequenceGroup T)) : List (ScheduledSequenceGroup T) :=
  let key : ScheduledSequenceGroup T → ℕ ×ₗ String := fun g => toLex (g.seqGroup.loraIntId, g.seqGroup.requestId)
  l.insertionSort fun g g' => key g ≤ key g'

/-- `__post_init__` : blocks are not moved both ways, and with LoRAs the groups are sorted by them. -/
def SchedulingOutputs.postInit {T : Type} (out : SchedulingOutputs T) : Except PyError (SchedulingOutputs T) :=
  if out.blocksToSwapIn ≠ [] ∧ out.blocksToSwapOut ≠ [] then .error (.assertionError "")
  else if ∃ g ∈ out.scheduledSeqGroups, 0 < g.seqGroup.loraIntId then
    .ok { out with scheduledSeqGroups := sortByLoraIds out.scheduledSeqGroups }
  else .ok out

/-- The metadata of a scheduled group: nothing is sampled before the last chunk of a prompt. -/
def ScheduledSequenceGroup.metadata {T : Type} (s : ScheduledSequenceGroup T) : ScheduledMetadata :=
  { requestId := s.seqGroup.requestId, seqId := s.seqGroup.seqId, isPrompt := s.seqGroup.stage = .prefill
    tokenChunkSize := s.tokenChunkSize
    doSample := ¬ (s.seqGroup.stage = .prefill ∧ s.tokenChunkSize + s.seqGroup.numComputedTokens < s.seqGroup.getLen) }

namespace Scheduler

variable {T F B : Type} (config : SchedulerConfig) (bm : BlockSpaceManager B)

/-! ## What is scheduled without a loop -/

/-- `SchedulerRunningOutputs.create_empty`, with the running queue as it is. -/
def noRunning (running asyncStopped : List (SequenceGroup T)) (blocks : B) (budget : SchedulingBudget)
    (currLoras : Option (Finset ℕ)) : RunningLoop T B :=
  { running := running, blocks := blocks, blocksToSwapOut := [], blocksToCopy := [], budget := budget
    currLoras := currLoras, decodeSeqGroups := [], prefillSeqGroups := [], preempted := [], swappedOut := []
    finished := [], asyncStopped := asyncStopped }

/-- `SchedulerSwappedInOutputs.create_empty`. -/
def noSwapped (swapped : List (SequenceGroup T)) (blocks : B) (budget : SchedulingBudget)
    (currLoras : Option (Finset ℕ)) : SwappedLoop T B :=
  { swapped := swapped, leftover := [], blocks := blocks, blocksToSwapIn := [], blocksToCopy := [], budget := budget
    currLoras := currLoras, decodeSeqGroups := [], prefillSeqGroups := [], infeasible := [] }

/-- `SchedulerPrefillOutputs.create_empty`. -/
def noPrefills (waiting : WaitingQueue F (SequenceGroup T)) (blocks : B) (budget : SchedulingBudget)
    (currLoras : Option (Finset ℕ)) : PrefillLoop T F B :=
  { waiting := waiting, leftover := [], blocks := blocks, budget := budget, currLoras := currLoras, seqGroups := []
    ignored := [] }

/-- If any sequence group is preempted, none is swapped in. -/
def swapInAfter (r : RunningLoop T B) (swapped : List (SequenceGroup T)) : Except PyError (SwappedLoop T B) :=
  if r.preempted = [] ∧ r.swappedOut = [] then scheduleSwapped config bm false swapped r.blocks r.budget r.currLoras
  else .ok (noSwapped swapped r.blocks r.budget r.currLoras)

/-- The assertions about the budget. -/
def checkBudget (budget : SchedulingBudget) : Except PyError Unit :=
  if config.maxNumBatchedTokens < budget.numBatchedTokens ∨ config.maxNumSeqs < budget.numCurrSeqs then
    .error (.assertionError "")
  else .ok ()

/-- The queues afterwards; `scheduled` : what joins the running queue. -/
def updateQueues (s : SchedulerState T F B) (r : RunningLoop T B) (w : SwappedLoop T B)
    (waiting : WaitingQueue F (SequenceGroup T)) (scheduled : List (ScheduledSequenceGroup T)) (blocks : B) :
    SchedulerState T F B :=
  { waiting := waiting, running := r.running ++ scheduled.map ScheduledSequenceGroup.seqGroup
    swapped := w.swapped ++ r.swappedOut, asyncStopped := r.asyncStopped, blocks := blocks
    finishedRequestsIds := s.finishedRequestsIds ++ r.finished.map SequenceGroup.requestId }

/-- What the step returns. -/
def outputs (p : PrefillLoop T F B) (r : RunningLoop T B) (w : SwappedLoop T B)
    (scheduled : List (ScheduledSequenceGroup T)) (budget : SchedulingBudget) (s' : SchedulerState T F B) :
    SchedulingOutputs T :=
  { scheduledSeqGroups := scheduled
    numPrefillGroups := p.seqGroups.length + w.prefillSeqGroups.length + r.prefillSeqGroups.length
    numBatchedTokens := budget.numBatchedTokens, blocksToSwapIn := w.blocksToSwapIn
    blocksToSwapOut := r.blocksToSwapOut, blocksToCopy := r.blocksToCopy ++ w.blocksToCopy, numLookaheadSlots := 0
    ignoredSeqGroups := p.ignored ++ w.infeasible, runningQueueSize := s'.running.length
    preempted := r.preempted.length + r.swappedOut.length }

/-! ## The default policy -/

/-- The budget with the running sequences. -/
def runningBudget (running : List (SequenceGroup T)) : SchedulingBudget :=
  running.foldl (fun b g => b.addNumSeqs g.requestId 1) (SchedulingBudget.new config)

/-- The LoRAs of the running groups, where LoRA is enabled. -/
def runningLoras (running : List (SequenceGroup T)) : Option (Finset ℕ) :=
  config.maxLoras.map fun _ => ((running.map SequenceGroup.loraIntId).filter (0 < ·)).toFinset

/-- The prompts, where no group is swapped. -/
def schedulePrompts [LinearOrder F] (passedDelay : ℕ → Bool) (s : SchedulerState T F B) :
    Except PyError (PrefillLoop T F B) :=
  let budget := runningBudget config s.running
  let currLoras := runningLoras config s.running
  if s.swapped = [] then schedulePrefills config bm passedDelay false s.waiting s.blocks budget currLoras
  else .ok (noPrefills s.waiting s.blocks budget currLoras)

/-- The running and the swapped groups, where no prompt is scheduled. -/
def scheduleDecodes (finishes : SequenceGroup T → Bool) (s : SchedulerState T F B) (p : PrefillLoop T F B) :
    Except PyError (RunningLoop T B × SwappedLoop T B) :=
  if p.seqGroups = [] then do
    let r ← scheduleRunning config bm finishes false s.running s.asyncStopped p.blocks p.budget p.currLoras
    let w ← swapInAfter config bm r s.swapped
    .ok (r, w)
  else
    .ok (noRunning s.running s.asyncStopped p.blocks p.budget p.currLoras,
      noSwapped s.swapped p.blocks p.budget p.currLoras)

/-- There is no prefill from the other queues, because the policy does not allow chunks. -/
def checkNoChunks (r : RunningLoop T B) (w : SwappedLoop T B) : Except PyError Unit :=
  if r.prefillSeqGroups ≠ [] ∨ w.prefillSeqGroups ≠ [] then .error (.assertionError "") else .ok ()

variable [Field F]

/-- Each decode is charged to its client, where no prompt is scheduled. -/
def chargeDecodes (p : PrefillLoop T F B) (scheduled : List (ScheduledSequenceGroup T))
    (waiting : WaitingQueue F (SequenceGroup T)) : Except PyError (WaitingQueue F (SequenceGroup T)) :=
  if p.seqGroups = [] then scheduled.foldlM (fun waiting g => waiting.chargeDecode (clientId g.seqGroup)) waiting
  else .ok waiting

variable [LinearOrder F]

/-- `_schedule_default` : prompts, and only without these the running groups and then the swapped ones. -/
def scheduleDefault (passedDelay : ℕ → Bool) (finishes : SequenceGroup T → Bool) (s : SchedulerState T F B) :
    Except PyError (SchedulerState T F B × SchedulingOutputs T) := do
  let p ← schedulePrompts config bm passedDelay s
  let (r, w) ← scheduleDecodes config bm finishes s p
  checkBudget config w.budget
  let waiting ← p.waiting.extendleft r.preempted
  checkNoChunks r w
  let scheduled := p.seqGroups ++ r.decodeSeqGroups ++ w.decodeSeqGroups
  let waiting ← chargeDecodes p scheduled waiting
  let s' := updateQueues s r w waiting scheduled w.blocks
  let out ← (outputs p r w scheduled w.budget s').postInit
  .ok (s', out)

/-! ## Chunked prefills -/

omit [Field F] in
/-- `_schedule_chunked_prefill` : the running groups, then the swapped ones, then a prompt. -/
def scheduleChunkedPrefill (passedDelay : ℕ → Bool) (finishes : SequenceGroup T → Bool) (s : SchedulerState T F B) :
    Except PyError (SchedulerState T F B × SchedulingOutputs T) := do
  let r ← scheduleRunning config bm finishes true s.running s.asyncStopped s.blocks (SchedulingBudget.new config) (some ∅)
  let w ← swapInAfter config bm r s.swapped
  let p ← schedulePrefills config bm passedDelay true s.waiting w.blocks w.budget w.currLoras
  checkBudget config p.budget
  let waiting ← p.waiting.extendleft r.preempted
  let joined := w.decodeSeqGroups ++ w.prefillSeqGroups ++ r.decodeSeqGroups ++ r.prefillSeqGroups ++ p.seqGroups
  let scheduled := p.seqGroups ++ r.prefillSeqGroups ++ w.prefillSeqGroups ++ r.decodeSeqGroups ++ w.decodeSeqGroups
  let s' := updateQueues s r w waiting joined p.blocks
  let out ← (outputs p r w scheduled p.budget s').postInit
  .ok (s', out)

/-- `_schedule`. -/
def schedule (passedDelay : ℕ → Bool) (finishes : SequenceGroup T → Bool) (s : SchedulerState T F B) :
    Except PyError (SchedulerState T F B × SchedulingOutputs T) :=
  if config.chunkedPrefillEnabled then scheduleChunkedPrefill config bm passedDelay finishes s
  else scheduleDefault config bm passedDelay finishes s

end Scheduler

end FairCache
