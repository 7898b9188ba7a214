import FairCache.Scheduler.Policies

/-!
# Runs of the engine

What happens to the groups between two steps of the scheduler, and the runs of all of it.

* `abortSeqGroup`, `advance`, `freeFinishedSeqGroups` : requests are aborted, the scheduled groups get their tokens, and
  those that finished leave;
* `EngineRun`, `EngineOp`, `step` : the scheduler with the batch that the model executes, and what a run does to it.
-/

namespace FairCache

open Lib

namespace Scheduler

variable {T F B : Type} (config : SchedulerConfig) (bm : BlockSpaceManager B)

/-- `free_seq` of the sequences of some groups. -/
def freeGroups (gs : List (SequenceGroup T)) (blocks : B) : Except PyError B :=
  gs.foldlM (fun b g => bm.free b (g.seqBlocks config.blockSize)) blocks

/-- The groups of a queue that are aborted, one for each id, and the ids that are left. -/
def abortedOf : Finset String → List (SequenceGroup T) → List (SequenceGroup T) × Finset String
  | ids, [] => ([], ids)
  | ids, g :: queue =>
    if g.requestId ∈ ids then
      let r := abortedOf (ids.erase g.requestId) queue
      (g :: r.1, r.2)
    else abortedOf ids queue

/-- `abort_seq_group`, queue after queue. -/
def abortSeqGroup [DecidableEq T] (ids : Finset String) (s : SchedulerState T F B) :
    Except PyError (SchedulerState T F B) := do
  let w := abortedOf ids s.waiting.iter
  let r := abortedOf w.2 s.running
  let a := abortedOf r.2 s.swapped
  let aborted := w.1 ++ r.1 ++ a.1
  let waiting ← w.1.foldlM (fun q g => WaitingQueue.remove g q) s.waiting
  let blocks ← freeGroups config bm aborted s.blocks
  .ok
    { s with
      waiting := waiting
      running := r.1.foldl List.erase s.running
      swapped := a.1.foldl List.erase s.swapped
      blocks := blocks
      finishedRequestsIds := s.finishedRequestsIds ++ aborted.map SequenceGroup.requestId }

/-- What the model's output does to a group: the chunk is computed, and a sampled token is appended. -/
def advanceGroup (batch : List ScheduledMetadata) (sampled : ℕ → T) (g : SequenceGroup T) :
    Except PyError (SequenceGroup T) :=
  match batch.find? (·.seqId = g.seqId) with
  | none => .ok g
  | some m => do
    let g ← g.updateNumComputedTokens m.tokenChunkSize
    .ok (if m.doSample then g.appendTokenId (sampled g.seqId) else g)

/-- The scheduled groups that still run. -/
def advance (batch : List ScheduledMetadata) (sampled : ℕ → T) (s : SchedulerState T F B) :
    Except PyError (SchedulerState T F B) :=
  (s.running.mapM (advanceGroup batch sampled)).map fun running => { s with running := running }

/-- `free_finished_seq_groups` : the stopped groups leave, finished or not. -/
def freeFinishedSeqGroups (finished : SequenceGroup T → Bool) (s : SchedulerState T F B) :
    Except PyError (SchedulerState T F B) :=
  (freeGroups config bm (s.running.filter finished ++ s.asyncStopped.filter finished) s.blocks).map fun b =>
    { s with
      running := s.running.filter fun g => !finished g
      asyncStopped := []
      blocks := b
      finishedRequestsIds :=
        s.finishedRequestsIds ++ (s.running.filter finished ++ s.asyncStopped).map SequenceGroup.requestId }

end Scheduler

/-- A run: the scheduler, the batch that the model executes, the ids that were reported to it as finished, and the groups
that were ignored. -/
structure EngineRun (T F B : Type) where
  scheduler : SchedulerState T F B
  batch : List ScheduledMetadata
  reported : List String
  ignored : List (SequenceGroup T)

/-- What happens in a run. `finishes` and `finished` : the groups that their pending outputs finish. -/
inductive EngineOp (T F : Type)
  | addRequest (r : NewRequest T)
  | abortRequest (ids : Finset String)
  | schedule (passedDelay : ℕ → Bool) (finishes : SequenceGroup T → Bool)
  | reportFinished
  | updatePrefillServed (prefillServed : Dict ClientId (F × F)) (credits : Option (Dict ClientId F))
  | advance (sampled : ℕ → T)
  | freeFinished (finished : SequenceGroup T → Bool)

namespace EngineRun

variable {T F B : Type} [Field F] [LinearOrder F] (config : SchedulerConfig) (bm : BlockSpaceManager B)

/-- Nothing was requested. `fairComputationEnabled` : the queue is a `CPIReqQueue`. -/
def new (T F : Type) {B : Type} [Field F] (fairComputationEnabled : Bool) (blocks : B) : EngineRun T F B :=
  let waiting : FairReqQueue F (SequenceGroup T) :=
    if fairComputationEnabled then .cpi (CPIReqQueue.new F _) else .req (ReqQueue.new _ 0 (1 / (10 : ℕ)) (1 / (5 : ℕ)))
  { scheduler :=
      { waiting := .fair waiting, running := [], swapped := [], asyncStopped := [], blocks := blocks
        finishedRequestsIds := [] }
    batch := [], reported := [], ignored := [] }

def step [DecidableEq T] (e : EngineRun T F B) : EngineOp T F → Except PyError (EngineRun T F B)
  | .addRequest r =>
    (e.scheduler.waiting.append (SequenceGroup.new r)).map fun w =>
      { e with scheduler := { e.scheduler with waiting := w } }
  | .abortRequest ids => (Scheduler.abortSeqGroup config bm ids e.scheduler).map fun s => { e with scheduler := s }
  | .schedule passedDelay finishes =>
    (Scheduler.schedule config bm passedDelay finishes e.scheduler).map fun r =>
      { e with
        scheduler := r.1
        batch := r.2.scheduledSeqGroups.map ScheduledSequenceGroup.metadata
        ignored := e.ignored ++ r.2.ignoredSeqGroups }
  | .reportFinished =>
    .ok
      { e with
        reported := e.reported ++ e.scheduler.finishedRequestsIds
        scheduler := { e.scheduler with finishedRequestsIds := [] } }
  | .updatePrefillServed p credits =>
    (e.scheduler.waiting.updatePrefillServed p credits).map fun w =>
      { e with scheduler := { e.scheduler with waiting := w } }
  | .advance sampled =>
    (Scheduler.advance e.batch sampled e.scheduler).map fun s => { e with scheduler := s, batch := [] }
  | .freeFinished finished =>
    (Scheduler.freeFinishedSeqGroups config bm finished e.scheduler).map fun s => { e with scheduler := s }

end EngineRun

end FairCache
