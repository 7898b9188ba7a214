import FairCache.Scheduler.Groups
import FairCache.Scheduler.Waiting
import Mathlib.Data.Finset.Card

/-!
# The three loops of the scheduler

* `scheduleRunning` : `_schedule_running`, which preempts from the end of the running queue to make room;
* `scheduleSwapped` : `_schedule_swapped`;
* `schedulePrefills` : `_schedule_prefills`, which schedules one prompt a call.
-/

namespace FairCache

open Lib

namespace Scheduler

variable {T F B : Type} (config : SchedulerConfig) (bm : BlockSpaceManager B)

/-! ## LoRAs -/

/-- The LoRA of the group does not fit beside the current ones. -/
def loraBlocked (currLoras : Option (Finset ℕ)) (g : SequenceGroup T) : Bool :=
  match config.maxLoras, currLoras with
  | some maxLoras, some loras => decide (0 < g.loraIntId ∧ g.loraIntId ∉ loras ∧ maxLoras ≤ loras.card)
  | _, _ => false

/-- `curr_loras.add`. -/
def addLora (currLoras : Option (Finset ℕ)) (g : SequenceGroup T) : Option (Finset ℕ) :=
  if 0 < g.loraIntId then currLoras.map (insert g.loraIntId) else currLoras

/-- The same where LoRA is enabled. -/
def addEnabledLora (currLoras : Option (Finset ℕ)) (g : SequenceGroup T) : Option (Finset ℕ) :=
  if config.maxLoras.isSome then addLora currLoras g else currLoras

/-- `curr_loras.remove`. -/
def removeLora (currLoras : Option (Finset ℕ)) (g : SequenceGroup T) : Option (Finset ℕ) :=
  if 0 < g.loraIntId then currLoras.map (·.erase g.loraIntId) else currLoras

/-! ## Running groups -/

/-- The variables of `_schedule_running`. `running` : the running queue; `finished` : the victims that turned out to be
finished. -/
structure RunningLoop (T B : Type) where
  running : List (SequenceGroup T)
  blocks : B
  blocksToSwapOut : BlockPairs
  blocksToCopy : BlockPairs
  budget : SchedulingBudget
  currLoras : Option (Finset ℕ)
  decodeSeqGroups : List (ScheduledSequenceGroup T)
  prefillSeqGroups : List (ScheduledSequenceGroup T)
  preempted : List (SequenceGroup T)
  swappedOut : List (SequenceGroup T)
  finished : List (SequenceGroup T)
  asyncStopped : List (SequenceGroup T)

/-- What a swap without room on the CPU raises. -/
def noSwapSpace : PyError :=
  .runtimeError ("Aborted due to the lack of CPU swap space. Please increase " ++ "the swap space to avoid this error.")

/-- Preempt a group. With asynchronous output processing its pending output is processed before, and a group that this
finishes (`finishes`) is freed instead. One sequence is recomputed unless the configuration says to swap. -/
def preemptVictim (finishes : SequenceGroup T → Bool) (victim : SequenceGroup T) (s : RunningLoop T B) :
    Except PyError (RunningLoop T B) :=
  let q := victim.seqBlocks config.blockSize
  if config.useAsyncOutputProc && finishes victim then
    (bm.free s.blocks q).map fun b => { s with blocks := b, finished := s.finished ++ [victim] }
  else if config.preemptionMode = some "swap" then do
    let can ← bm.canSwapOut s.blocks q
    if can then
      (bm.swapOut s.blocks q).map fun r =>
        { s with
          blocks := r.2
          blocksToSwapOut := s.blocksToSwapOut ++ r.1
          swappedOut := s.swappedOut ++ [victim] }
    else .error noSwapSpace
  else
    (bm.free s.blocks q).map fun b =>
      { s with blocks := b, preempted := s.preempted ++ [victim.resetStateForRecompute] }

/-- The budget and the LoRAs without a group. -/
def giveBack (g : SequenceGroup T) (numRunningTokens : ℤ) (s : RunningLoop T B) : RunningLoop T B :=
  { s with
    budget := (s.budget.subtractTokens g.requestId numRunningTokens).subtractNumSeqs g.requestId 1
    currLoras := removeLora s.currLoras g }

/-- `while not self._can_append_slots(seq_group)` : preempt from the end of the running queue, and at last the group itself.
The list is the running queue from its end on; the answer is whether there is room now. -/
def makeRoom (finishes : SequenceGroup T → Bool) (g : SequenceGroup T) (numRunningTokens : ℤ) :
    List (SequenceGroup T) → RunningLoop T B → Except PyError (Bool × RunningLoop T B)
  | [], s =>
    if bm.canAppendSlots s.blocks (g.seqBlocks config.blockSize) then .ok (true, { s with running := [] })
    else (preemptVictim config bm finishes g { giveBack g numRunningTokens s with running := [] }).map fun s => (false, s)
  | victim :: victims, s =>
    if bm.canAppendSlots s.blocks (g.seqBlocks config.blockSize) then
      .ok (true, { s with running := (victim :: victims).reverse })
    else do
      let s ← preemptVictim config bm finishes victim (giveBack g numRunningTokens s)
      makeRoom finishes g numRunningTokens victims s

/-- A running group is scheduled: a chunk of its prompt, or one token. -/
def scheduleGroup (enableChunking : Bool) (g : SequenceGroup T) (numRunningTokens : ℤ) (s : RunningLoop T B) :
    Except PyError (RunningLoop T B) :=
  let budget := s.budget.addNumBatchedTokens g.requestId numRunningTokens
  (bm.appendSlots s.blocks (g.seqBlocks config.blockSize)).map fun r =>
    { s with
      blocks := r.2
      blocksToCopy := s.blocksToCopy ++ r.1
      budget := if enableChunking then budget.addNumSeqs g.requestId 1 else budget
      currLoras := addLora s.currLoras g
      prefillSeqGroups :=
        if g.stage = .prefill then s.prefillSeqGroups ++ [⟨g, numRunningTokens⟩] else s.prefillSeqGroups
      decodeSeqGroups := if g.stage = .prefill then s.decodeSeqGroups else s.decodeSeqGroups ++ [⟨g, 1⟩] }

/-- The loop over the running queue; each turn takes a group from it. -/
def runningLoop (finishes : SequenceGroup T → Bool) (enableChunking : Bool) :
    ℕ → RunningLoop T B → Except PyError (RunningLoop T B)
  | 0, s => .ok s
  | turns + 1, s =>
    match s.running with
    | [] => .ok s
    | g :: rest => do
      let numRunningTokens ← getNumNewTokens config g enableChunking s.budget
      if numRunningTokens = 0 then .ok s
      else if config.useAsyncOutputProc && config.maxModelLen < g.getLen then
        runningLoop finishes enableChunking turns { s with running := rest, asyncStopped := s.asyncStopped ++ [g] }
      else do
        let (room, s) ← makeRoom config bm finishes g numRunningTokens rest.reverse s
        let s ← if room then scheduleGroup config bm enableChunking g numRunningTokens s else .ok s
        runningLoop finishes enableChunking turns s

/-- `_schedule_running` : afterwards all preempted groups are marked. -/
def scheduleRunning (finishes : SequenceGroup T → Bool) (enableChunking : Bool)
    (running asyncStopped : List (SequenceGroup T)) (blocks : B) (budget : SchedulingBudget)
    (currLoras : Option (Finset ℕ)) : Except PyError (RunningLoop T B) :=
  if asyncStopped ≠ [] then .error (.assertionError "")
  else
    (runningLoop config bm finishes enableChunking running.length
      { running := running, blocks := blocks, blocksToSwapOut := [], blocksToCopy := [], budget := budget
        currLoras := currLoras, decodeSeqGroups := [], prefillSeqGroups := [], preempted := [], swappedOut := []
        finished := [], asyncStopped := [] }).map
      fun s => { s with preempted := s.preempted.map SequenceGroup.markPreempted }

/-! ## Swapped groups -/

/-- The variables of `_schedule_swapped`. -/
structure SwappedLoop (T B : Type) where
  swapped : List (SequenceGroup T)
  leftover : List (SequenceGroup T)
  blocks : B
  blocksToSwapIn : BlockPairs
  blocksToCopy : BlockPairs
  budget : SchedulingBudget
  currLoras : Option (Finset ℕ)
  decodeSeqGroups : List (ScheduledSequenceGroup T)
  prefillSeqGroups : List (ScheduledSequenceGroup T)
  infeasible : List (SequenceGroup T)

/-- A group is swapped in. -/
def swapInGroup (g : SequenceGroup T) (numNewTokens : ℤ) (s : SwappedLoop T B) : Except PyError (SwappedLoop T B) := do
  let r ← bm.swapIn s.blocks (g.seqBlocks config.blockSize)
  let r' ← bm.appendSlots r.2 (g.seqBlocks config.blockSize)
  .ok
    { s with
      blocks := r'.2
      blocksToSwapIn := s.blocksToSwapIn ++ r.1
      blocksToCopy := s.blocksToCopy ++ r'.1
      budget := (s.budget.addNumBatchedTokens g.requestId numNewTokens).addNumSeqs g.requestId 1
      currLoras := addEnabledLora config s.currLoras g
      prefillSeqGroups := if g.stage = .prefill then s.prefillSeqGroups ++ [⟨g, numNewTokens⟩] else s.prefillSeqGroups
      decodeSeqGroups := if g.stage = .prefill then s.decodeSeqGroups else s.decodeSeqGroups ++ [⟨g, 1⟩] }

/-- The loop over the swapped queue. -/
def swappedLoop (enableChunking : Bool) : List (SequenceGroup T) → SwappedLoop T B → Except PyError (SwappedLoop T B)
  | [], s => .ok { s with swapped := [] }
  | g :: rest, s => do
    match ← bm.canSwapIn s.blocks (g.seqBlocks config.blockSize) with
    | .later => .ok { s with swapped := g :: rest }
    | .never => swappedLoop enableChunking rest { s with infeasible := s.infeasible ++ [g] }
    | .ok =>
      if loraBlocked config s.currLoras g then swappedLoop enableChunking rest { s with leftover := g :: s.leftover }
      else
        let numNewTokens ← getNumNewTokens config g enableChunking s.budget
        if numNewTokens = 0 then .ok { s with swapped := g :: rest }
        else
          let can ← s.budget.canScheduleTokens numNewTokens 1
          if can then
            let s ← swapInGroup config bm g numNewTokens s
            swappedLoop enableChunking rest s
          else .ok { s with swapped := g :: rest }

/-- `_schedule_swapped` : the groups whose LoRA does not fit go back to the front. -/
def scheduleSwapped (enableChunking : Bool) (swapped : List (SequenceGroup T)) (blocks : B) (budget : SchedulingBudget)
    (currLoras : Option (Finset ℕ)) : Except PyError (SwappedLoop T B) :=
  (swappedLoop config bm enableChunking swapped
    { swapped := swapped, leftover := [], blocks := blocks, blocksToSwapIn := [], blocksToCopy := [], budget := budget
      currLoras := currLoras, decodeSeqGroups := [], prefillSeqGroups := [], infeasible := [] }).map
    fun s => { s with swapped := s.leftover.reverse ++ s.swapped, leftover := [] }

/-! ## Waiting groups -/

/-- The variables of `_schedule_prefills`. -/
structure PrefillLoop (T F B : Type) where
  waiting : WaitingQueue F (SequenceGroup T)
  leftover : List (SequenceGroup T)
  blocks : B
  budget : SchedulingBudget
  currLoras : Option (Finset ℕ)
  seqGroups : List (ScheduledSequenceGroup T)
  ignored : List (SequenceGroup T)

variable [LinearOrder F]

/-- The next group leaves the waiting queue. -/
def popWaiting (s : PrefillLoop T F B) : Except PyError (PrefillLoop T F B) :=
  s.waiting.popleft.map fun r => { s with waiting := r.2 }

/-- The waiting group in front is scheduled. -/
def startPrefill (g : SequenceGroup T) (numNewTokens : ℤ) (s : PrefillLoop T F B) :
    Except PyError (PrefillLoop T F B) := do
  let s ← popWaiting { s with currLoras := addEnabledLora config s.currLoras g }
  let b ← bm.allocate s.blocks (g.seqBlocks config.blockSize)
  .ok
    { s with
      blocks := b
      seqGroups := s.seqGroups ++ [⟨g, numNewTokens⟩]
      budget := (s.budget.addNumBatchedTokens g.requestId numNewTokens).addNumSeqs g.requestId 1 }

/-- What a turn of the loop does with the waiting group in front: it leaves the loop, or the group is scheduled, ignored
or left over. -/
inductive PrefillTurn
  | stop
  | ignore
  | leave
  | start (numNewTokens : ℤ)

/-- The decision about the group in front. -/
def prefillTurn (enableChunking : Bool) (g : SequenceGroup T) (s : PrefillLoop T F B) : Except PyError PrefillTurn := do
  let numNewTokens ← getNumNewTokens config g enableChunking s.budget
  if enableChunking = false ∧ numNewTokens ≠ g.getLen then .error (.assertionError "")
  else
    let promptLimit ← getPromptLimit config g
    if promptLimit < numNewTokens then .ok .ignore
    else
      match bm.canAllocate s.blocks (g.seqBlocks config.blockSize) with
      | .later => .ok .stop
      | .never => .ok .ignore
      | .ok =>
        if loraBlocked config s.currLoras g then .ok .leave
        else if numNewTokens = 0 then .ok .stop
        else
          let can ← s.budget.canScheduleTokens numNewTokens 1
          -- one prompt at a time
          .ok (if can = false ∨ s.seqGroups ≠ [] then .stop else .start numNewTokens)

/-- The loop over the waiting queue; `passedDelay` are the answers of `_passed_delay`, which reads the clock. -/
def prefillLoop (passedDelay : ℕ → Bool) (enableChunking : Bool) :
    ℕ → PrefillLoop T F B → Except PyError (PrefillLoop T F B)
  | 0, s => .ok s
  | turns + 1, s =>
    if passedDelay turns && s.waiting.isNonempty then do
      let g ← s.waiting.peek
      match ← prefillTurn config bm enableChunking g s with
      | .stop => .ok s
      | .ignore =>
        let s ← popWaiting { s with ignored := s.ignored ++ [g] }
        prefillLoop passedDelay enableChunking turns s
      | .leave =>
        let s ← popWaiting { s with leftover := g :: s.leftover }
        prefillLoop passedDelay enableChunking turns s
      | .start numNewTokens =>
        let s ← startPrefill config bm g numNewTokens s
        prefillLoop passedDelay enableChunking turns s
    else .ok s

/-- `_schedule_prefills` : the groups whose LoRA does not fit go back to the front. -/
def schedulePrefills (passedDelay : ℕ → Bool) (enableChunking : Bool) (waiting : WaitingQueue F (SequenceGroup T))
    (blocks : B) (budget : SchedulingBudget) (currLoras : Option (Finset ℕ)) : Except PyError (PrefillLoop T F B) := do
  let s ← prefillLoop config bm passedDelay enableChunking waiting.iter.length
    { waiting := waiting, leftover := [], blocks := blocks, budget := budget, currLoras := currLoras, seqGroups := []
      ignored := [] }
  let waiting ← s.waiting.extendleft s.leftover
  .ok { s with waiting := waiting, leftover := [] }

end Scheduler

end FairCache
