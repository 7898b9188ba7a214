import FairCache.Scheduler.BlockManager
import FairCache.Scheduler.Preemption
import Mathlib.Data.Finset.Insert

/-!
# Groups, blocks and budgets

What the two scheduling policies read and write of a request, of the block manager and of the budget.

* `SequenceGroup` : a request with its one sequence; `NewRequest` : what never changes of it;
* `BlockSpaceManager` : the operations of a block manager; `BlockSpaceManagerV1.manager` : those of the first one;
* `SchedulerConfig`, `getNumNewTokens`, `getPromptLimit` : the limits of a batch.
-/

namespace FairCache

/-- `SequenceStage`. -/
inductive SequenceStage
  | prefill
  | decode
  deriving DecidableEq

/-- A request as it arrives, with the id that its sequence gets. -/
structure NewRequest (T : Type) where
  requestId : String
  seqId : ℕ
  clientId : ClientId
  promptTokenIds : List T
  /-- zero without a LoRA request -/
  loraIntId : ℕ
  longLoraMaxLen : Option ℕ
  deriving DecidableEq

/-- A request with its sequence (`n = 1`). The queue it is in tells the sequence's status. -/
structure SequenceGroup (T : Type) where
  request : NewRequest T
  outputTokenIds : List T
  numComputedTokens : ℤ
  stage : SequenceStage
  /-- `sampling_params.preempted` -/
  preempted : Option Bool
  deriving DecidableEq

instance {T : Type} : HasClientId (SequenceGroup T) := ⟨fun g => g.request.clientId⟩

namespace SequenceGroup

variable {T : Type} (g : SequenceGroup T)

/-- The group of a new request. -/
def new (r : NewRequest T) : SequenceGroup T :=
  { request := r, outputTokenIds := [], numComputedTokens := 0, stage := .prefill, preempted := none }

abbrev requestId : String := g.request.requestId

abbrev seqId : ℕ := g.request.seqId

abbrev loraIntId : ℕ := g.request.loraIntId

def getTokenIds : List T := g.request.promptTokenIds ++ g.outputTokenIds

def getLen : ℕ := g.getTokenIds.length

def getNumUncomputedTokens : ℤ := (g.getLen : ℤ) - g.numComputedTokens

/-- `seq.get_num_new_tokens` : one for a decode. -/
def seqNumNewTokens : ℤ := if g.stage = .decode then 1 else g.getNumUncomputedTokens

/-- `update_num_computed_tokens` : with all tokens computed the decode phase begins. -/
def updateNumComputedTokens (n : ℤ) : Except PyError (SequenceGroup T) :=
  let g := { g with numComputedTokens := g.numComputedTokens + n }
  if (g.getLen : ℤ) < g.numComputedTokens then .error (.assertionError "")
  else .ok (if g.getNumUncomputedTokens = 0 then { g with stage := .decode } else g)

/-- `reset_state_for_recompute`. -/
def resetStateForRecompute : SequenceGroup T := { g with numComputedTokens := 0, stage := .prefill }

def appendTokenId (t : T) : SequenceGroup T := { g with outputTokenIds := g.outputTokenIds ++ [t] }

/-- `sampling_params.preempted = True`. -/
def markPreempted : SequenceGroup T := { g with preempted := some true }

/-- What the block manager reads; `n_blocks` rounds up. -/
def seqBlocks (blockSize : ℕ) : SeqBlocks := ⟨g.seqId, (g.getLen + blockSize - 1) / blockSize⟩

end SequenceGroup

/-- A group that is scheduled, with the tokens to process for it. -/
structure ScheduledSequenceGroup (T : Type) where
  seqGroup : SequenceGroup T
  tokenChunkSize : ℤ
  deriving DecidableEq

/-! ## Blocks -/

/-- Blocks to copy, or to move from one device to the other. -/
abbrev BlockPairs : Type := List (ℕ × ℕ)

/-- A block manager with states `B`, for groups of one sequence. -/
structure BlockSpaceManager (B : Type) where
  canAllocate : B → SeqBlocks → AllocStatus
  allocate : B → SeqBlocks → Except PyError B
  canAppendSlots : B → SeqBlocks → Bool
  appendSlots : B → SeqBlocks → Except PyError (BlockPairs × B)
  canSwapIn : B → SeqBlocks → Except PyError AllocStatus
  swapIn : B → SeqBlocks → Except PyError (BlockPairs × B)
  canSwapOut : B → SeqBlocks → Except PyError Bool
  swapOut : B → SeqBlocks → Except PyError (BlockPairs × B)
  free : B → SeqBlocks → Except PyError B

/-- The operations of `BlockSpaceManagerV1`. -/
def BlockSpaceManagerV1.manager : BlockSpaceManager BlockSpaceManagerV1 where
  canAllocate s q := s.canAllocate q.nBlocks
  allocate s q := s.allocate [q.seqId] q.nBlocks
  canAppendSlots s _ := s.canAppendSlots 1
  appendSlots s q := s.appendSlots q
  canSwapIn s q := s.canSwapIn [q.seqId]
  swapIn s q := s.swapIn [q.seqId]
  canSwapOut s q := s.canSwapOut [q.seqId]
  swapOut s q := s.swapOut [q.seqId]
  free s q := s.free q.seqId

/-! ## Limits -/

/-- The configuration; `maxLoras` is there where LoRA is enabled. -/
structure SchedulerConfig where
  maxNumBatchedTokens : ℕ
  maxNumSeqs : ℕ
  maxModelLen : ℕ
  chunkedPrefillEnabled : Bool
  enablePrefixCaching : Bool
  blockSize : ℕ
  maxLoras : Option ℕ
  useAsyncOutputProc : Bool
  preemptionMode : Option String

namespace SchedulingBudget

/-- A budget that nothing is spent of. -/
def new (config : SchedulerConfig) : SchedulingBudget :=
  { tokenBudget := config.maxNumBatchedTokens, maxNumSeqs := config.maxNumSeqs, requestIdsNumBatchedTokens := ∅
    requestIdsNumCurrSeqs := ∅, numBatchedTokens := 0, numCurrSeqs := 0 }

/-- `remaining_token_budget`. -/
def remainingTokenBudget (b : SchedulingBudget) : ℤ := b.tokenBudget - b.numBatchedTokens

/-- `add_num_batched_tokens`. -/
def addNumBatchedTokens (b : SchedulingBudget) (reqId : String) (n : ℤ) : SchedulingBudget :=
  if reqId ∈ b.requestIdsNumBatchedTokens then b
  else
    { b with
      requestIdsNumBatchedTokens := insert reqId b.requestIdsNumBatchedTokens
      numBatchedTokens := b.numBatchedTokens + n }

/-- `add_num_seqs`. -/
def addNumSeqs (b : SchedulingBudget) (reqId : String) (n : ℕ) : SchedulingBudget :=
  if reqId ∈ b.requestIdsNumCurrSeqs then b
  else
    { b with requestIdsNumCurrSeqs := insert reqId b.requestIdsNumCurrSeqs, numCurrSeqs := b.numCurrSeqs + n }

/-- `can_schedule`, of any number of tokens. -/
def canScheduleTokens (b : SchedulingBudget) (numNewTokens : ℤ) (numNewSeqs : ℕ) : Except PyError Bool :=
  if numNewTokens = 0 ∨ numNewSeqs = 0 then .error (.assertionError "")
  else .ok (b.numBatchedTokens + numNewTokens ≤ b.tokenBudget && b.numCurrSeqs + numNewSeqs ≤ b.maxNumSeqs)

/-- `subtract_num_batched_tokens`, of any number of tokens. -/
def subtractTokens (b : SchedulingBudget) (reqId : String) (n : ℤ) : SchedulingBudget :=
  if reqId ∈ b.requestIdsNumBatchedTokens then
    { b with
      requestIdsNumBatchedTokens := b.requestIdsNumBatchedTokens.erase reqId
      numBatchedTokens := b.numBatchedTokens - n }
  else b

theorem canSchedule_eq (b : SchedulingBudget) (n m : ℕ) : b.canSchedule n m = b.canScheduleTokens n m := by
  unfold canSchedule canScheduleTokens
  simp only [Nat.cast_eq_zero]

theorem subtractNumBatchedTokens_eq (b : SchedulingBudget) (reqId : String) (n : ℕ) :
    b.subtractNumBatchedTokens reqId n = b.subtractTokens reqId n := rfl

end SchedulingBudget

variable {T : Type} (config : SchedulerConfig)

/-- What prefix caching asks of the size of a chunk. -/
def notDividable (chunkSize : ℤ) : PyError :=
  .valueError ("When enabling chunked prefill and prefix caching, max_num_batched_tokens (chunk size) " ++
    "must be dividable by block size, but got chunk_size (" ++ toString chunkSize ++ ") % block_size (" ++
    toString config.blockSize ++ ") = " ++ toString (chunkSize % config.blockSize))

/-- `_get_num_new_tokens` : with chunking no more than is left of the budget, and whole blocks with prefix caching. -/
def getNumNewTokens (g : SequenceGroup T) (enableChunking : Bool) (budget : SchedulingBudget) : Except PyError ℤ :=
  let numNewTokens := g.seqNumNewTokens
  let remaining := budget.remainingTokenBudget
  if numNewTokens ≤ 0 then .error (.assertionError "")
  else if enableChunking = false then .ok numNewTokens
  else if config.enablePrefixCaching = false then .ok (min numNewTokens remaining)
  else if budget.tokenBudget % config.blockSize ≠ 0 then .error (notDividable config budget.tokenBudget)
  else if remaining < numNewTokens then .ok (remaining / config.blockSize * config.blockSize)
  else .ok numNewTokens

/-- `_get_prompt_limit`. -/
def getPromptLimit (g : SequenceGroup T) : Except PyError ℕ :=
  let promptLimit :=
    if config.chunkedPrefillEnabled then config.maxModelLen else min config.maxModelLen config.maxNumBatchedTokens
  match g.request.longLoraMaxLen with
  | none => .ok promptLimit
  | some 0 => .ok promptLimit
  | some limit => if promptLimit ≤ limit then .ok limit else .error (.assertionError "")

end FairCache
