import FairCache.Queue.Fifo
import FairCache.Queue.ReqQueue
import Mathlib.Data.Finset.Empty
import Mathlib.Data.Finset.Erase
import Mathlib.Data.List.Sort
import Mathlib.Data.Prod.Lex

/-!
# Priority preemption

`_schedule_priority_preemption` preempts running groups for the next waiting one and sorts both queues. The waiting queue
it leaves is a plain `deque`, without the scoreboards of the fair queue that was there.

* `FairReqQueue`, `WaitingQueue` : what `self.waiting` can be;
* `SchedulingBudget`, `SequenceCalls` : the budget, and what the scheduler asks of sequences and blocks;
* `schedulePriorityPreemption` : the function, with the groups it preempts;
* `contents_schedulePriorityPreemption` : no group is lost, and the preempted ones wait;
* `not_keeps` : the scoreboards are lost, always.
-/

namespace FairCache

open Lib

/-! ## Queues -/

/-- The two fair queues. -/
inductive FairReqQueue (F G : Type)
  | cpi (q : CPIReqQueue F G)
  | req (q : ReqQueue F G)

/-- `self.waiting`. -/
inductive WaitingQueue (F G : Type)
  | fair (q : FairReqQueue F G)
  | deque (l : List G)

namespace WaitingQueue

variable {F G : Type}

/-- What an attribute that only the fair queues have raises on a `deque`. -/
def noAttribute (name : String) : PyError :=
  .attributeError ("'collections.deque' object has no attribute '" ++ name ++ "'")

/-- `__iter__`. -/
def iter : WaitingQueue F G → List G
  | .fair (.cpi q) => q.iter
  | .fair (.req q) => q.waitingQueue
  | .deque l => l

/-- `__bool__`. -/
def isNonempty : WaitingQueue F G → Bool
  | .fair (.cpi q) => q.isNonempty
  | .fair (.req q) => !q.waitingQueue.isEmpty
  | .deque l => !l.isEmpty

/-- `served`. -/
def served : WaitingQueue F G → Except PyError (Dict ClientId F)
  | .fair (.cpi q) => .ok q.served
  | .fair (.req q) => .ok q.served
  | .deque _ => .error (noAttribute "served")

/-- `credits`, which only `CPIReqQueue` has. -/
def credits : WaitingQueue F G → Except PyError (Dict ClientId F)
  | .fair (.cpi q) => .ok q.credits
  | .fair (.req _) => .error (.attributeError "'ReqQueue' object has no attribute 'credits'")
  | .deque _ => .error (noAttribute "credits")

section
variable [HasClientId G]

/-- `popleft`. -/
def popleft [LinearOrder F] : WaitingQueue F G → Except PyError (G × WaitingQueue F G)
  | .fair (.cpi q) => q.popleft.map fun r => (r.1, .fair (.cpi r.2))
  | .fair (.req q) => q.popleft.map fun r => (r.1, .fair (.req r.2))
  | .deque [] => .error .indexError
  | .deque (g :: l) => .ok (g, .deque l)

/-- `appendleft`. -/
def appendleft (seqGroup : G) : WaitingQueue F G → Except PyError (WaitingQueue F G)
  | .fair (.cpi q) => (q.appendleft seqGroup).map fun q => .fair (.cpi q)
  | .fair (.req q) => .ok (.fair (.req (q.appendleft seqGroup)))
  | .deque l => .ok (.deque (seqGroup :: l))

end

/-- `served[client] += decode_weight`. -/
def chargeDecode [Field F] (client : ClientId) : WaitingQueue F G → Except PyError (WaitingQueue F G)
  | .fair (.cpi q) => (q.chargeDecode client).map fun q => .fair (.cpi q)
  | .fair (.req q) =>
    match q.served.lookup client with
    | none => .error .keyError
    | some v => .ok (.fair (.req { q with served := q.served.set client (v + q.decodeWeight) }))
  | .deque _ => .error (noAttribute "served")

/-- `update_prefill_served`. -/
def updatePrefillServed [Field F] [LinearOrder F] (prefillServed : Dict ClientId (F × F))
    (credits : Option (Dict ClientId F)) : WaitingQueue F G → Except PyError (WaitingQueue F G)
  | .fair (.cpi q) => .ok (.fair (.cpi (q.updatePrefillServed prefillServed credits)))
  | .fair (.req q) => .ok (.fair (.req (q.updatePrefillServed prefillServed)))
  | .deque _ => .error (noAttribute "update_prefill_served")

end WaitingQueue

/-! ## The budget -/

/-- `SchedulingBudget`. -/
structure SchedulingBudget where
  tokenBudget : ℤ
  maxNumSeqs : ℤ
  requestIdsNumBatchedTokens : Finset String
  requestIdsNumCurrSeqs : Finset String
  numBatchedTokens : ℤ
  numCurrSeqs : ℤ

namespace SchedulingBudget

/-- `can_schedule`. -/
def canSchedule (b : SchedulingBudget) (numNewTokens numNewSeqs : ℕ) : Except PyError Bool :=
  if numNewTokens = 0 ∨ numNewSeqs = 0 then .error (.assertionError "")
  else .ok (b.numBatchedTokens + numNewTokens ≤ b.tokenBudget && b.numCurrSeqs + numNewSeqs ≤ b.maxNumSeqs)

/-- `subtract_num_batched_tokens`. -/
def subtractNumBatchedTokens (b : SchedulingBudget) (reqId : String) (n : ℕ) : SchedulingBudget :=
  if reqId ∈ b.requestIdsNumBatchedTokens then
    { b with
      requestIdsNumBatchedTokens := b.requestIdsNumBatchedTokens.erase reqId
      numBatchedTokens := b.numBatchedTokens - n }
  else b

/-- `subtract_num_seqs`. -/
def subtractNumSeqs (b : SchedulingBudget) (reqId : String) (n : ℕ) : SchedulingBudget :=
  if reqId ∈ b.requestIdsNumCurrSeqs then
    { b with requestIdsNumCurrSeqs := b.requestIdsNumCurrSeqs.erase reqId, numCurrSeqs := b.numCurrSeqs - n }
  else b

end SchedulingBudget

/-! ## Sequences and blocks -/

/-- `SequenceStatus` of the sequences that are not finished. -/
inductive SequenceStatus
  | waiting
  | running
  | swapped
  deriving DecidableEq

/-- `AllocStatus`. -/
inductive AllocStatus
  | ok
  | later
  | never
  deriving DecidableEq

/-- What the scheduler asks of groups, of their sequences and of the block manager, which are in the state `W`. -/
structure SequenceCalls (F G W : Type) where
  requestId : G → String
  priority : G → ℤ
  arrivalTime : G → F
  maxNumRunningSeqs : W → G → ℕ
  /-- `get_num_new_tokens` of the sequences in a status. -/
  numNewTokens : W → G → SequenceStatus → List ℕ
  canAllocate : W → G → AllocStatus
  canSwapOut : W → G → Bool
  /-- The one running sequence waits again, without its blocks. -/
  recompute : W → G → W
  swapOut : W → G → W

namespace SequenceCalls

variable {F G W : Type} (calls : SequenceCalls F G W)

/-- `_get_num_new_tokens` without chunking. -/
def getNumNewTokens (w : W) (seqGroup : G) (status : SequenceStatus) : Except PyError ℕ :=
  let n := (calls.numNewTokens w seqGroup status).sum
  if n = 0 then .error (.assertionError "") else .ok n

/-- `_preempt` : the mode the caller asks for is not read. -/
def preempt (userSpecifiedPreemptionMode : Option String) (w : W) (seqGroup : G) : Except PyError W :=
  let swap : Bool := match userSpecifiedPreemptionMode with
    | none => calls.maxNumRunningSeqs w seqGroup ≠ 1
    | some mode => mode = "swap"
  if swap then
    if calls.canSwapOut w seqGroup then .ok (calls.swapOut w seqGroup)
    else .error (.runtimeError ("Aborted due to the lack of CPU swap space. Please increase " ++
      "the swap space to avoid this error."))
  else if (calls.numNewTokens w seqGroup .running).length = 1 then .ok (calls.recompute w seqGroup)
  else .error (.assertionError "")

/-- `_get_priority`. -/
def getPriority (seqGroup : G) : ℤ ×ₗ F := toLex (calls.priority seqGroup, calls.arrivalTime seqGroup)

/-- `sorted(.., key=self._get_priority)`, which is stable. -/
def sorted [LinearOrder F] (l : List G) : List G := l.insertionSort fun g g' => calls.getPriority g ≤ calls.getPriority g'

end SequenceCalls

/-! ## The function -/

/-- The scheduler, as far as preemption reads and writes it. -/
structure Scheduler (F G W : Type) where
  waiting : WaitingQueue F G
  running : List G
  world : W
  userSpecifiedPreemptionMode : Option String

namespace Scheduler

variable {F G W : Type} [LinearOrder F] [HasClientId G] (calls : SequenceCalls F G W)

/-- What the loop changes; `preempted` are the groups it preempted so far. -/
structure Preempting (F G W : Type) where
  waiting : WaitingQueue F G
  world : W
  budget : SchedulingBudget
  preempted : List G

/-- The waiting group can be scheduled now. -/
def fits (seqGroup : G) (numNewTokens numNewSeqs : ℕ) (s : Preempting F G W) : Except PyError Bool :=
  if numNewTokens ≠ 0 ∧ calls.canAllocate s.world seqGroup = .ok then s.budget.canSchedule numNewTokens numNewSeqs
  else .ok false

/-- Preempt one running group. -/
def preemptOne (mode : Option String) (victim : G) (s : Preempting F G W) : Except PyError (Preempting F G W) := do
  let numRunningTokens ← calls.getNumNewTokens s.world victim .running
  let budget := s.budget.subtractNumBatchedTokens (calls.requestId victim) numRunningTokens
  let budget := budget.subtractNumSeqs (calls.requestId victim) (calls.maxNumRunningSeqs s.world victim)
  let world ← calls.preempt mode s.world victim
  let waiting ← s.waiting.appendleft victim
  .ok { waiting := waiting, world := world, budget := budget, preempted := s.preempted ++ [victim] }

/-- The loop over the running queue, from its last group on. -/
def preemptLoop (mode : Option String) (seqGroup : G) (numNewTokens numNewSeqs : ℕ) :
    List G → Preempting F G W → Except PyError (List G × Preempting F G W)
  | [], s => .ok ([], s)
  | victim :: rest, s =>
    if calls.getPriority seqGroup < calls.getPriority victim then do
      let stop ← fits calls seqGroup numNewTokens numNewSeqs s
      if stop then .ok (victim :: rest, s)
      else
        let s ← preemptOne calls mode victim s
        preemptLoop mode seqGroup numNewTokens numNewSeqs rest s
    else .ok (victim :: rest, s)

/-- `_schedule_priority_preemption` : it returns the number of groups it preempted; these are the groups. -/
def schedulePriorityPreemption (s : Scheduler F G W) (budget : SchedulingBudget) :
    Except PyError (Scheduler F G W × SchedulingBudget × List G) :=
  if s.waiting.isNonempty then do
    let (seqGroup, waiting) ← s.waiting.popleft
    let numNewTokens ← calls.getNumNewTokens s.world seqGroup .waiting
    let (running, p) ← preemptLoop calls s.userSpecifiedPreemptionMode seqGroup numNewTokens
      (calls.maxNumRunningSeqs s.world seqGroup) (calls.sorted s.running).reverse
      { waiting := waiting, world := s.world, budget := budget, preempted := [] }
    let waiting ← p.waiting.appendleft seqGroup
    .ok ({ s with waiting := .deque (calls.sorted waiting.iter), running := running.reverse, world := p.world },
      p.budget, p.preempted)
  else
    .ok ({ s with waiting := .deque (calls.sorted s.waiting.iter), running := calls.sorted s.running }, budget, [])

end Scheduler

/-! ## No group is lost -/

namespace WaitingQueue

variable {F G : Type} [HasClientId G] {w w' : WaitingQueue F G} {g : G}

theorem iter_appendleft (h : w.appendleft g = .ok w') : w'.iter.Perm (g :: w.iter) := by
  match w with
  | .fair (.cpi q) =>
    obtain ⟨q', hq, rfl⟩ := map_ok h
    unfold CPIReqQueue.appendleft at hq
    cases hl : q.clientWaitingQueues.lookup (clientId g) with
    | none => rw [hl] at hq; cases hq
    | some l =>
      rw [hl] at hq
      cases hq
      have hwait : q.waiting (clientId g) = l := by rw [CPIReqQueue.waiting, hl, Option.getD_some]
      have hold := (CPIReqQueue.iter_perm q (clientId g)).cons g
      rw [hwait] at hold
      exact (CPIReqQueue.iter_perm_of_set rfl).trans hold.symm
  | .fair (.req q) => cases h; exact List.Perm.refl _
  | .deque l => cases h; exact List.Perm.refl _

theorem iter_popleft [LinearOrder F] (h : w.popleft = .ok (g, w')) : w.iter.Perm (g :: w'.iter) := by
  match w with
  | .fair (.cpi q) =>
    obtain ⟨⟨g', q'⟩, hq, heq⟩ := map_ok h
    cases heq
    obtain ⟨c, rest, hwait, rfl⟩ := CPIReqQueue.popleft_ok hq
    have hold := CPIReqQueue.iter_perm q c
    rw [hwait] at hold
    have hnew : CPIReqQueue.iter { q with clientWaitingQueues := q.clientWaitingQueues.set c rest } |>.Perm
        (rest ++ q.others c) := CPIReqQueue.iter_perm_of_set rfl
    exact hold.trans (hnew.cons g').symm
  | .fair (.req q) =>
    obtain ⟨⟨g', q'⟩, hq, heq⟩ := map_ok h
    cases heq
    unfold ReqQueue.popleft at hq
    cases hl : q.waitingQueue with
    | nil => rw [hl] at hq; cases hq
    | cons g' rest =>
      rw [hl] at hq
      cases hq
      exact List.Perm.of_eq hl
  | .deque [] => cases h
  | .deque (g' :: l) => cases h; exact List.Perm.refl _

end WaitingQueue

namespace Scheduler

variable {F G W : Type} [LinearOrder F] [HasClientId G] {calls : SequenceCalls F G W}

omit [LinearOrder F] in
theorem preemptOne_ok {mode : Option String} {victim : G} {s s' : Preempting F G W}
    (h : preemptOne calls mode victim s = .ok s') :
    s'.preempted = s.preempted ++ [victim] ∧ s'.waiting.iter.Perm (victim :: s.waiting.iter) := by
  obtain ⟨n, -, h⟩ := bind_ok h
  obtain ⟨world, -, h⟩ := bind_ok h
  obtain ⟨waiting, hw, h⟩ := bind_ok h
  cases h
  exact ⟨rfl, WaitingQueue.iter_appendleft hw⟩

/-- The loop moves the last groups of the running queue into the waiting queue. -/
theorem preemptLoop_ok {mode : Option String} {seqGroup : G} {m n : ℕ} {running running' : List G}
    {s s' : Preempting F G W} (h : preemptLoop calls mode seqGroup m n running s = .ok (running', s')) :
    ∃ ps, running = ps ++ running' ∧ s'.preempted = s.preempted ++ ps ∧
      s'.waiting.iter.Perm (ps ++ s.waiting.iter) := by
  induction running generalizing s with
  | nil =>
    cases h
    exact ⟨[], rfl, (List.append_nil _).symm, List.Perm.refl _⟩
  | cons victim rest ih =>
    rw [preemptLoop] at h
    split_ifs at h
    · obtain ⟨stop, -, h⟩ := bind_ok h
      cases stop with
      | true =>
        cases h
        exact ⟨[], rfl, (List.append_nil _).symm, List.Perm.refl _⟩
      | false =>
        obtain ⟨s₁, hone, h⟩ := bind_ok h
        obtain ⟨hpre, hperm⟩ := preemptOne_ok hone
        obtain ⟨ps, rfl, hpre', hperm'⟩ := ih h
        refine ⟨victim :: ps, rfl, ?_, hperm'.trans ?_⟩
        · rw [hpre', hpre, List.append_assoc]
          rfl
        · exact (hperm.append_left ps).trans List.perm_middle
    · cases h
      exact ⟨[], rfl, (List.append_nil _).symm, List.Perm.refl _⟩

omit [HasClientId G] in
theorem sorted_perm (l : List G) : (calls.sorted l).Perm l := List.perm_insertionSort _ l

/-- **What the two queues hold afterwards**: every group that they held, and each preempted group waits. -/
theorem contents_schedulePriorityPreemption {s s' : Scheduler F G W} {budget budget' : SchedulingBudget}
    {preempted : List G} (h : schedulePriorityPreemption calls s budget = .ok (s', budget', preempted)) :
    (s'.waiting.iter ++ s'.running).Perm (s.waiting.iter ++ s.running) ∧ ∀ g ∈ preempted, g ∈ s'.waiting.iter := by
  unfold schedulePriorityPreemption at h
  split_ifs at h
  · obtain ⟨⟨g, w⟩, hpop, h⟩ := bind_ok h
    obtain ⟨n, -, h⟩ := bind_ok h
    obtain ⟨⟨running, p⟩, hloop, h⟩ := bind_ok h
    obtain ⟨w', hw', h⟩ := bind_ok h
    cases h
    obtain ⟨ps, hrunning, hpre, hperm⟩ := preemptLoop_ok hloop
    have hback := (WaitingQueue.iter_appendleft hw').trans (hperm.cons g)
    have hpop := WaitingQueue.iter_popleft hpop
    have hsorted : (calls.sorted s.running).reverse.Perm s.running := (List.reverse_perm _).trans (sorted_perm _)
    rw [hrunning] at hsorted
    have hall : (calls.sorted w'.iter).Perm (g :: (ps ++ w.iter)) := (sorted_perm _).trans hback
    refine ⟨?_, fun v hv => hall.mem_iff.mpr (List.mem_cons_of_mem _ (List.mem_append_left _ ?_))⟩
    · have hmove : (g :: (ps ++ w.iter) ++ running).Perm (g :: w.iter ++ (ps ++ running)) := by
        rw [List.cons_append, List.cons_append, ← List.append_assoc]
        exact (List.perm_append_comm.append_right _).cons g
      exact (hall.append (List.reverse_perm _)).trans (hmove.trans (hpop.symm.append hsorted))
    · rw [hpre] at hv
      exact hv
  · cases h
    exact ⟨(sorted_perm _).append (sorted_perm _), fun v hv => absurd hv List.not_mem_nil⟩

/-- The waiting queue is a plain `deque` afterwards. -/
theorem waiting_schedulePriorityPreemption {s s' : Scheduler F G W} {budget budget' : SchedulingBudget}
    {preempted : List G} (h : schedulePriorityPreemption calls s budget = .ok (s', budget', preempted)) :
    ∃ l, s'.waiting = .deque l := by
  unfold schedulePriorityPreemption at h
  split_ifs at h
  · obtain ⟨⟨g, w⟩, -, h⟩ := bind_ok h
    obtain ⟨n, -, h⟩ := bind_ok h
    obtain ⟨⟨running, p⟩, -, h⟩ := bind_ok h
    obtain ⟨w', -, h⟩ := bind_ok h
    cases h
    exact ⟨_, rfl⟩
  · cases h
    exact ⟨_, rfl⟩

/-! ## The scoreboards are lost -/

variable [Field F]

/-- **Both queues and both scoreboards are kept**: the groups are the same, the preempted ones wait, and the clients
that could be charged still can. -/
structure Kept (s s' : Scheduler F G W) (preempted : List G) : Prop where
  groups : (s'.waiting.iter ++ s'.running).Perm (s.waiting.iter ++ s.running)
  preempted : ∀ g ∈ preempted, g ∈ s'.waiting.iter
  served : s'.waiting.served = s.waiting.served
  credits : s'.waiting.credits = s.waiting.credits
  chargeDecode : ∀ c, (∃ w, s.waiting.chargeDecode c = .ok w) → ∃ w, s'.waiting.chargeDecode c = .ok w
  charge : ∀ p credits, (∃ w, s.waiting.updatePrefillServed p credits = .ok w) →
    ∃ w, s'.waiting.updatePrefillServed p credits = .ok w

/-- The function returns, and all is kept. -/
def Keeps (calls : SequenceCalls F G W) (s : Scheduler F G W) (budget : SchedulingBudget) : Prop :=
  ∃ s' budget' preempted, schedulePriorityPreemption calls s budget = .ok (s', budget', preempted) ∧ s.Kept s' preempted

/-- **The scoreboards are always lost**: from no fair queue does the function keep them, whatever the running queue, the
budget and the answers of the block manager are. -/
theorem not_keeps (calls : SequenceCalls F G W) (q : FairReqQueue F G) (running : List G) (world : W)
    (mode : Option String) (budget : SchedulingBudget) :
    ¬ Keeps calls { waiting := .fair q, running := running, world := world, userSpecifiedPreemptionMode := mode } budget := by
  rintro ⟨s', budget', preempted, h, hkept⟩
  obtain ⟨l, hl⟩ := waiting_schedulePriorityPreemption h
  have hserved := hkept.served
  rw [hl] at hserved
  cases q <;> cases hserved

/-- Groups that are their client, with one new token each; nothing is known of the blocks. -/
def oneCalls : SequenceCalls ℚ ClientId Unit :=
  { requestId := fun _ => "", priority := fun _ => 0, arrivalTime := fun _ => 0, maxNumRunningSeqs := fun _ _ => 1
    numNewTokens := fun _ _ _ => [1], canAllocate := fun _ _ => .ok, canSwapOut := fun _ _ => true
    recompute := fun w _ => w, swapOut := fun w _ => w }

def oneBudget : SchedulingBudget :=
  { tokenBudget := 1, maxNumSeqs := 1, requestIdsNumBatchedTokens := ∅, requestIdsNumCurrSeqs := ∅, numBatchedTokens := 0
    numCurrSeqs := 0 }

/-- Nothing runs. -/
def oneWaiting (q : CPIReqQueue ℚ ClientId) : Scheduler ℚ ClientId Unit :=
  { waiting := .fair (.cpi q), running := [], world := (), userSpecifiedPreemptionMode := none }

/-- One group of client 1 waits, none runs. The function returns, and the next decode of client 1 raises. -/
theorem waiting_group_loses_scoreboards :
    ∃ q : CPIReqQueue ℚ ClientId, (CPIReqQueue.new ℚ ClientId).append 1 = .ok q ∧
      (∃ w, (oneWaiting q).waiting.chargeDecode 1 = .ok w) ∧
      (∃ r, schedulePriorityPreemption oneCalls (oneWaiting q) oneBudget = .ok r ∧
        r.1.waiting.chargeDecode 1 = .error (WaitingQueue.noAttribute "served")) ∧
      ¬ Keeps oneCalls (oneWaiting q) oneBudget := by
  refine ⟨(CPIReqQueue.new ℚ ClientId).enqueue 1, rfl, ⟨_, rfl⟩, ?_, ?_⟩
  · have hok : (schedulePriorityPreemption oneCalls (oneWaiting ((CPIReqQueue.new ℚ ClientId).enqueue 1)) oneBudget).isOk =
        true := by decide +kernel
    cases hrun : schedulePriorityPreemption oneCalls (oneWaiting ((CPIReqQueue.new ℚ ClientId).enqueue 1)) oneBudget with
    | error e => rw [hrun] at hok; cases hok
    | ok r =>
      obtain ⟨l, hl⟩ := waiting_schedulePriorityPreemption hrun
      exact ⟨r, rfl, by rw [hl]; rfl⟩
  · rintro ⟨s', budget', preempted, h, hkept⟩
    obtain ⟨l, hl⟩ := waiting_schedulePriorityPreemption h
    have hserved := hkept.served
    rw [hl] at hserved
    cases hserved

end Scheduler

end FairCache
