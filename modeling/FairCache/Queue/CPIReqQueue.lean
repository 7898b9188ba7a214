import FairCache.Basic
import FairCache.Lib.Dict
import Mathlib.Algebra.Order.Field.Basic
import Mathlib.Data.List.MinMax

/-!
# The waiting queue

`CPIReqQueue` keeps a queue for each client and a scoreboard of what each client was served.

* `append` : a request enters, and a client that was not waiting is lifted; `appendleft`, `extendleft` : it goes back;
* `selectClient`, `popleft`, `peek` : the waiting client of least score is next; `remove` : a request leaves;
* `isNonempty`, `len`, `iter` : what the scheduler sees of the queue;
* `updatePrefillServed` : charge the prefills of a step, net of credits.
-/

namespace FairCache

open Lib

/-- What the queue reads of a sequence group. -/
class HasClientId (G : Type) where
  clientId : G → ClientId

export HasClientId (clientId)

/-- A request that is its client. -/
instance : HasClientId ClientId := ⟨id⟩

/-- The queue, the scoreboards and the counters. -/
structure CPIReqQueue (F G : Type) where
  hitWeight : F
  prefillWeight : F
  decodeWeight : F
  eta : F
  served : Dict ClientId F
  credits : Dict ClientId F
  clientWaitingQueues : Dict ClientId (List G)
  servedRequests : Dict ClientId ℕ
  servedTokens : Dict ClientId F
  hitTokensCount : Dict ClientId F
  missTokensCount : Dict ClientId F

namespace CPIReqQueue

variable {F G : Type}

/-- An empty queue with the default weights. -/
def new (F G : Type) [Field F] : CPIReqQueue F G :=
  { hitWeight := 1 / 50, prefillWeight := 1 / (10 : ℕ), decodeWeight := 1 / 5, eta := 1, served := ∅, credits := ∅
    clientWaitingQueues := ∅, servedRequests := ∅, servedTokens := ∅, hitTokensCount := ∅, missTokensCount := ∅ }

/-- The requests of a client that wait. -/
def waiting (q : CPIReqQueue F G) (c : ClientId) : List G := (q.clientWaitingQueues.lookup c).getD []

/-- A client's score, zero for a client without one. -/
def score [Zero F] (q : CPIReqQueue F G) (c : ClientId) : F := (q.served.lookup c).getD 0

/-! ## Entering -/

section Append
variable [Field F] [LinearOrder F] [HasClientId G]

/-- The queue with `seqGroup` at the end of its client's queue; a client that just appeared scores zero. -/
def enqueue (q : CPIReqQueue F G) (seqGroup : G) : CPIReqQueue F G :=
  match q.clientWaitingQueues.lookup (clientId seqGroup) with
  | none =>
    { q with
      clientWaitingQueues := q.clientWaitingQueues.set (clientId seqGroup) [seqGroup]
      served := q.served.set (clientId seqGroup) 0 }
  | some waiting =>
    { q with clientWaitingQueues := q.clientWaitingQueues.set (clientId seqGroup) (waiting ++ [seqGroup]) }

/-- `cnts` : the scores of the other clients that wait. -/
def otherScores (q : CPIReqQueue F G) (c : ClientId) : List F :=
  (q.served.entries.filter fun e => e.1 ≠ c ∧ q.waiting e.1 ≠ []).map (·.2)

/-- `append` : when the client's queue was empty before, lift its score to the least of the other waiting clients. -/
def append (q : CPIReqQueue F G) (seqGroup : G) : Except PyError (CPIReqQueue F G) :=
  let c := clientId seqGroup
  let q := q.enqueue seqGroup
  if (q.waiting c).length = 1 then
    if ∃ k ∈ q.served.keys, k ∉ q.clientWaitingQueues then .error .keyError
    else
      match (q.otherScores c).min? with
      | none => .ok q
      | some least => .ok { q with served := q.served.upsert c fun v => max (v.getD 0) least }
  else .ok q

/-- `appendleft` : a preempted request goes back to the front of its client's queue. -/
def appendleft (q : CPIReqQueue F G) (seqGroup : G) : Except PyError (CPIReqQueue F G) :=
  match q.clientWaitingQueues.lookup (clientId seqGroup) with
  | none => .error .keyError
  | some waiting =>
    .ok { q with clientWaitingQueues := q.clientWaitingQueues.set (clientId seqGroup) (seqGroup :: waiting) }

/-- `extendleft` : one after the other, so that the last one is in front. -/
def extendleft (q : CPIReqQueue F G) (sgList : List G) : Except PyError (CPIReqQueue F G) := sgList.foldlM appendleft q

end Append

/-! ## Leaving -/

section Pop
variable [LinearOrder F]

/-- The loop of `popleft` over what is left of `active_served`: the first client of least score whose queue is not
empty. -/
def selectClient (queues : Dict ClientId (List G)) (activeServed : Dict ClientId F) : Except PyError ClientId :=
  match _h : activeServed.entries.argmin (·.2) with
  | none => .error (.valueError "min() arg is an empty sequence")
  | some e =>
    match queues.lookup e.1 with
    | none => .error .keyError
    | some [] => selectClient queues (activeServed.erase e.1)
    | some (_ :: _) => .ok e.1
termination_by activeServed.size
decreasing_by
  have hmem := (Dict.lookup_eq_some_iff _ e.1 e.2).mpr (List.argmin_mem _h)
  have := Dict.size_erase (Dict.mem_of_lookup hmem)
  omega

/-- `popleft`. -/
def popleft (q : CPIReqQueue F G) : Except PyError (G × CPIReqQueue F G) :=
  match selectClient q.clientWaitingQueues q.served with
  | .error e => .error e
  | .ok c =>
    match q.waiting c with
    | [] => .error .indexError
    | seqGroup :: rest => .ok (seqGroup, { q with clientWaitingQueues := q.clientWaitingQueues.set c rest })

/-- `waiting[0]`. -/
def peek (q : CPIReqQueue F G) : Except PyError G :=
  match selectClient q.clientWaitingQueues q.served with
  | .error e => .error e
  | .ok c =>
    match q.waiting c with
    | [] => .error .indexError
    | seqGroup :: _ => .ok seqGroup

end Pop

/-- `remove` : out of the first client's queue that has the request; nothing happens where none has. -/
def remove [DecidableEq G] (q : CPIReqQueue F G) (seqGroup : G) : CPIReqQueue F G :=
  match q.clientWaitingQueues.entries.find? fun e => seqGroup ∈ e.2 with
  | none => q
  | some e => { q with clientWaitingQueues := q.clientWaitingQueues.set e.1 (e.2.erase seqGroup) }

/-! ## Views -/

/-- `__bool__` : some client's queue is not empty. -/
def isNonempty (q : CPIReqQueue F G) : Bool := q.clientWaitingQueues.values.any (!·.isEmpty)

/-- `__len__`. -/
def len (q : CPIReqQueue F G) : ℕ := (q.clientWaitingQueues.values.map List.length).sum

/-- `__iter__` : client by client. -/
def iter (q : CPIReqQueue F G) : List G := q.clientWaitingQueues.values.flatten

/-! ## Charging -/

section Charge
variable [Field F] [LinearOrder F]

/-- The cost of a prefill with `hit` cached and `miss` computed tokens. -/
def prefillCost (q : CPIReqQueue F G) (hit miss : F) : F := q.hitWeight * hit + q.prefillWeight * miss

/-- Charge one client's prefill; its credits pay first. The four counters of a client are created together. -/
def chargePrefill (q : CPIReqQueue F G) (c : ClientId) (prefillHitState : F × F) : CPIReqQueue F G :=
  let cost := q.prefillCost prefillHitState.1 prefillHitState.2
  let D := (q.credits.lookup c).getD 0
  let netCost := max 0 (cost - D)
  { q with
    served := q.served.upsert c fun v => v.getD 0 + netCost
    credits := q.credits.set c (max 0 (D - cost))
    servedRequests := q.servedRequests.upsert c fun v => v.getD 0 + 1
    servedTokens := q.servedTokens.upsert c fun v => v.getD 0 + (prefillHitState.1 + prefillHitState.2)
    hitTokensCount := q.hitTokensCount.upsert c fun v => v.getD 0 + prefillHitState.1
    missTokensCount := q.missTokensCount.upsert c fun v => v.getD 0 + prefillHitState.2 }

/-- The credit of a client. -/
def credit (q : CPIReqQueue F G) (c : ClientId) : F := (q.credits.lookup c).getD 0

omit [LinearOrder F] in
theorem score_upsert (q : CPIReqQueue F G) (c a : ClientId) (f : Option F → F) :
    score { q with served := q.served.upsert c f } a = if a = c then f (q.served.lookup a) else q.score a := by
  simp only [score, Dict.lookup_upsert]
  split_ifs <;> rfl

theorem score_chargePrefill (q : CPIReqQueue F G) (c a : ClientId) (p : F × F) :
    (q.chargePrefill c p).score a =
      if a = c then q.score a + max 0 (q.prefillCost p.1 p.2 - q.credit c) else q.score a :=
  score_upsert q c a _

theorem credit_chargePrefill (q : CPIReqQueue F G) (c a : ClientId) (p : F × F) :
    (q.chargePrefill c p).credit a =
      if a = c then max 0 (q.credit c - q.prefillCost p.1 p.2) else q.credit a := by
  simp only [credit, chargePrefill, Dict.lookup_set]
  split_ifs <;> rfl

theorem mem_served_chargePrefill (q : CPIReqQueue F G) (c a : ClientId) (p : F × F) :
    a ∈ (q.chargePrefill c p).served ↔ a = c ∨ a ∈ q.served := Dict.mem_set _ _ _ _

@[simp] theorem waiting_chargePrefill (q : CPIReqQueue F G) (c a : ClientId) (p : F × F) :
    (q.chargePrefill c p).waiting a = q.waiting a := rfl

/-- Add a client's credit. -/
def addCredit (q : CPIReqQueue F G) (c : ClientId) (credit : F) : CPIReqQueue F G :=
  { q with credits := q.credits.upsert c fun v => v.getD 0 + credit }

/-- `update_prefill_served` : first the credits, then the charges. -/
def updatePrefillServed (q : CPIReqQueue F G) (prefillServed : Dict ClientId (F × F))
    (credits : Option (Dict ClientId F)) : CPIReqQueue F G :=
  let q := ((credits.map (·.entries)).getD []).foldl (fun q e => q.addCredit e.1 e.2) q
  prefillServed.entries.foldl (fun q e => q.chargePrefill e.1 e.2) q

end Charge

end CPIReqQueue

end FairCache
