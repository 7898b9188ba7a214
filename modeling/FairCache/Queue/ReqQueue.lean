import FairCache.Lib.Run
import FairCache.Queue.CPIReqQueue
import Mathlib.Tactic.Linarith

/-!
# The baseline queue

`ReqQueue` keeps one queue for all clients, with a counter of what each client has in it. A removal does not count, and
a client that returns to the queue starts from nothing.

* `append`, `appendleft`, `extendleft`, `popleft`, `remove`, `updatePrefillServed` : the operations;
* `Counted` : the counter says what waits; `NeverFalls` : no score falls;
* `Consistent` : an operation leaves the counter right and lets no score fall; `Meets` : when it does;
  `consistent_step_iff` : for one operation; `consistent_iff` : for runs.
-/

namespace FairCache

open Lib

/-- The queue, its counter and the scoreboards. -/
structure ReqQueue (F G : Type) where
  hitWeight : F
  prefillWeight : F
  decodeWeight : F
  served : Dict ClientId F
  waitingQueue : List G
  clientCounter : Dict ClientId ℤ
  servedRequests : Dict ClientId ℕ
  servedTokens : Dict ClientId F
  hitTokensCount : Dict ClientId F
  missTokensCount : Dict ClientId F

namespace ReqQueue

variable {F G : Type}

/-- An empty queue. -/
def new (G : Type) (hitWeight prefillWeight decodeWeight : F) : ReqQueue F G :=
  { hitWeight := hitWeight, prefillWeight := prefillWeight, decodeWeight := decodeWeight, served := ∅
    waitingQueue := [], clientCounter := ∅, servedRequests := ∅, servedTokens := ∅, hitTokensCount := ∅
    missTokensCount := ∅ }

/-- `client_counter[c]`, zero without an entry. -/
def counter (q : ReqQueue F G) (c : ClientId) : ℤ := (q.clientCounter.lookup c).getD 0

/-- `get_client_queue_lengths`. -/
def getClientQueueLengths (q : ReqQueue F G) : Dict ClientId ℤ := q.clientCounter

/-- A client's score, zero for a client without one. -/
def score [Zero F] (q : ReqQueue F G) (c : ClientId) : F := (q.served.lookup c).getD 0

/-- `cnts` : the scores of the other clients that the counter takes for waiting. -/
def otherScores (q : ReqQueue F G) (c : ClientId) : List F :=
  (q.served.entries.filter fun e => e.1 ≠ c ∧ 0 < q.counter e.1).map (·.2)

section Enter
variable [HasClientId G]

/-- `appendleft` : a preempted request goes back to the front. -/
def appendleft (q : ReqQueue F G) (seqGroup : G) : ReqQueue F G :=
  { q with
    waitingQueue := seqGroup :: q.waitingQueue
    clientCounter := q.clientCounter.upsert (clientId seqGroup) fun v => v.getD 0 + 1 }

/-- `extendleft`. -/
def extendleft (q : ReqQueue F G) (sgList : List G) : ReqQueue F G := sgList.foldl appendleft q

variable [Field F] [LinearOrder F]

/-- The queue with `seqGroup` at its end; a client that is not counted scores zero. -/
def enqueue (q : ReqQueue F G) (seqGroup : G) : ReqQueue F G :=
  { q with
    served := if q.counter (clientId seqGroup) = 0 then q.served.set (clientId seqGroup) 0 else q.served
    waitingQueue := q.waitingQueue ++ [seqGroup]
    clientCounter := q.clientCounter.upsert (clientId seqGroup) fun v => v.getD 0 + 1 }

/-- `append` : a client that was not counted is lifted to the least score of the others that are. -/
def append (q : ReqQueue F G) (seqGroup : G) : ReqQueue F G :=
  let c := clientId seqGroup
  let q := q.enqueue seqGroup
  if q.counter c = 1 then
    match (q.otherScores c).min? with
    | none => q
    | some least => { q with served := q.served.upsert c fun v => max (v.getD 0) least }
  else q

end Enter

/-- `popleft`. -/
def popleft [HasClientId G] (q : ReqQueue F G) : Except PyError (G × ReqQueue F G) :=
  match q.waitingQueue with
  | [] => .error .indexError
  | request :: rest =>
    let c := clientId request
    let counted := q.clientCounter.upsert c fun v => v.getD 0 - 1
    .ok (request, { q with
      waitingQueue := rest
      clientCounter := if (counted.lookup c).getD 0 = 0 then counted.erase c else counted })

/-- `remove`. -/
def remove [DecidableEq G] (q : ReqQueue F G) (seqGroup : G) : Except PyError (ReqQueue F G) :=
  if seqGroup ∈ q.waitingQueue then .ok { q with waitingQueue := q.waitingQueue.erase seqGroup }
  else .error (.valueError "deque.remove(x): x not in deque")

section Charge
variable [Field F]

/-- Charge one client's prefill. The four counters of a client are created together. -/
def chargePrefill (q : ReqQueue F G) (c : ClientId) (prefillHitState : F × F) : ReqQueue F G :=
  { q with
    served := q.served.upsert c fun v =>
      v.getD 0 + (q.hitWeight * prefillHitState.1 + q.prefillWeight * prefillHitState.2)
    servedRequests := q.servedRequests.upsert c fun v => v.getD 0 + 1
    servedTokens := q.servedTokens.upsert c fun v => v.getD 0 + (prefillHitState.1 + prefillHitState.2)
    hitTokensCount := q.hitTokensCount.upsert c fun v => v.getD 0 + prefillHitState.1
    missTokensCount := q.missTokensCount.upsert c fun v => v.getD 0 + prefillHitState.2 }

/-- `update_prefill_served`, which does not read its credits; its four log files are left out. -/
def updatePrefillServed (q : ReqQueue F G) (prefillServed : Dict ClientId (F × F)) : ReqQueue F G :=
  prefillServed.entries.foldl (fun q e => q.chargePrefill e.1 e.2) q

end Charge

/-! ## Runs -/

/-- One operation. -/
inductive Op (F G : Type)
  | append (seqGroup : G)
  | appendleft (seqGroup : G)
  | extendleft (sgList : List G)
  | popleft
  | remove (seqGroup : G)
  | updatePrefillServed (prefillServed : Dict ClientId (F × F))

section Step
variable [Field F] [LinearOrder F] [HasClientId G] [DecidableEq G]

/-- The state after an operation. -/
def step (q : ReqQueue F G) : Op F G → Except PyError (ReqQueue F G)
  | .append seqGroup => .ok (q.append seqGroup)
  | .appendleft seqGroup => .ok (q.appendleft seqGroup)
  | .extendleft sgList => .ok (q.extendleft sgList)
  | .popleft => q.popleft.map Prod.snd
  | .remove seqGroup => q.remove seqGroup
  | .updatePrefillServed prefillServed => .ok (q.updatePrefillServed prefillServed)

/-- The amounts of the operation are not negative. -/
def Op.Nonneg : Op F G → Prop
  | .updatePrefillServed prefillServed => ∀ e ∈ prefillServed.entries, 0 ≤ e.2.1 ∧ 0 ≤ e.2.2
  | _ => True

/-- The groups of a client that wait. -/
def waitingOf (q : ReqQueue F G) (c : ClientId) : ℕ := q.waitingQueue.countP fun g => clientId g = c

omit [Field F] [LinearOrder F] [DecidableEq G] in
/-- The counter says for every client how many of its groups wait. -/
def Counted (q : ReqQueue F G) : Prop := ∀ c, (q.getClientQueueLengths.lookup c).getD 0 = (q.waitingOf c : ℤ)

/-- No score falls. -/
def NeverFalls (q q' : ReqQueue F G) : Prop :=
  ∀ c v, q.served.lookup c = some v → ∃ v', q'.served.lookup c = some v' ∧ v ≤ v'

/-- The operation leaves the counter right and lets no score fall. -/
def Consistent (q : ReqQueue F G) (op : Op F G) : Prop := ∀ q', step q op = .ok q' → Counted q' ∧ NeverFalls q q'

/-- When it does: it is not a removal, and a client that is not counted when it enters has no score that the scores of
the others do not make up for. -/
def Meets (q : ReqQueue F G) : Op F G → Prop
  | .append seqGroup => q.counter (clientId seqGroup) ≠ 0 ∨ q.score (clientId seqGroup) ≤ 0 ∨
      (q.otherScores (clientId seqGroup) ≠ [] ∧
        ∀ x ∈ q.otherScores (clientId seqGroup), q.score (clientId seqGroup) ≤ x)
  | .remove _ => False
  | _ => True

/-! ## What one operation does -/

/-- The weights of charges are the same. -/
def SameWeights (q' q : ReqQueue F G) : Prop := q'.hitWeight = q.hitWeight ∧ q'.prefillWeight = q.prefillWeight

section Counters
omit [Field F] [LinearOrder F] [DecidableEq G]

theorem counter_eq {q : ReqQueue F G} (h : Counted q) (c : ClientId) : q.counter c = q.waitingOf c := h c

theorem counter_appendleft (q : ReqQueue F G) (seqGroup : G) (c : ClientId) :
    (q.appendleft seqGroup).counter c = q.counter c + if c = clientId seqGroup then 1 else 0 := by
  unfold counter appendleft
  rw [Dict.lookup_upsert]
  split_ifs with hc
  · rw [Option.getD_some]
  · rw [add_zero]

theorem waitingOf_cons (q : ReqQueue F G) (seqGroup : G) (c : ClientId) :
    (q.appendleft seqGroup).waitingOf c = q.waitingOf c + if c = clientId seqGroup then 1 else 0 := by
  unfold waitingOf appendleft
  rw [List.countP_cons]
  congr 1
  exact if_congr (decide_eq_true_iff.trans eq_comm) rfl rfl

theorem counted_appendleft {q : ReqQueue F G} (h : Counted q) (seqGroup : G) : Counted (q.appendleft seqGroup) := by
  intro c
  change (q.appendleft seqGroup).counter c = _
  rw [counter_appendleft, waitingOf_cons, counter_eq h]
  push_cast
  rfl

theorem counted_extendleft {sgList : List G} : ∀ {q : ReqQueue F G}, Counted q → Counted (q.extendleft sgList) := by
  induction sgList with
  | nil => intro q h; exact h
  | cons seqGroup sgList ih => intro q h; exact ih (counted_appendleft h seqGroup)

theorem extendleft_kept (sgList : List G) :
    ∀ q : ReqQueue F G, (q.extendleft sgList).served = q.served ∧ (q.extendleft sgList).SameWeights q := by
  induction sgList with
  | nil => intro q; exact ⟨rfl, rfl, rfl⟩
  | cons seqGroup sgList ih => intro q; exact ih (q.appendleft seqGroup)

omit [HasClientId G] in
/-- An entry that is zero may as well be deleted. -/
theorem getD_lookup_erase_zero (counted : Dict ClientId ℤ) (c a : ClientId) :
    ((if (counted.lookup c).getD 0 = 0 then counted.erase c else counted).lookup a).getD 0 =
      (counted.lookup a).getD 0 := by
  split_ifs with hzero
  · by_cases ha : a = c
    · subst ha
      rw [AList.lookup_erase, hzero]
      rfl
    · rw [AList.lookup_erase_ne ha]
  · rfl

/-- A group that leaves from the front is counted out. -/
theorem counted_popleft {q q' : ReqQueue F G} {request : G} (h : Counted q) (hpop : q.popleft = .ok (request, q')) :
    Counted q' ∧ q'.served = q.served ∧ q'.SameWeights q := by
  unfold popleft at hpop
  cases hq : q.waitingQueue with
  | nil => rw [hq] at hpop; cases hpop
  | cons g rest =>
    rw [hq] at hpop
    cases hpop
    refine ⟨fun c => ?_, rfl, rfl, rfl⟩
    have hbefore := counter_eq h c
    rw [counter, waitingOf, hq, List.countP_cons] at hbefore
    refine (getD_lookup_erase_zero _ _ _).trans ?_
    change _ = ((rest.countP fun g => clientId g = c : ℕ) : ℤ)
    rw [Dict.lookup_upsert]
    by_cases hc : c = clientId request
    · rw [if_pos (decide_eq_true hc.symm)] at hbefore
      rw [if_pos hc, Option.getD_some, hbefore]
      omega
    · rw [if_neg (mt of_decide_eq_true (Ne.symm hc))] at hbefore
      rw [if_neg hc, hbefore]
      rfl

/-- A group that is removed stays counted. -/
theorem not_counted_remove [DecidableEq G] {q q' : ReqQueue F G} {seqGroup : G} (h : Counted q)
    (hremove : q.remove seqGroup = .ok q') : ¬ Counted q' := by
  unfold remove at hremove
  split_ifs at hremove with hmem
  cases hremove
  intro h'
  have hbefore := counter_eq h (clientId seqGroup)
  have hafter : q.counter (clientId seqGroup) =
      ((q.waitingQueue.erase seqGroup).countP fun g => clientId g = clientId seqGroup : ℕ) := h' (clientId seqGroup)
  have hcount := (List.perm_cons_erase hmem).countP_eq fun g => decide (clientId g = clientId seqGroup)
  rw [List.countP_cons, if_pos (decide_eq_true rfl)] at hcount
  rw [waitingOf] at hbefore
  omega

end Counters

section Scores
omit [LinearOrder F] [HasClientId G] [DecidableEq G]

/-- Charges leave the queue and its counter alone. -/
theorem updatePrefillServed_kept (q : ReqQueue F G) (prefillServed : Dict ClientId (F × F)) :
    (q.updatePrefillServed prefillServed).waitingQueue = q.waitingQueue ∧
      (q.updatePrefillServed prefillServed).clientCounter = q.clientCounter ∧
      (q.updatePrefillServed prefillServed).SameWeights q := by
  have hfold : ∀ (l : List (Sigma fun _ : ClientId => F × F)) (q : ReqQueue F G),
      (l.foldl (fun q e => q.chargePrefill e.1 e.2) q).waitingQueue = q.waitingQueue ∧
        (l.foldl (fun q e => q.chargePrefill e.1 e.2) q).clientCounter = q.clientCounter ∧
        (l.foldl (fun q e => q.chargePrefill e.1 e.2) q).SameWeights q := by
    intro l
    induction l with
    | nil => intro q; exact ⟨rfl, rfl, rfl, rfl⟩
    | cons e l ih => intro q; exact ih (q.chargePrefill e.1 e.2)
  exact hfold _ q

end Scores

section Served
omit [HasClientId G] [DecidableEq G]

omit [Field F] in
theorem NeverFalls.of_served_eq {q q' : ReqQueue F G} (h : q'.served = q.served) : NeverFalls q q' :=
  fun _ v hv => ⟨v, h ▸ hv, le_rfl⟩

omit [Field F] in
theorem NeverFalls.trans {q q' q'' : ReqQueue F G} (h : NeverFalls q q') (h' : NeverFalls q' q'') : NeverFalls q q'' := by
  intro c v hv
  obtain ⟨v', hv', hle⟩ := h c v hv
  obtain ⟨v'', hv'', hle'⟩ := h' c v' hv'
  exact ⟨v'', hv'', hle.trans hle'⟩

omit [Field F] in
/-- A score that is set does not fall if it is not set below what it was. -/
theorem neverFalls_iff_of_lookup {q q' : ReqQueue F G} {c : ClientId} {x : F}
    (h : ∀ a, q'.served.lookup a = if a = c then some x else q.served.lookup a) :
    NeverFalls q q' ↔ ∀ v, q.served.lookup c = some v → v ≤ x := by
  unfold NeverFalls
  simp only [h]
  constructor
  · intro hall v hv
    obtain ⟨v', hv', hle⟩ := hall c v hv
    rw [if_pos rfl] at hv'
    exact Option.some.inj hv' ▸ hle
  · intro hc a v hv
    by_cases ha : a = c
    · subst ha
      exact ⟨x, if_pos rfl, hc v hv⟩
    · exact ⟨v, (if_neg ha).trans hv, le_rfl⟩

variable [IsStrictOrderedRing F]

/-- Charges of amounts that are not negative let no score fall. -/
theorem neverFalls_updatePrefillServed {q : ReqQueue F G} {prefillServed : Dict ClientId (F × F)}
    (hhit : 0 ≤ q.hitWeight) (hprefill : 0 ≤ q.prefillWeight)
    (hnonneg : ∀ e ∈ prefillServed.entries, 0 ≤ e.2.1 ∧ 0 ≤ e.2.2) :
    NeverFalls q (q.updatePrefillServed prefillServed) := by
  have hfold : ∀ (l : List (Sigma fun _ : ClientId => F × F)) (q : ReqQueue F G), 0 ≤ q.hitWeight →
      0 ≤ q.prefillWeight → (∀ e ∈ l, 0 ≤ e.2.1 ∧ 0 ≤ e.2.2) →
      NeverFalls q (l.foldl (fun q e => q.chargePrefill e.1 e.2) q) := by
    intro l
    induction l with
    | nil => intro q _ _ _; exact NeverFalls.of_served_eq rfl
    | cons e l ih =>
      intro q hhit hprefill hl
      have hhead : NeverFalls q (q.chargePrefill e.1 e.2) := by
        obtain ⟨hfst, hsnd⟩ := hl e List.mem_cons_self
        have hcost := add_nonneg (mul_nonneg hhit hfst) (mul_nonneg hprefill hsnd)
        have hlookup : ∀ a, (q.chargePrefill e.1 e.2).served.lookup a = if a = e.1 then
            some ((q.served.lookup e.1).getD 0 + (q.hitWeight * e.2.1 + q.prefillWeight * e.2.2))
            else q.served.lookup a := by
          intro a
          refine (Dict.lookup_upsert _ _ _ _).trans ?_
          split_ifs with ha
          · rw [ha]
          · rfl
        refine (neverFalls_iff_of_lookup hlookup).mpr fun v hv => ?_
        rw [hv, Option.getD_some]
        exact le_add_of_nonneg_right hcost
      exact hhead.trans (ih _ hhit hprefill fun e he => hl e (List.mem_cons_of_mem _ he))
  exact hfold _ q hhit hprefill hnonneg

end Served

/-! ## Entering at the end -/

section Append
omit [DecidableEq G]

omit [Field F] [LinearOrder F] [HasClientId G] in
theorem mem_otherScores {q : ReqQueue F G} {c : ClientId} {x : F} :
    x ∈ q.otherScores c ↔ ∃ k, k ≠ c ∧ 0 < q.counter k ∧ q.served.lookup k = some x := by
  rw [otherScores, List.mem_map]
  constructor
  · rintro ⟨e, he, rfl⟩
    obtain ⟨hmem, hk⟩ := List.mem_filter.mp he
    obtain ⟨hne, hpos⟩ := of_decide_eq_true hk
    exact ⟨e.1, hne, hpos, (Dict.lookup_eq_some_iff _ e.1 e.2).mpr hmem⟩
  · rintro ⟨k, hne, hpos, hlookup⟩
    exact ⟨⟨k, x⟩, List.mem_filter.mpr ⟨(Dict.lookup_eq_some_iff _ k x).mp hlookup, decide_eq_true ⟨hne, hpos⟩⟩, rfl⟩

omit [LinearOrder F] in
theorem counter_enqueue (q : ReqQueue F G) (seqGroup : G) (c : ClientId) :
    (q.enqueue seqGroup).counter c = q.counter c + if c = clientId seqGroup then 1 else 0 :=
  counter_appendleft q seqGroup c

theorem append_kept (q : ReqQueue F G) (seqGroup : G) :
    (q.append seqGroup).waitingQueue = q.waitingQueue ++ [seqGroup] ∧
      (q.append seqGroup).clientCounter = (q.enqueue seqGroup).clientCounter ∧ (q.append seqGroup).SameWeights q := by
  unfold append
  dsimp only
  split_ifs
  · split <;> exact ⟨rfl, rfl, rfl, rfl⟩
  · exact ⟨rfl, rfl, rfl, rfl⟩

theorem counted_append {q : ReqQueue F G} (h : Counted q) (seqGroup : G) : Counted (q.append seqGroup) := by
  intro c
  obtain ⟨hqueue, hcounter, -⟩ := append_kept q seqGroup
  rw [getClientQueueLengths, hcounter, waitingOf, hqueue, List.countP_append, List.countP_singleton]
  refine (counter_enqueue q seqGroup c).trans ?_
  rw [counter_eq h, waitingOf]
  by_cases hc : c = clientId seqGroup
  · rw [if_pos hc, if_pos (decide_eq_true hc.symm)]
    rfl
  · rw [if_neg hc, if_neg (mt of_decide_eq_true (Ne.symm hc))]
    rfl

/-- A counted client keeps its score. -/
theorem served_append_of_counted {q : ReqQueue F G} {seqGroup : G} (h : q.counter (clientId seqGroup) ≠ 0) :
    (q.append seqGroup).served = q.served := by
  have hnot : (q.enqueue seqGroup).counter (clientId seqGroup) ≠ 1 := by
    rw [counter_enqueue, if_pos rfl]
    omega
  rw [append, if_neg hnot]
  exact if_neg h

/-- What an uncounted client is lifted to. -/
def liftedScore (q : ReqQueue F G) (seqGroup : G) : F :=
  (((q.enqueue seqGroup).otherScores (clientId seqGroup)).min?.map (max 0)).getD 0

omit [LinearOrder F] in
theorem mem_otherScores_enqueue {q : ReqQueue F G} {seqGroup : G} (h : q.counter (clientId seqGroup) = 0) {x : F} :
    x ∈ (q.enqueue seqGroup).otherScores (clientId seqGroup) ↔ x ∈ q.otherScores (clientId seqGroup) := by
  have hserved : (q.enqueue seqGroup).served = q.served.set (clientId seqGroup) 0 := if_pos h
  rw [mem_otherScores, mem_otherScores]
  refine exists_congr fun k => and_congr_right fun hk => ?_
  rw [counter_enqueue, if_neg hk, add_zero, hserved, Dict.lookup_set_ne _ _ hk]

theorem le_liftedScore_iff {q : ReqQueue F G} {seqGroup : G} (h : q.counter (clientId seqGroup) = 0) {v : F} :
    v ≤ q.liftedScore seqGroup ↔ v ≤ 0 ∨
      (q.otherScores (clientId seqGroup) ≠ [] ∧ ∀ x ∈ q.otherScores (clientId seqGroup), v ≤ x) := by
  unfold liftedScore
  cases hmin : ((q.enqueue seqGroup).otherScores (clientId seqGroup)).min? with
  | none =>
    have hnil : q.otherScores (clientId seqGroup) = [] := by
      refine List.eq_nil_iff_forall_not_mem.mpr fun x hx => ?_
      have hx := (mem_otherScores_enqueue h).mpr hx
      rw [List.min?_eq_none_iff.mp hmin] at hx
      exact List.not_mem_nil hx
    rw [hnil]
    exact (or_iff_left fun hne => hne.1 rfl).symm
  | some least =>
    obtain ⟨hmem, hle⟩ := List.min?_eq_some_iff.mp hmin
    have hmem := (mem_otherScores_enqueue h).mp hmem
    rw [Option.map_some, Option.getD_some, le_max_iff]
    refine or_congr_right ⟨fun hv => ⟨List.ne_nil_of_mem hmem, fun x hx => ?_⟩, fun hall => hall.2 least hmem⟩
    exact hv.trans (hle x ((mem_otherScores_enqueue h).mpr hx))

/-- An uncounted client starts from zero and is lifted. -/
theorem lookup_served_append_of_not_counted {q : ReqQueue F G} {seqGroup : G}
    (h : q.counter (clientId seqGroup) = 0) (a : ClientId) :
    (q.append seqGroup).served.lookup a =
      if a = clientId seqGroup then some (q.liftedScore seqGroup) else q.served.lookup a := by
  have hserved : (q.enqueue seqGroup).served = q.served.set (clientId seqGroup) 0 := if_pos h
  have hone : (q.enqueue seqGroup).counter (clientId seqGroup) = 1 := by
    rw [counter_enqueue, if_pos rfl, h]
    rfl
  rw [append, if_pos hone, liftedScore]
  cases ((q.enqueue seqGroup).otherScores (clientId seqGroup)).min? with
  | none =>
    refine (congrArg (AList.lookup a) hserved).trans ?_
    exact Dict.lookup_set ..
  | some least =>
    refine (Dict.lookup_upsert _ _ _ _).trans ?_
    rw [hserved, Dict.lookup_set]
    split_ifs <;> rfl

/-- When an append lets no score fall. -/
theorem neverFalls_append_iff {q : ReqQueue F G} {seqGroup : G} (h : q.counter (clientId seqGroup) = 0) :
    NeverFalls q (q.append seqGroup) ↔ q.score (clientId seqGroup) ≤ 0 ∨
      (q.otherScores (clientId seqGroup) ≠ [] ∧
        ∀ x ∈ q.otherScores (clientId seqGroup), q.score (clientId seqGroup) ≤ x) := by
  rw [neverFalls_iff_of_lookup (lookup_served_append_of_not_counted h), ← le_liftedScore_iff h, score]
  cases q.served.lookup (clientId seqGroup) with
  | none =>
    refine iff_of_true (fun v hv => (by cases hv)) ?_
    exact (le_liftedScore_iff h).mpr (Or.inl le_rfl)
  | some v => exact ⟨fun hall => hall v rfl, fun hle w hw => Option.some.inj hw ▸ hle⟩

end Append

/-! ## Whole runs -/

variable [IsStrictOrderedRing F]

/-- **When one operation leaves the counter right and lets no score fall.** -/
theorem consistent_step_iff {q q' : ReqQueue F G} {op : Op F G} (hhit : 0 ≤ q.hitWeight)
    (hprefill : 0 ≤ q.prefillWeight) (hnonneg : op.Nonneg) (h : Counted q) (hstep : step q op = .ok q') :
    Meets q op ↔ Counted q' ∧ NeverFalls q q' := by
  cases op with
  | append seqGroup =>
    cases hstep
    refine Iff.trans ?_ (and_iff_right (counted_append h seqGroup)).symm
    by_cases hcounter : q.counter (clientId seqGroup) = 0
    · exact (or_iff_right fun hne => hne hcounter).trans (neverFalls_append_iff hcounter).symm
    · exact iff_of_true (Or.inl hcounter) (NeverFalls.of_served_eq (served_append_of_counted hcounter))
  | appendleft seqGroup =>
    cases hstep
    exact iff_of_true trivial ⟨counted_appendleft h seqGroup, NeverFalls.of_served_eq rfl⟩
  | extendleft sgList =>
    cases hstep
    exact iff_of_true trivial ⟨counted_extendleft h, NeverFalls.of_served_eq (extendleft_kept sgList q).1⟩
  | popleft =>
    obtain ⟨⟨request, q''⟩, hpop, rfl⟩ := map_ok hstep
    obtain ⟨hcounted, hserved, -⟩ := counted_popleft h hpop
    exact iff_of_true trivial ⟨hcounted, NeverFalls.of_served_eq hserved⟩
  | remove seqGroup => exact iff_of_false id fun hq' => not_counted_remove h hstep hq'.1
  | updatePrefillServed prefillServed =>
    cases hstep
    obtain ⟨hqueue, hcounter, -⟩ := updatePrefillServed_kept q prefillServed
    refine iff_of_true trivial ⟨fun c => ?_, neverFalls_updatePrefillServed hhit hprefill hnonneg⟩
    rw [getClientQueueLengths, hcounter, waitingOf, hqueue]
    exact h c

omit [IsStrictOrderedRing F] in
theorem sameWeights_step {q q' : ReqQueue F G} {op : Op F G} (h : Counted q) (hstep : step q op = .ok q') :
    q'.SameWeights q := by
  cases op with
  | append seqGroup => cases hstep; exact (append_kept q seqGroup).2.2
  | appendleft seqGroup => cases hstep; exact ⟨rfl, rfl⟩
  | extendleft sgList => cases hstep; exact (extendleft_kept sgList q).2
  | popleft =>
    obtain ⟨⟨request, q''⟩, hpop, rfl⟩ := map_ok hstep
    exact (counted_popleft h hpop).2.2
  | remove seqGroup =>
    change q.remove seqGroup = .ok q' at hstep
    unfold remove at hstep
    split_ifs at hstep
    cases hstep
    exact ⟨rfl, rfl⟩
  | updatePrefillServed prefillServed => cases hstep; exact (updatePrefillServed_kept q prefillServed).2.2

/-- **The scoreboards are consistent over a run exactly when each of its operations meets the condition.** -/
theorem consistent_iff {ops : List (Op F G)} {hitWeight prefillWeight decodeWeight : F} {t : ReqQueue F G}
    (hhit : 0 ≤ hitWeight) (hprefill : 0 ≤ prefillWeight) (hnonneg : ∀ op ∈ ops, op.Nonneg)
    (hrun : Reaches step (new G hitWeight prefillWeight decodeWeight) ops t) :
    Along step Consistent (new G hitWeight prefillWeight decodeWeight) ops ↔
      Along step Meets (new G hitWeight prefillWeight decodeWeight) ops := by
  have hnew : Counted (new G hitWeight prefillWeight decodeWeight) := fun c => rfl
  have hstep : ∀ (q : ReqQueue F G) (op : Op F G) q', op.Nonneg →
      ((0 ≤ q.hitWeight ∧ 0 ≤ q.prefillWeight) ∧ Counted q) → step q op = .ok q' →
      ((Meets q op ↔ Consistent q op) ∧ (Meets q op → (0 ≤ q'.hitWeight ∧ 0 ≤ q'.prefillWeight) ∧ Counted q')) := by
    rintro q op q' hop ⟨⟨hhit, hprefill⟩, hcounted⟩ hstep
    have hiff := consistent_step_iff hhit hprefill hop hcounted hstep
    obtain ⟨hhit', hprefill'⟩ := sameWeights_step hcounted hstep
    refine ⟨hiff.trans ⟨fun h q'' hq'' => Except.ok.inj (hstep.symm.trans hq'') ▸ h, fun h => h q' hstep⟩, fun hmeets => ?_⟩
    exact ⟨⟨hhit' ▸ hhit, hprefill' ▸ hprefill⟩, (hiff.mp hmeets).1⟩
  exact (along_iff_along_of_reaches hstep hnonneg ⟨⟨hhit, hprefill⟩, hnew⟩ hrun).symm

end Step

instance [Field F] [LinearOrder F] [HasClientId G] (q : ReqQueue F G) : ∀ op : Op F G, Decidable (Meets q op)
  | .append _ => inferInstanceAs (Decidable (_ ∨ _ ∨ (_ ∧ ∀ x ∈ _, _)))
  | .appendleft _ => isTrue trivial
  | .extendleft _ => isTrue trivial
  | .popleft => isTrue trivial
  | .remove _ => isFalse id
  | .updatePrefillServed _ => isTrue trivial

/-! ## Concrete runs -/

section Examples

/-- A queue with the default weights, whose groups are their clients. -/
def baseline : ReqQueue ℚ ClientId := new ClientId 0 (1 / (10 : ℕ)) (1 / (5 : ℕ))

/-- A charge of ten computed tokens. -/
def tenComputed (c : ClientId) : Op ℚ ClientId :=
  .updatePrefillServed ((∅ : Dict ClientId (ℚ × ℚ)).set c (0, 10))

/-- Two clients come and go, and nobody gives up. -/
def comeAndGo : List (Op ℚ ClientId) :=
  [.append 1, .append 2, .popleft, .append 1, tenComputed 1, .popleft, .appendleft 2]

theorem consistent_comeAndGo : Along step Consistent baseline comeAndGo := by
  have hrun : ∃ t, Reaches step baseline comeAndGo t ∧ Along step Meets baseline comeAndGo := by decide +kernel
  obtain ⟨t, ht, hmeets⟩ := hrun
  have hnonneg : ∀ op ∈ comeAndGo, op.Nonneg := by
    intro op hop
    simp only [comeAndGo, List.mem_cons, List.not_mem_nil, or_false] at hop
    rcases hop with rfl | rfl | rfl | rfl | rfl | rfl | rfl
    case inr.inr.inr.inr.inl =>
      intro e he
      obtain rfl : e = ⟨1, (0, 10)⟩ := List.mem_singleton.mp he
      norm_num
    all_goals trivial
  exact (consistent_iff (by norm_num) (by norm_num) hnonneg ht).mpr hmeets

/-- A group that is removed stays counted, and a client that comes back with nothing in the queue starts from zero. -/
theorem removed_stays_counted :
    ¬ Along step Consistent baseline [.append 1, .remove 1] ∧
      ¬ Along step Consistent baseline [.append 1, .popleft, tenComputed 1, .append 1] := by
  constructor
  · rintro ⟨-, h⟩
    have hcounted := ((h _ rfl).1 _ rfl).1 1
    revert hcounted
    decide +kernel
  · rintro ⟨-, h⟩
    obtain ⟨-, h⟩ := h _ rfl
    obtain ⟨-, h⟩ := h _ rfl
    obtain ⟨v, hv, hle⟩ := ((h _ rfl).1 _ rfl).2 1 1 (by decide +kernel)
    have hzero := hv.symm.trans (show _ = some (0 : ℚ) by decide +kernel)
    rw [Option.some.inj hzero] at hle
    exact absurd hle (by norm_num)

end Examples

end ReqQueue

end FairCache
