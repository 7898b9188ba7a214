import FairCache.Scheduler.Preemption

/-!
# The waiting queue of the scheduler

What the scheduling policies call on `self.waiting`, for either fair queue.

* `append`, `peek`, `extendleft`, `remove` : the calls beside those that preemption makes;
* `iter_append`, .. : what a call that returns does to the groups that wait.
-/

namespace FairCache

open Lib

namespace WaitingQueue

variable {F G : Type} [HasClientId G]

/-! ## The calls -/

/-- `append`. -/
def append [Field F] [LinearOrder F] (seqGroup : G) : WaitingQueue F G → Except PyError (WaitingQueue F G)
  | .fair (.cpi q) => (q.append seqGroup).map fun q => .fair (.cpi q)
  | .fair (.req q) => .ok (.fair (.req (q.append seqGroup)))
  | .deque l => .ok (.deque (l ++ [seqGroup]))

omit [HasClientId G] in
/-- `deque[0]`. -/
def front : List G → Except PyError G
  | [] => .error .indexError
  | g :: _ => .ok g

omit [HasClientId G] in
/-- `waiting[0]`. -/
def peek [LinearOrder F] : WaitingQueue F G → Except PyError G
  | .fair (.cpi q) => q.peek
  | .fair (.req q) => front q.waitingQueue
  | .deque l => front l

/-- `extendleft` : one after the other, so that the last one is in front. -/
def extendleft (sgList : List G) : WaitingQueue F G → Except PyError (WaitingQueue F G)
  | .fair (.cpi q) => (q.extendleft sgList).map fun q => .fair (.cpi q)
  | .fair (.req q) => .ok (.fair (.req (q.extendleft sgList)))
  | .deque l => .ok (.deque (sgList.reverse ++ l))

omit [HasClientId G] in
/-- `remove`. -/
def remove [DecidableEq G] (seqGroup : G) : WaitingQueue F G → Except PyError (WaitingQueue F G)
  | .fair (.cpi q) => .ok (.fair (.cpi (q.remove seqGroup)))
  | .fair (.req q) => (q.remove seqGroup).map fun q => .fair (.req q)
  | .deque l =>
    if seqGroup ∈ l then .ok (.deque (l.erase seqGroup)) else .error (.valueError "deque.remove(x): x not in deque")

/-! ## The groups that wait -/

section Iter
variable {w w' : WaitingQueue F G} {g : G}

theorem iter_append [Field F] [LinearOrder F] (h : w.append g = .ok w') : w'.iter.Perm (g :: w.iter) := by
  match w with
  | .fair (.cpi q) =>
    obtain ⟨q', hq, rfl⟩ := map_ok h
    have hqueues : q'.clientWaitingQueues = (q.enqueue g).clientWaitingQueues := by
      rcases CPIReqQueue.append_ok hq with ⟨rfl, -⟩ | ⟨-, least, -, rfl⟩ <;> rfl
    rw [CPIReqQueue.clientWaitingQueues_enqueue] at hqueues
    have hold := (CPIReqQueue.iter_perm q (clientId g)).cons g
    refine (CPIReqQueue.iter_perm_of_set hqueues).trans (List.Perm.trans ?_ hold.symm)
    exact (List.perm_append_singleton g _).append_right _
  | .fair (.req q) =>
    cases h
    have hiter : (q.append g).waitingQueue = q.waitingQueue ++ [g] := by
      unfold ReqQueue.append
      dsimp only
      split_ifs
      · split <;> rfl
      · rfl
    show (q.append g).waitingQueue.Perm _
    rw [hiter]
    exact List.perm_append_singleton g _
  | .deque l => cases h; exact List.perm_append_singleton g l

/-- A pop takes the group that `waiting[0]` is. -/
theorem popleft_eq_peek [LinearOrder F] {g' : G} (hpeek : w.peek = .ok g) (h : w.popleft = .ok (g', w')) :
    g' = g := by
  match w with
  | .fair (.cpi q) =>
    obtain ⟨r, hq, heq⟩ := map_ok h
    cases heq
    change q.peek = .ok g at hpeek
    unfold CPIReqQueue.peek at hpeek
    unfold CPIReqQueue.popleft at hq
    cases hsel : CPIReqQueue.selectClient q.clientWaitingQueues q.served with
    | error e => rw [hsel] at hq; cases hq
    | ok c =>
      rw [hsel] at hq hpeek
      dsimp only at hq hpeek
      cases hwait : q.waiting c with
      | nil => rw [hwait] at hq; cases hq
      | cons g₁ rest => rw [hwait] at hq hpeek; cases hq; cases hpeek; rfl
  | .fair (.req q) =>
    obtain ⟨r, hq, heq⟩ := map_ok h
    cases heq
    change front q.waitingQueue = .ok g at hpeek
    unfold ReqQueue.popleft at hq
    cases hwait : q.waitingQueue with
    | nil => rw [hwait] at hq; cases hq
    | cons g₁ rest => rw [hwait] at hq hpeek; cases hq; cases hpeek; rfl
  | .deque [] => cases h
  | .deque (g₁ :: l) => cases h; cases hpeek; rfl

theorem iter_extendleft {gs : List G} : ∀ {w w' : WaitingQueue F G}, w.extendleft gs = .ok w' →
    w'.iter.Perm (gs ++ w.iter)
  | .fair (.cpi q), w', h => by
    obtain ⟨q', hq, rfl⟩ := map_ok h
    clear h
    induction gs generalizing q with
    | nil => cases hq; exact List.Perm.refl _
    | cons g gs ih =>
      unfold CPIReqQueue.extendleft at hq
      rw [List.foldlM_cons] at hq
      obtain ⟨q₁, hq₁, hq⟩ := bind_ok hq
      have hone : (WaitingQueue.fair (.cpi q₁)).iter.Perm (g :: (WaitingQueue.fair (.cpi q)).iter) :=
        iter_appendleft (show (WaitingQueue.fair (.cpi q)).appendleft g = .ok (.fair (.cpi q₁)) by
          rw [appendleft, hq₁]; rfl)
      exact (ih q₁ hq).trans ((hone.append_left gs).trans List.perm_middle)
  | .fair (.req q), w', h => by
    cases h
    show (q.extendleft gs).waitingQueue.Perm (gs ++ q.waitingQueue)
    induction gs generalizing q with
    | nil => exact List.Perm.refl _
    | cons g gs ih =>
      have hone : (q.extendleft (g :: gs)).waitingQueue.Perm (gs ++ (q.appendleft g).waitingQueue) := ih (q.appendleft g)
      exact hone.trans List.perm_middle
  | .deque l, w', h => by
    cases h
    exact (List.reverse_perm gs).append_right l

omit [HasClientId G] in
/-- A removal that returns takes the group out, if it waits. -/
theorem iter_remove [DecidableEq G] (hg : g ∈ w.iter) (h : w.remove g = .ok w') : w.iter.Perm (g :: w'.iter) := by
  match w with
  | .fair (.cpi q) =>
    cases h
    rcases CPIReqQueue.remove_cases q g with ⟨hnot, -⟩ | ⟨c, hc, heq⟩
    · exact absurd hg hnot
    · show q.iter.Perm (g :: (q.remove g).iter)
      have hnew := CPIReqQueue.iter_perm_of_set (congrArg (·.clientWaitingQueues) heq)
      have hold := CPIReqQueue.iter_perm q c
      exact hold.trans (((List.perm_cons_erase hc).append_right _).trans (hnew.symm.cons g))
  | .fair (.req q) =>
    obtain ⟨q', hq, rfl⟩ := map_ok h
    unfold ReqQueue.remove at hq
    split_ifs at hq with hmem
    cases hq
    exact List.perm_cons_erase hmem
  | .deque l =>
    rw [remove, if_pos (show g ∈ l from hg)] at h
    cases h
    exact List.perm_cons_erase hg

omit [HasClientId G] in
theorem iter_chargeDecode [Field F] {c : ClientId} (h : w.chargeDecode c = .ok w') : w'.iter = w.iter := by
  match w with
  | .fair (.cpi q) =>
    obtain ⟨q', hq, rfl⟩ := map_ok h
    unfold CPIReqQueue.chargeDecode at hq
    split at hq
    · cases hq
    · cases hq; rfl
  | .fair (.req q) =>
    rw [chargeDecode] at h
    cases hserved : q.served.lookup c with
    | none => rw [hserved] at h; cases h
    | some v => rw [hserved] at h; cases h; rfl
  | .deque l => cases h

omit [HasClientId G] in
theorem iter_updatePrefillServed [Field F] [LinearOrder F] {p : Dict ClientId (F × F)}
    {credits : Option (Dict ClientId F)} (h : w.updatePrefillServed p credits = .ok w') : w'.iter = w.iter := by
  match w with
  | .fair (.cpi q) =>
    cases h
    show CPIReqQueue.iter _ = CPIReqQueue.iter _
    rw [CPIReqQueue.iter, CPIReqQueue.clientWaitingQueues_updatePrefillServed, CPIReqQueue.iter]
  | .fair (.req q) =>
    cases h
    exact (ReqQueue.updatePrefillServed_kept q p).1
  | .deque l => cases h

omit [HasClientId G] in
theorem isNonempty_iff : w.isNonempty = true ↔ w.iter ≠ [] := by
  match w with
  | .fair (.cpi q) =>
    show q.isNonempty = true ↔ q.iter ≠ []
    unfold CPIReqQueue.isNonempty CPIReqQueue.iter
    rw [List.any_eq_true, ne_eq, List.flatten_eq_nil_iff]
    simp
  | .fair (.req q) =>
    show (!q.waitingQueue.isEmpty) = true ↔ q.waitingQueue ≠ []
    cases q.waitingQueue <;> simp
  | .deque l =>
    show (!l.isEmpty) = true ↔ l ≠ []
    cases l <;> simp

end Iter

end WaitingQueue

end FairCache
