import FairCache.Scheduler.EngineRun
import Mathlib.Tactic.Abel

/-!
# No request is lost

* `requests` : the requests of some groups, each as often as it is there;
* `requests_runningLoop`, `requests_swappedLoop`, `requests_prefillLoop` : the loops move groups from one list to another;
* `requests_schedule`, `requests_abortSeqGroup`, .. : so do the operations, and what leaves is reported;
* `Conserved` : every request waits, runs, is swapped or stopped, or was reported, exactly once;
  `conserved_of_reaches` : in every run, with either policy and any block manager.
-/

namespace FairCache

open Lib

variable {T F B : Type}

/-! ## Requests -/

/-- The requests of some groups. -/
def requests (l : List (SequenceGroup T)) : Multiset (NewRequest T) := Multiset.ofList (l.map SequenceGroup.request)

/-- Those of scheduled groups. -/
def scheduledRequests (l : List (ScheduledSequenceGroup T)) : Multiset (NewRequest T) :=
  requests (l.map ScheduledSequenceGroup.seqGroup)

section Requests
variable (g : SequenceGroup T) (l l' : List (SequenceGroup T)) (m m' : List (ScheduledSequenceGroup T))

@[simp] theorem requests_nil : requests ([] : List (SequenceGroup T)) = 0 := rfl

@[simp] theorem requests_cons : requests (g :: l) = {g.request} + requests l := rfl

@[simp] theorem requests_append : requests (l ++ l') = requests l + requests l' := by
  unfold requests
  rw [List.map_append, Multiset.coe_add]

variable {l l'} in
theorem requests_perm (h : l.Perm l') : requests l = requests l' := Multiset.coe_eq_coe.mpr (h.map _)

@[simp] theorem requests_reverse : requests l.reverse = requests l := requests_perm (List.reverse_perm l)

@[simp] theorem scheduledRequests_nil : scheduledRequests ([] : List (ScheduledSequenceGroup T)) = 0 := rfl

@[simp] theorem scheduledRequests_append : scheduledRequests (m ++ m') = scheduledRequests m + scheduledRequests m' := by
  unfold scheduledRequests
  rw [List.map_append, requests_append]

@[simp] theorem scheduledRequests_singleton (n : ℤ) : scheduledRequests [⟨g, n⟩] = {g.request} := rfl

theorem requests_map {f : SequenceGroup T → SequenceGroup T} (hf : ∀ g, (f g).request = g.request) :
    requests (l.map f) = requests l := by
  unfold requests
  rw [List.map_map]
  exact congrArg _ (List.map_congr_left fun g _ => hf g)

end Requests

namespace Scheduler

variable {config : SchedulerConfig} {bm : BlockSpaceManager B}

/-! ## Running groups -/

namespace RunningLoop

/-- What the loop has taken from the running queue. -/
def taken (s : RunningLoop T B) : Multiset (NewRequest T) :=
  scheduledRequests s.decodeSeqGroups + scheduledRequests s.prefillSeqGroups + requests s.preempted +
    requests s.swappedOut + requests s.finished + requests s.asyncStopped

/-- All requests of the loop. -/
def requests (s : RunningLoop T B) : Multiset (NewRequest T) := FairCache.requests s.running + s.taken

end RunningLoop

section Running
variable {finishes : SequenceGroup T → Bool} {g : SequenceGroup T} {n : ℤ} {s s' : RunningLoop T B}

theorem taken_preemptVictim (h : preemptVictim config bm finishes g s = .ok s') : s'.taken = {g.request} + s.taken := by
  unfold preemptVictim at h
  split_ifs at h
  · obtain ⟨b, -, rfl⟩ := map_ok h
    simp only [RunningLoop.taken, requests_append, requests_cons, requests_nil]
    abel
  · obtain ⟨can, -, h⟩ := bind_ok h
    split_ifs at h
    obtain ⟨r, -, rfl⟩ := map_ok h
    simp only [RunningLoop.taken, requests_append, requests_cons, requests_nil]
    abel
  · obtain ⟨b, -, rfl⟩ := map_ok h
    simp only [RunningLoop.taken, requests_append, requests_cons, requests_nil, SequenceGroup.resetStateForRecompute]
    abel

theorem running_preemptVictim (h : preemptVictim config bm finishes g s = .ok s') : s'.running = s.running := by
  unfold preemptVictim at h
  split_ifs at h
  · obtain ⟨b, -, rfl⟩ := map_ok h
    rfl
  · obtain ⟨can, -, h⟩ := bind_ok h
    split_ifs at h
    obtain ⟨r, -, rfl⟩ := map_ok h
    rfl
  · obtain ⟨b, -, rfl⟩ := map_ok h
    rfl

/-- The victims are preempted, and the group itself where there is no room at last. -/
theorem requests_makeRoom {victims : List (SequenceGroup T)} {room : Bool}
    (h : makeRoom config bm finishes g n victims s = .ok (room, s')) :
    s'.requests + (if room then {g.request} else 0) = {g.request} + requests victims + s.taken := by
  induction victims generalizing s with
  | nil =>
    rw [makeRoom] at h
    split_ifs at h
    · cases h
      show (0 + s.taken) + {g.request} = {g.request} + 0 + s.taken
      abel
    · obtain ⟨s₁, hone, heq⟩ := map_ok h
      cases heq
      have htaken : s'.taken = {g.request} + s.taken := (taken_preemptVictim hone).trans rfl
      have hrunning : s'.running = [] := running_preemptVictim hone
      rw [if_neg Bool.false_ne_true, RunningLoop.requests, htaken, hrunning, requests_nil]
      abel
  | cons victim victims ih =>
    rw [makeRoom] at h
    split_ifs at h
    · cases h
      show (requests (victim :: victims).reverse + s.taken) + {g.request} = _
      rw [requests_reverse]
      abel
    · obtain ⟨s₁, hone, h⟩ := bind_ok h
      have htaken : s₁.taken = {victim.request} + s.taken := (taken_preemptVictim hone).trans rfl
      rw [ih h, htaken, requests_cons]
      abel

theorem taken_scheduleGroup {enableChunking : Bool} (h : scheduleGroup config bm enableChunking g n s = .ok s') :
    s'.taken = {g.request} + s.taken ∧ s'.running = s.running := by
  obtain ⟨r, -, rfl⟩ := map_ok h
  refine ⟨?_, rfl⟩
  by_cases hstage : g.stage = .prefill
  · simp only [RunningLoop.taken, if_pos hstage, scheduledRequests_append, scheduledRequests_singleton]
    abel
  · simp only [RunningLoop.taken, if_neg hstage, scheduledRequests_append, scheduledRequests_singleton]
    abel

/-- **The loop loses no request.** -/
theorem requests_runningLoop {enableChunking : Bool} {turns : ℕ}
    (h : runningLoop config bm finishes enableChunking turns s = .ok s') : s'.requests = s.requests := by
  induction turns generalizing s with
  | zero => cases h; rfl
  | succ turns ih =>
    rw [runningLoop] at h
    cases hrunning : s.running with
    | nil => rw [hrunning] at h; cases h; rfl
    | cons g rest =>
      rw [hrunning] at h
      obtain ⟨n, -, h⟩ := bind_ok h
      have hall : s.requests = {g.request} + requests rest + s.taken := by
        rw [RunningLoop.requests, hrunning, requests_cons]
      split_ifs at h
      · cases h; rfl
      · rw [ih h, hall]
        show requests rest + RunningLoop.taken { s with running := rest, asyncStopped := s.asyncStopped ++ [g] } = _
        simp only [RunningLoop.taken, requests_append, requests_cons, requests_nil]
        abel
      · obtain ⟨⟨room, s₁⟩, hroom, h⟩ := bind_ok h
        have hroom := requests_makeRoom hroom
        rw [requests_reverse, ← hall] at hroom
        cases room with
        | false =>
          rw [ih h, ← hroom]
          exact (add_zero _).symm
        | true =>
          obtain ⟨s₂, hsched, h⟩ := bind_ok h
          obtain ⟨htaken, hrun⟩ := taken_scheduleGroup hsched
          rw [ih h, ← hroom, RunningLoop.requests, htaken, hrun, if_pos rfl, RunningLoop.requests]
          abel

theorem requests_scheduleRunning {enableChunking : Bool} {running asyncStopped : List (SequenceGroup T)} {blocks : B}
    {budget : SchedulingBudget} {currLoras : Option (Finset ℕ)}
    (h : scheduleRunning config bm finishes enableChunking running asyncStopped blocks budget currLoras = .ok s') :
    asyncStopped = [] ∧ s'.requests = requests running := by
  unfold scheduleRunning at h
  split_ifs at h with hstopped
  obtain ⟨s, hloop, rfl⟩ := map_ok h
  refine ⟨not_not.mp hstopped, ?_⟩
  have hloop := requests_runningLoop hloop
  have hmarked : requests (s.preempted.map SequenceGroup.markPreempted) = requests s.preempted :=
    requests_map _ fun _ => rfl
  simp only [RunningLoop.requests, RunningLoop.taken, requests_nil, scheduledRequests_nil, hmarked, add_zero] at hloop ⊢
  exact hloop

end Running

/-! ## Swapped groups -/

/-- All requests of the loop over the swapped groups, but those that it has not reached. -/
def SwappedLoop.taken (s : SwappedLoop T B) : Multiset (NewRequest T) :=
  requests s.leftover + scheduledRequests s.decodeSeqGroups + scheduledRequests s.prefillSeqGroups + requests s.infeasible

section Swapped
variable {g : SequenceGroup T} {n : ℤ} {s s' : SwappedLoop T B} {enableChunking : Bool}

theorem taken_swapInGroup (h : swapInGroup config bm g n s = .ok s') : s'.taken = {g.request} + s.taken := by
  obtain ⟨r, -, h⟩ := bind_ok h
  obtain ⟨r', -, h⟩ := bind_ok h
  cases h
  by_cases hstage : g.stage = .prefill
  · simp only [SwappedLoop.taken, if_pos hstage, scheduledRequests_append, scheduledRequests_singleton]
    abel
  · simp only [SwappedLoop.taken, if_neg hstage, scheduledRequests_append, scheduledRequests_singleton]
    abel

theorem requests_swappedLoop {swapped : List (SequenceGroup T)}
    (h : swappedLoop config bm enableChunking swapped s = .ok s') :
    requests s'.swapped + s'.taken = requests swapped + s.taken := by
  induction swapped generalizing s with
  | nil => cases h; rfl
  | cons g rest ih =>
    rw [swappedLoop] at h
    obtain ⟨status, -, h⟩ := bind_ok h
    cases status with
    | later => cases h; rfl
    | never =>
      rw [ih h, requests_cons]
      simp only [SwappedLoop.taken, requests_append, requests_cons, requests_nil]
      abel
    | ok =>
      dsimp only at h
      split_ifs at h
      · rw [ih h, requests_cons]
        simp only [SwappedLoop.taken, requests_cons]
        abel
      · obtain ⟨n, -, h⟩ := bind_ok h
        split_ifs at h
        · cases h; rfl
        · obtain ⟨can, -, h⟩ := bind_ok h
          split_ifs at h
          · obtain ⟨s₁, hswap, h⟩ := bind_ok h
            rw [ih h, taken_swapInGroup hswap, requests_cons]
            abel
          · cases h; rfl

theorem requests_scheduleSwapped {swapped : List (SequenceGroup T)} {blocks : B} {budget : SchedulingBudget}
    {currLoras : Option (Finset ℕ)} (h : scheduleSwapped config bm enableChunking swapped blocks budget currLoras = .ok s') :
    requests s'.swapped + scheduledRequests s'.decodeSeqGroups + scheduledRequests s'.prefillSeqGroups +
      requests s'.infeasible = requests swapped := by
  obtain ⟨s, hloop, rfl⟩ := map_ok h
  have hloop := requests_swappedLoop hloop
  simp only [SwappedLoop.taken, requests_nil, scheduledRequests_nil, add_zero, requests_append, requests_reverse]
    at hloop ⊢
  rw [← hloop]
  abel

end Swapped

/-! ## Waiting groups -/

/-- All requests of the loop over the waiting groups. -/
def PrefillLoop.requests (s : PrefillLoop T F B) : Multiset (NewRequest T) :=
  FairCache.requests s.waiting.iter + FairCache.requests s.leftover + scheduledRequests s.seqGroups +
    FairCache.requests s.ignored

section Prefills
variable [LinearOrder F] {g : SequenceGroup T} {n : ℤ} {s s' : PrefillLoop T F B} {enableChunking : Bool}

/-- What is popped is what was looked at. -/
theorem requests_popWaiting (hpeek : s.waiting.peek = .ok g) (h : popWaiting s = .ok s') :
    ∃ w, s' = { s with waiting := w } ∧ requests s.waiting.iter = {g.request} + requests w.iter := by
  obtain ⟨⟨g', w⟩, hpop, rfl⟩ := map_ok h
  obtain rfl := WaitingQueue.popleft_eq_peek hpeek hpop
  exact ⟨w, rfl, requests_perm (WaitingQueue.iter_popleft hpop)⟩

theorem requests_startPrefill (hpeek : s.waiting.peek = .ok g) (h : startPrefill config bm g n s = .ok s') :
    s'.requests = s.requests := by
  obtain ⟨s₁, hpop, h⟩ := bind_ok h
  obtain ⟨w, rfl, hw⟩ := requests_popWaiting (s := { s with currLoras := addEnabledLora config s.currLoras g }) hpeek hpop
  obtain ⟨b, -, h⟩ := bind_ok h
  cases h
  change requests s.waiting.iter = _ at hw
  simp only [PrefillLoop.requests, hw, scheduledRequests_append, scheduledRequests_singleton]
  abel

theorem requests_prefillLoop {passedDelay : ℕ → Bool} {turns : ℕ}
    (h : prefillLoop config bm passedDelay enableChunking turns s = .ok s') : s'.requests = s.requests := by
  induction turns generalizing s with
  | zero => cases h; rfl
  | succ turns ih =>
    rw [prefillLoop] at h
    split_ifs at h
    · obtain ⟨g, hpeek, h⟩ := bind_ok h
      obtain ⟨turn, -, h⟩ := bind_ok h
      cases turn with
      | stop => cases h; rfl
      | ignore =>
        obtain ⟨s₁, hpop, h⟩ := bind_ok h
        obtain ⟨w, rfl, hw⟩ := requests_popWaiting (s := { s with ignored := s.ignored ++ [g] }) hpeek hpop
        change requests s.waiting.iter = _ at hw
        rw [ih h]
        simp only [PrefillLoop.requests, hw, requests_append, requests_cons, requests_nil]
        abel
      | leave =>
        obtain ⟨s₁, hpop, h⟩ := bind_ok h
        obtain ⟨w, rfl, hw⟩ := requests_popWaiting (s := { s with leftover := g :: s.leftover }) hpeek hpop
        change requests s.waiting.iter = _ at hw
        rw [ih h]
        simp only [PrefillLoop.requests, hw, requests_cons]
        abel
      | start n =>
        obtain ⟨s₁, hstart, h⟩ := bind_ok h
        rw [ih h, requests_startPrefill hpeek hstart]
    · cases h; rfl

theorem requests_schedulePrefills {passedDelay : ℕ → Bool} {waiting : WaitingQueue F (SequenceGroup T)} {blocks : B}
    {budget : SchedulingBudget} {currLoras : Option (Finset ℕ)}
    (h : schedulePrefills config bm passedDelay enableChunking waiting blocks budget currLoras = .ok s') :
    requests s'.waiting.iter + scheduledRequests s'.seqGroups + requests s'.ignored = requests waiting.iter := by
  obtain ⟨s, hloop, h⟩ := bind_ok h
  obtain ⟨w, hw, h⟩ := bind_ok h
  cases h
  have hloop := requests_prefillLoop hloop
  have hiter := requests_perm (WaitingQueue.iter_extendleft hw)
  simp only [PrefillLoop.requests, requests_nil, scheduledRequests_nil, add_zero, requests_append] at hloop hiter ⊢
  rw [← hloop, hiter]
  abel

end Prefills

end Scheduler

/-! ## The operations -/

/-- The requests that the scheduler holds. -/
def SchedulerState.held (s : SchedulerState T F B) : Multiset (NewRequest T) :=
  requests s.waiting.iter + requests s.running + requests s.swapped + requests s.asyncStopped

/-- From `s` to `s'` only the groups `ignored` leave and some that are reported as finished. -/
def Accounts (s s' : SchedulerState T F B) (ignored : List (SequenceGroup T)) : Prop :=
  ∃ left : Multiset (NewRequest T), s'.held + left + requests ignored = s.held ∧
    Multiset.ofList s'.finishedRequestsIds = Multiset.ofList s.finishedRequestsIds + left.map NewRequest.requestId

/-- The ids of groups that are reported as finished. -/
theorem coe_finishedRequestsIds (ids : List String) (gs : List (SequenceGroup T)) :
    Multiset.ofList (ids ++ gs.map SequenceGroup.requestId) =
      Multiset.ofList ids + (requests gs).map NewRequest.requestId := by
  rw [← Multiset.coe_add, requests, Multiset.map_coe, List.map_map]
  rfl

namespace Scheduler

variable {config : SchedulerConfig} {bm : BlockSpaceManager B} {s s' : SchedulerState T F B}

section Policies
variable {passedDelay : ℕ → Bool} {finishes : SequenceGroup T → Bool} {out : SchedulingOutputs T}

theorem requests_swapInAfter {r : RunningLoop T B} {swapped : List (SequenceGroup T)} {w : SwappedLoop T B}
    (h : swapInAfter config bm r swapped = .ok w) :
    requests w.swapped + scheduledRequests w.decodeSeqGroups + scheduledRequests w.prefillSeqGroups +
      requests w.infeasible = requests swapped := by
  unfold swapInAfter at h
  split_ifs at h
  · exact requests_scheduleSwapped h
  · cases h
    exact (add_zero _).trans ((add_zero _).trans (add_zero _))

theorem requests_scheduleDecodes {p : PrefillLoop T F B} {r : RunningLoop T B} {w : SwappedLoop T B}
    (h : scheduleDecodes config bm finishes s p = .ok (r, w)) :
    r.requests = requests s.running + requests s.asyncStopped ∧
      requests w.swapped + scheduledRequests w.decodeSeqGroups + scheduledRequests w.prefillSeqGroups +
        requests w.infeasible = requests s.swapped := by
  unfold scheduleDecodes at h
  split_ifs at h
  · obtain ⟨r', hrun, h⟩ := bind_ok h
    obtain ⟨w', hswap, h⟩ := bind_ok h
    cases h
    obtain ⟨hstopped, hr⟩ := requests_scheduleRunning hrun
    rw [hr, hstopped, requests_nil, add_zero]
    exact ⟨rfl, requests_swapInAfter hswap⟩
  · cases h
    refine ⟨?_, (add_zero _).trans ((add_zero _).trans (add_zero _))⟩
    show requests s.running + (0 + 0 + 0 + 0 + 0 + requests s.asyncStopped) = _
    simp only [zero_add]

theorem iter_foldlM_chargeDecode [Field F] (gs : List (ScheduledSequenceGroup T)) :
    ∀ {w w' : WaitingQueue F (SequenceGroup T)},
      gs.foldlM (fun w g => w.chargeDecode (clientId g.seqGroup)) w = .ok w' → w'.iter = w.iter := by
  induction gs with
  | nil => intro w w' h; cases h; rfl
  | cons g gs ih =>
    intro w w' h
    rw [List.foldlM_cons] at h
    obtain ⟨w₁, hone, h⟩ := bind_ok h
    rw [ih h, WaitingQueue.iter_chargeDecode hone]

variable [LinearOrder F]

theorem requests_schedulePrompts {p : PrefillLoop T F B} (h : schedulePrompts config bm passedDelay s = .ok p) :
    requests p.waiting.iter + scheduledRequests p.seqGroups + requests p.ignored = requests s.waiting.iter := by
  unfold schedulePrompts at h
  dsimp only at h
  split_ifs at h
  · exact requests_schedulePrefills h
  · cases h
    exact (add_zero _).trans (add_zero _)

omit [LinearOrder F] in
/-- What the loops leave is where `updateQueues` puts it. -/
theorem accounts_updateQueues {p : PrefillLoop T F B} {r : RunningLoop T B} {w : SwappedLoop T B}
    {waiting : WaitingQueue F (SequenceGroup T)} {joined : List (ScheduledSequenceGroup T)} {blocks : B}
    (hp : requests p.waiting.iter + scheduledRequests p.seqGroups + requests p.ignored = requests s.waiting.iter)
    (hr : r.requests = requests s.running + requests s.asyncStopped)
    (hw : requests w.swapped + scheduledRequests w.decodeSeqGroups + scheduledRequests w.prefillSeqGroups +
      requests w.infeasible = requests s.swapped)
    (hwaiting : requests waiting.iter = requests r.preempted + requests p.waiting.iter)
    (hjoined : scheduledRequests joined = scheduledRequests p.seqGroups + scheduledRequests r.prefillSeqGroups +
      scheduledRequests w.prefillSeqGroups + scheduledRequests r.decodeSeqGroups + scheduledRequests w.decodeSeqGroups) :
    Accounts s (updateQueues s r w waiting joined blocks) (p.ignored ++ w.infeasible) := by
  refine ⟨requests r.finished, ?_, coe_finishedRequestsIds _ _⟩
  have hrunning : requests (updateQueues s r w waiting joined blocks).running = requests r.running + scheduledRequests joined :=
    requests_append _ _
  calc
    _ = (requests p.waiting.iter + scheduledRequests p.seqGroups + requests p.ignored) + r.requests +
        (requests w.swapped + scheduledRequests w.decodeSeqGroups + scheduledRequests w.prefillSeqGroups +
          requests w.infeasible) := by
      unfold SchedulerState.held
      rw [hrunning, hjoined]
      simp only [updateQueues, hwaiting, requests_append, RunningLoop.requests, RunningLoop.taken]
      abel
    _ = s.held := by
      rw [hp, hr, hw, SchedulerState.held]
      abel

theorem ignoredSeqGroups_postInit {out out' : SchedulingOutputs T} (h : out.postInit = .ok out') :
    out'.ignoredSeqGroups = out.ignoredSeqGroups := by
  unfold SchedulingOutputs.postInit at h
  split_ifs at h <;> cases h <;> rfl

theorem accounts_scheduleDefault [Field F] (h : scheduleDefault config bm passedDelay finishes s = .ok (s', out)) :
    Accounts s s' out.ignoredSeqGroups := by
  obtain ⟨p, hp, h⟩ := bind_ok h
  obtain ⟨⟨r, w⟩, hdec, h⟩ := bind_ok h
  obtain ⟨-, -, h⟩ := bind_ok h
  obtain ⟨waiting, hwait, h⟩ := bind_ok h
  obtain ⟨_, hchunks, h⟩ := bind_ok h
  obtain ⟨charged, hcharge, h⟩ := bind_ok h
  obtain ⟨out', hout, h⟩ := bind_ok h
  cases h
  obtain ⟨hr, hw⟩ := requests_scheduleDecodes hdec
  have hnone : r.prefillSeqGroups = [] ∧ w.prefillSeqGroups = [] := by
    unfold checkNoChunks at hchunks
    split_ifs at hchunks with hempty
    exact not_or.mp hempty |>.imp not_not.mp not_not.mp
  have hiter : charged.iter = waiting.iter := by
    unfold chargeDecodes at hcharge
    split_ifs at hcharge
    · exact iter_foldlM_chargeDecode _ hcharge
    · cases hcharge; rfl
  have hwaiting := requests_perm (WaitingQueue.iter_extendleft hwait)
  rw [ignoredSeqGroups_postInit hout]
  refine accounts_updateQueues (requests_schedulePrompts hp) hr hw ?_ ?_
  · rw [hiter, hwaiting, requests_append]
  · rw [hnone.1, hnone.2, scheduledRequests_append, scheduledRequests_append, scheduledRequests_nil, add_zero, add_zero]

theorem accounts_scheduleChunkedPrefill (h : scheduleChunkedPrefill config bm passedDelay finishes s = .ok (s', out)) :
    Accounts s s' out.ignoredSeqGroups := by
  obtain ⟨r, hrun, h⟩ := bind_ok h
  obtain ⟨w, hswap, h⟩ := bind_ok h
  obtain ⟨p, hp, h⟩ := bind_ok h
  obtain ⟨-, -, h⟩ := bind_ok h
  obtain ⟨waiting, hwait, h⟩ := bind_ok h
  obtain ⟨out', hout, h⟩ := bind_ok h
  cases h
  obtain ⟨hstopped, hr⟩ := requests_scheduleRunning hrun
  have hwaiting := requests_perm (WaitingQueue.iter_extendleft hwait)
  rw [ignoredSeqGroups_postInit hout]
  refine accounts_updateQueues (requests_schedulePrefills hp) ?_ (requests_swapInAfter hswap) ?_ ?_
  · rw [hr, hstopped, requests_nil, add_zero]
  · rw [hwaiting, requests_append]
  · simp only [scheduledRequests_append]
    abel

/-- **A step of the scheduler**: what leaves is ignored or reported as finished. -/
theorem accounts_schedule [Field F] (h : schedule config bm passedDelay finishes s = .ok (s', out)) :
    Accounts s s' out.ignoredSeqGroups := by
  unfold schedule at h
  split_ifs at h
  · exact accounts_scheduleChunkedPrefill h
  · exact accounts_scheduleDefault h

end Policies

/-! ## Between two steps -/

section Abort

theorem abortedOf_sublist (ids : Finset String) (queue : List (SequenceGroup T)) :
    (abortedOf ids queue).1.Sublist queue := by
  induction queue generalizing ids with
  | nil => exact List.Sublist.refl _
  | cons g queue ih =>
    rw [abortedOf]
    split_ifs
    · exact (ih _).cons_cons g
    · exact (ih _).cons g

variable [DecidableEq T]

/-- Some groups of a queue are taken out of it. -/
theorem requests_foldl_erase {gs queue : List (SequenceGroup T)} (h : gs.Sublist queue) :
    requests gs + requests (gs.foldl List.erase queue) = requests queue := by
  rw [← List.diff_eq_foldl, ← requests_append]
  exact requests_perm (List.subperm_append_diff_self_of_count_le fun g _ => h.subperm.count_le g)

theorem requests_foldlM_remove {gs : List (SequenceGroup T)} : ∀ {w w' : WaitingQueue F (SequenceGroup T)},
    gs.Subperm w.iter → gs.foldlM (fun q g => WaitingQueue.remove g q) w = .ok w' →
      requests gs + requests w'.iter = requests w.iter := by
  induction gs with
  | nil => intro w w' _ h; cases h; exact zero_add _
  | cons g gs ih =>
    intro w w' hsub h
    rw [List.foldlM_cons] at h
    obtain ⟨w₁, hone, h⟩ := bind_ok h
    have hperm := WaitingQueue.iter_remove (hsub.subset List.mem_cons_self) hone
    have hsub' : gs.Subperm w₁.iter := (List.subperm_cons g).mp (hsub.trans hperm.subperm)
    rw [requests_perm hperm, requests_cons, requests_cons, ← ih hsub' h, add_assoc]

theorem accounts_abortSeqGroup {ids : Finset String} (h : abortSeqGroup config bm ids s = .ok s') : Accounts s s' [] := by
  obtain ⟨waiting, hwaiting, h⟩ := bind_ok h
  obtain ⟨blocks, -, h⟩ := bind_ok h
  cases h
  have hw := requests_foldlM_remove (abortedOf_sublist _ _).subperm hwaiting
  have hr := requests_foldl_erase (abortedOf_sublist (abortedOf ids s.waiting.iter).2 s.running)
  have ha := requests_foldl_erase (abortedOf_sublist (abortedOf (abortedOf ids s.waiting.iter).2 s.running).2 s.swapped)
  refine ⟨_, ?_, coe_finishedRequestsIds _ _⟩
  unfold SchedulerState.held
  rw [← hw, ← hr, ← ha, requests_append, requests_append, requests_nil]
  abel

end Abort

theorem request_advanceGroup {batch : List ScheduledMetadata} {sampled : ℕ → T} {g g' : SequenceGroup T}
    (h : advanceGroup batch sampled g = .ok g') : g'.request = g.request := by
  unfold advanceGroup at h
  split at h
  · cases h; rfl
  · obtain ⟨g₁, hone, h⟩ := bind_ok h
    have hkept : g₁.request = g.request := by
      unfold SequenceGroup.updateNumComputedTokens at hone
      dsimp only at hone
      split_ifs at hone <;> cases hone <;> rfl
    cases h
    split_ifs
    · exact hkept
    · exact hkept

theorem requests_mapM {f : SequenceGroup T → Except PyError (SequenceGroup T)} {l l' : List (SequenceGroup T)}
    (h : l.mapM f = .ok l') (hf : ∀ g g', f g = .ok g' → g'.request = g.request) : requests l' = requests l := by
  induction l generalizing l' with
  | nil => cases h; rfl
  | cons g l ih =>
    rw [List.mapM_cons] at h
    obtain ⟨g', hg, h⟩ := bind_ok h
    obtain ⟨l₁, hl, h⟩ := bind_ok h
    cases h
    rw [requests_cons, requests_cons, ih hl, hf g g' hg]

theorem accounts_advance {batch : List ScheduledMetadata} {sampled : ℕ → T} (h : advance batch sampled s = .ok s') :
    Accounts s s' [] := by
  obtain ⟨running, hmap, rfl⟩ := map_ok h
  have hrequests := requests_mapM hmap fun _ _ h => request_advanceGroup h
  exact ⟨0, by rw [SchedulerState.held, hrequests, requests_nil, add_zero, add_zero]; rfl, (add_zero _).symm⟩

theorem accounts_freeFinishedSeqGroups {finished : SequenceGroup T → Bool}
    (h : freeFinishedSeqGroups config bm finished s = .ok s') : Accounts s s' [] := by
  obtain ⟨b, -, rfl⟩ := map_ok h
  have hsplit : requests s.running =
      requests (s.running.filter finished) + requests (s.running.filter fun g => !finished g) := by
    rw [← requests_append]
    exact requests_perm (List.filter_append_perm _ _).symm
  refine ⟨_, ?_, coe_finishedRequestsIds _ _⟩
  unfold SchedulerState.held
  rw [hsplit, requests_append]
  simp only [requests_nil]
  abel

end Scheduler

/-! ## Runs -/

namespace EngineRun

variable {config : SchedulerConfig} {bm : BlockSpaceManager B}

/-- Every request is held by the scheduler, was reported as finished, or was ignored. -/
def Conserved (requested : Multiset (NewRequest T)) (e : EngineRun T F B) : Prop :=
  ∃ left : Multiset (NewRequest T), e.scheduler.held + left + requests e.ignored = requested ∧
    Multiset.ofList (e.reported ++ e.scheduler.finishedRequestsIds) = left.map NewRequest.requestId

/-- The request that arrives with an operation. -/
def requested : EngineOp T F → Multiset (NewRequest T)
  | .addRequest r => {r}
  | .abortRequest _ | .schedule _ _ | .reportFinished | .updatePrefillServed _ _ | .advance _ | .freeFinished _ => 0

theorem Conserved.of_accounts {added : Multiset (NewRequest T)} {e e' : EngineRun T F B} {ignored : List (SequenceGroup T)}
    (h : Conserved added e) (hacc : Accounts e.scheduler e'.scheduler ignored) (hreported : e'.reported = e.reported)
    (hignored : e'.ignored = e.ignored ++ ignored) : Conserved added e' := by
  obtain ⟨left, hheld, hids⟩ := h
  obtain ⟨left', hheld', hids'⟩ := hacc
  refine ⟨left + left', ?_, ?_⟩
  · rw [← hheld, ← hheld', hignored, requests_append]
    abel
  · rw [hreported, ← Multiset.coe_add, hids', Multiset.map_add, ← hids, ← Multiset.coe_add, add_assoc]

variable [Field F] [LinearOrder F] [DecidableEq T]

theorem Conserved.step {added : Multiset (NewRequest T)} {e e' : EngineRun T F B} {op : EngineOp T F} (h : Conserved added e)
    (hop : step config bm e op = .ok e') : Conserved (added + requested op) e' := by
  cases op with
  | addRequest r =>
    obtain ⟨w, hw, rfl⟩ := map_ok hop
    obtain ⟨left, hheld, hids⟩ := h
    refine ⟨left, ?_, hids⟩
    have hiter := requests_perm (WaitingQueue.iter_append hw)
    rw [requests_cons] at hiter
    rw [← hheld, requested, SchedulerState.held, SchedulerState.held, hiter]
    show {r} + requests e.scheduler.waiting.iter + _ + _ + _ + left + _ = _
    abel
  | abortRequest ids =>
    obtain ⟨s, hs, rfl⟩ := map_ok hop
    rw [requested, add_zero]
    exact h.of_accounts (Scheduler.accounts_abortSeqGroup hs) rfl (List.append_nil _).symm
  | schedule passedDelay finishes =>
    obtain ⟨⟨s, out⟩, hs, rfl⟩ := map_ok hop
    rw [requested, add_zero]
    exact h.of_accounts (Scheduler.accounts_schedule hs) rfl rfl
  | reportFinished =>
    cases hop
    rw [requested, add_zero]
    obtain ⟨left, hheld, hids⟩ := h
    exact ⟨left, hheld, by rw [List.append_nil]; exact hids⟩
  | updatePrefillServed p credits =>
    obtain ⟨w, hw, rfl⟩ := map_ok hop
    rw [requested, add_zero]
    obtain ⟨left, hheld, hids⟩ := h
    refine ⟨left, ?_, hids⟩
    rw [← hheld, SchedulerState.held, SchedulerState.held, WaitingQueue.iter_updatePrefillServed hw]
  | advance sampled =>
    obtain ⟨s, hs, rfl⟩ := map_ok hop
    rw [requested, add_zero]
    exact h.of_accounts (Scheduler.accounts_advance hs) rfl (List.append_nil _).symm
  | freeFinished finished =>
    obtain ⟨s, hs, rfl⟩ := map_ok hop
    rw [requested, add_zero]
    exact h.of_accounts (Scheduler.accounts_freeFinishedSeqGroups hs) rfl (List.append_nil _).symm

theorem conserved_of_conserved {ops : List (EngineOp T F)} : ∀ {added : Multiset (NewRequest T)} {e e' : EngineRun T F B},
    Conserved added e → Reaches (step config bm) e ops e' → Conserved (added + (ops.map requested).sum) e' := by
  induction ops with
  | nil =>
    intro added e e' h hr
    obtain rfl := reaches_nil.mp hr
    rwa [List.map_nil, List.sum_nil, add_zero]
  | cons op ops ih =>
    intro added e e' h hr
    obtain ⟨e₁, hop, hr⟩ := reaches_cons.mp hr
    rw [List.map_cons, List.sum_cons, ← add_assoc]
    exact ih (h.step hop) hr

/-- **No request is lost or doubled**: in every run, every request that arrived is held by one queue, or was reported as
finished, or was ignored. -/
theorem conserved_of_reaches {fairComputationEnabled : Bool} {blocks : B} {ops : List (EngineOp T F)} {e : EngineRun T F B}
    (h : Reaches (step config bm) (new T F fairComputationEnabled blocks) ops e) :
    Conserved (ops.map requested).sum e := by
  have hnew : Conserved 0 (new T F fairComputationEnabled blocks : EngineRun T F B) := by
    refine ⟨0, ?_, rfl⟩
    cases fairComputationEnabled <;> rfl
  have := conserved_of_conserved hnew h
  rwa [zero_add] at this

/-- Two sequences at most, and prompts of up to eight tokens. -/
def smallConfig (chunkedPrefillEnabled : Bool) (preemptionMode : Option String) : SchedulerConfig :=
  { maxNumBatchedTokens := 8, maxNumSeqs := 2, maxModelLen := 8, chunkedPrefillEnabled := chunkedPrefillEnabled
    enablePrefixCaching := false, blockSize := 2, maxLoras := none, useAsyncOutputProc := false
    preemptionMode := preemptionMode }

/-- A request with a prompt of some tokens. -/
def smallRequest (requestId : String) (seqId : ℕ) (clientId : ClientId) (promptTokenIds : List ℕ) : NewRequest ℕ :=
  { requestId := requestId, seqId := seqId, clientId := clientId, promptTokenIds := promptTokenIds, loraIntId := 0
    longLoraMaxLen := none }

/-- Three requests come, two start, one is preempted for want of blocks, one is aborted and one finishes. -/
def smallRun : List (EngineOp ℕ ℚ) :=
  let schedule : EngineOp ℕ ℚ := .schedule (fun _ => true) fun _ => false
  let advance : EngineOp ℕ ℚ := .advance fun _ => 0
  [.addRequest (smallRequest "a" 0 1 [1, 2]), .addRequest (smallRequest "b" 1 2 [1, 2, 3]),
    .addRequest (smallRequest "c" 2 1 [1]), schedule, advance, schedule, advance, schedule, .reportFinished, advance,
    schedule, .abortRequest {"c", "d"}, advance, .freeFinished fun g => g.requestId = "a", .reportFinished, schedule]

theorem conserved_smallRun : ∃ e, Reaches (step (smallConfig false none) BlockSpaceManagerV1.manager)
    (new ℕ ℚ true (BlockSpaceManagerV1.new 3 3 0)) smallRun e ∧ Conserved (smallRun.map requested).sum e := by
  have hok : (smallRun.foldlM (step (smallConfig false none) BlockSpaceManagerV1.manager)
      (new ℕ ℚ true (BlockSpaceManagerV1.new 3 3 0))).isOk = true := by decide +kernel
  cases hrun : smallRun.foldlM (step (smallConfig false none) BlockSpaceManagerV1.manager)
      (new ℕ ℚ true (BlockSpaceManagerV1.new 3 3 0)) with
  | error err => rw [hrun] at hok; cases hok
  | ok e => exact ⟨e, hrun, conserved_of_reaches hrun⟩

end EngineRun

end FairCache
