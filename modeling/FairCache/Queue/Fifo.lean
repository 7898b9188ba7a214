import FairCache.Engine.Step
import FairCache.Queue.Charges
import FairCache.Queue.Fairness

/-!
# The waiting queue as a deque for each client

To the scheduler `CPIReqQueue` is a deque. It is one for each client, and a pop takes from a waiting client of least score.

* `Event`, `deque` : what happens to a queued group, and the deque of a client after that;
* `Call`, `call` : one call on the queue, with the events so far;
* `Allowed` : groups go back and charges go to clients that were seen, and only a queue that is not empty is popped;
* `Consistent` : the queue holds what was inserted and not taken, client by client in the order of a deque;
  `Consistent.call` : every allowed call returns and keeps it;
* `LossFree` : what the callers see of it; `lossFree_of_allowed` : every run of allowed calls.
-/

namespace FairCache.CPIReqQueue

open Lib

variable {F G : Type} [HasClientId G]

/-! ## A deque for each client -/

/-- What happens to a queued group. -/
inductive Event (G : Type)
  | append (seqGroup : G)
  | appendleft (seqGroup : G)
  | popleft (seqGroup : G)
  | remove (seqGroup : G)

namespace Event

/-- The group it happens to. -/
def seqGroup : Event G → G
  | append g | appendleft g | popleft g | remove g => g

/-- What it does to the deque of the group's client. -/
def perform [DecidableEq G] (l : List G) : Event G → List G
  | append g => l ++ [g]
  | appendleft g => g :: l
  | popleft _ => l.tail
  | remove g => l.erase g

/-- The deque can do it. -/
def Enabled (l : List G) : Event G → Prop
  | append _ | appendleft _ => True
  | popleft g => l.head? = some g
  | remove g => g ∈ l

/-- A request of the client enters. -/
def Enters (c : ClientId) : Event G → Prop
  | append g => clientId g = c
  | appendleft _ | popleft _ | remove _ => False

instance (c : ClientId) : ∀ e : Event G, Decidable (e.Enters c)
  | append g => inferInstanceAs (Decidable (clientId g = c))
  | appendleft _ | popleft _ | remove _ => .isFalse id

theorem Enters.clientId_eq {c : ClientId} {e : Event G} (h : e.Enters c) : clientId e.seqGroup = c := by
  cases e with
  | append g => exact h
  | appendleft g => exact h.elim
  | popleft g => exact h.elim
  | remove g => exact h.elim

/-- The group it inserts. -/
def inserted : Event G → Option G
  | append g | appendleft g => some g
  | popleft _ | remove _ => none

/-- The group it pops or removes. -/
def taken : Event G → Option G
  | append _ | appendleft _ => none
  | popleft g | remove g => some g

omit [HasClientId G] in
/-- No group is lost, and none appears. -/
theorem perform_perm [DecidableEq G] {l : List G} {e : Event G} (h : e.Enabled l) :
    (e.perform l ++ e.taken.toList).Perm (l ++ e.inserted.toList) := by
  cases e with
  | append g => exact List.Perm.of_eq (List.append_nil _)
  | appendleft g => exact (List.Perm.of_eq (List.append_nil _)).trans (List.perm_append_singleton g l).symm
  | popleft g =>
    obtain ⟨rest, rfl⟩ := List.head?_eq_some_iff.mp h
    exact (List.perm_append_singleton g rest).trans (List.Perm.of_eq (List.append_nil _).symm)
  | remove g =>
    exact (List.perm_append_singleton g _).trans ((List.perm_cons_erase h).symm.trans (List.Perm.of_eq (List.append_nil _).symm))

omit [HasClientId G] in
/-- What is in the deque afterwards was there or is the group. -/
theorem mem_perform [DecidableEq G] {l : List G} {e : Event G} {g : G} (h : g ∈ e.perform l) : g = e.seqGroup ∨ g ∈ l := by
  cases e with
  | append g' => exact (List.mem_append.mp h).symm.imp_left List.mem_singleton.mp
  | appendleft g' => exact List.mem_cons.mp h
  | popleft g' => exact Or.inr (List.mem_of_mem_tail h)
  | remove g' => exact Or.inr (List.mem_of_mem_erase h)

end Event

/-- The deque of a client after some events. -/
def deque [DecidableEq G] (log : List (Event G)) (c : ClientId) : List G :=
  log.foldl (fun l e => if clientId e.seqGroup = c then e.perform l else l) []

omit [HasClientId G] in
/-- The groups that were inserted, and those that were popped or removed. -/
def inserted (log : List (Event G)) : List G := log.filterMap Event.inserted

def taken (log : List (Event G)) : List G := log.filterMap Event.taken

theorem deque_concat [DecidableEq G] (log : List (Event G)) (e : Event G) (c : ClientId) :
    deque (log ++ [e]) c = if clientId e.seqGroup = c then e.perform (deque log c) else deque log c := by
  unfold deque
  rw [List.foldl_append]
  rfl

/-! ## The queue and its events -/

/-- The queue, and what happened to the groups so far. -/
structure Logged (F G : Type) where
  queue : CPIReqQueue F G
  log : List (Event G)

/-- A client is seen once a request of it entered. -/
def Logged.Seen (s : Logged F G) (c : ClientId) : Prop := ∃ e ∈ s.log, e.Enters c

instance (s : Logged F G) (c : ClientId) : Decidable (s.Seen c) := inferInstanceAs (Decidable (∃ e ∈ s.log, e.Enters c))

/-- The scoreboard and the queues know the clients that were seen; each queue holds groups of its client, in the order of
the client's deque; and what is queued or taken is what was inserted. -/
structure Consistent [DecidableEq G] (s : Logged F G) : Prop where
  known : s.queue.Known
  seen : ∀ c, c ∈ s.queue.clientWaitingQueues ↔ s.Seen c
  own : ∀ c, ∀ g ∈ s.queue.waiting c, clientId g = c
  order : ∀ c, s.queue.waiting c = deque s.log c
  kept : (s.queue.iter ++ taken s.log).Perm (inserted s.log)

section Queue
omit [HasClientId G]
variable {q q' : CPIReqQueue F G} {c : ClientId} {w : List G}

theorem waiting_of_set (h : q'.clientWaitingQueues = q.clientWaitingQueues.set c w) (a : ClientId) :
    q'.waiting a = if a = c then w else q.waiting a := by
  unfold waiting
  rw [h, Dict.lookup_set]
  split_ifs <;> rfl

/-- The groups of the other clients. -/
def others (q : CPIReqQueue F G) (c : ClientId) : List G := (q.clientWaitingQueues.erase c).values.flatten

theorem iter_perm (q : CPIReqQueue F G) (c : ClientId) : q.iter.Perm (q.waiting c ++ q.others c) := by
  unfold iter waiting others Dict.values
  cases hl : q.clientWaitingQueues.lookup c with
  | none => rw [Dict.erase_of_notMem (AList.lookup_eq_none.mp hl)]; exact List.Perm.refl _
  | some l => exact ((Dict.entries_perm_erase hl).map _).flatten

theorem lookup_of_waiting (h : q.waiting c ≠ []) : q.clientWaitingQueues.lookup c = some (q.waiting c) := by
  obtain ⟨l, hl⟩ := (Dict.mem_iff_lookup _ _).mp (mem_queues_of_waiting h)
  rw [waiting, hl, Option.getD_some]

theorem iter_perm_of_set (h : q'.clientWaitingQueues = q.clientWaitingQueues.set c w) :
    q'.iter.Perm (w ++ q.others c) := by
  unfold iter others Dict.values
  rw [h]
  exact ((Dict.set_perm _ c w).map _).flatten

/-- A removal takes the group out of a queue that has it, or finds it nowhere. -/
theorem remove_cases [DecidableEq G] (q : CPIReqQueue F G) (g : G) :
    (g ∉ q.iter ∧ q.remove g = q) ∨ ∃ c, g ∈ q.waiting c ∧
      q.remove g = { q with clientWaitingQueues := q.clientWaitingQueues.set c ((q.waiting c).erase g) } := by
  unfold remove
  cases hfind : q.clientWaitingQueues.entries.find? fun e => g ∈ e.2 with
  | none =>
    refine Or.inl ⟨fun hin => ?_, rfl⟩
    obtain ⟨l, hl, hg⟩ := List.mem_flatten.mp hin
    obtain ⟨e, he, rfl⟩ := List.mem_map.mp hl
    exact List.find?_eq_none.mp hfind e he (decide_eq_true hg)
  | some e =>
    have hlookup := (Dict.lookup_eq_some_iff _ e.1 e.2).mpr (List.mem_of_find?_eq_some hfind)
    have hwait : q.waiting e.1 = e.2 := by rw [waiting, hlookup, Option.getD_some]
    refine Or.inr ⟨e.1, ?_, by rw [hwait]⟩
    rw [hwait]
    simpa using List.find?_some hfind

end Queue

theorem mem_iter_iff {q : CPIReqQueue F G} (hown : ∀ c, ∀ g ∈ q.waiting c, clientId g = c) {g : G} :
    g ∈ q.iter ↔ g ∈ q.waiting (clientId g) := by
  unfold iter Dict.values
  constructor
  · intro h
    obtain ⟨l, hl, hg⟩ := List.mem_flatten.mp h
    obtain ⟨e, he, rfl⟩ := List.mem_map.mp hl
    have hwait : q.waiting e.1 = e.2 := by
      rw [waiting, (Dict.lookup_eq_some_iff _ e.1 e.2).mpr he, Option.getD_some]
    have hclient := hown e.1 g (hwait ▸ hg)
    rwa [hclient, hwait]
  · intro h
    exact (iter_perm q (clientId g)).mem_iff.mpr (List.mem_append_left _ h)

namespace Consistent

variable [DecidableEq G] {s : Logged F G}

/-- **One event**: the queue of the group's client does what its deque does, and nothing else changes. -/
theorem event (h : Consistent s) {e : Event G} {q : CPIReqQueue F G}
    (henabled : e.Enabled (s.queue.waiting (clientId e.seqGroup)))
    (hq : q.clientWaitingQueues = s.queue.clientWaitingQueues.set (clientId e.seqGroup)
      (e.perform (s.queue.waiting (clientId e.seqGroup))))
    (hserved : ∀ c, c ∈ q.served ↔ c = clientId e.seqGroup ∨ c ∈ s.queue.served)
    (hseen : e.Enters (clientId e.seqGroup) ∨ clientId e.seqGroup ∈ s.queue.clientWaitingQueues) :
    Consistent ⟨q, s.log ++ [e]⟩ := by
  have hmem : ∀ c, c ∈ q.clientWaitingQueues ↔ c = clientId e.seqGroup ∨ c ∈ s.queue.clientWaitingQueues := by
    intro c
    rw [hq, Dict.mem_set]
  have hlog : ∀ c, Logged.Seen (⟨q, s.log ++ [e]⟩ : Logged F G) c ↔ s.Seen c ∨ e.Enters c := by
    intro c
    unfold Logged.Seen
    simp only [List.mem_append, List.mem_singleton, or_and_right, exists_or, exists_eq_left]
  refine ⟨fun c => ?_, fun c => ?_, fun c g hg => ?_, fun c => ?_, ?_⟩
  · rw [hserved, hmem, h.known]
  · rw [hlog, hmem, h.seen, or_comm]
    constructor
    · rintro (hs | rfl)
      · exact Or.inl hs
      · exact hseen.symm.imp_left (h.seen _).mp
    · rintro (hs | he)
      · exact Or.inl hs
      · exact Or.inr he.clientId_eq.symm
  · rw [waiting_of_set hq] at hg
    split_ifs at hg with hc
    · rcases Event.mem_perform hg with rfl | hg
      · exact hc.symm
      · exact hc ▸ h.own _ g hg
    · exact h.own c g hg
  · rw [waiting_of_set hq, deque_concat]
    by_cases hc : c = clientId e.seqGroup
    · rw [if_pos hc, if_pos hc.symm, ← hc, h.order]
    · rw [if_neg hc, if_neg (Ne.symm hc), h.order]
  · have hins : inserted (s.log ++ [e]) = inserted s.log ++ e.inserted.toList := by
      cases e <;> simp [inserted, Event.inserted]
    have htaken : taken (s.log ++ [e]) = taken s.log ++ e.taken.toList := by
      cases e <;> simp [taken, Event.taken]
    have hold := iter_perm s.queue (clientId e.seqGroup)
    have hnew := iter_perm_of_set hq
    have hperform := Event.perform_perm henabled
    have hkept := h.kept
    rw [hins, htaken]
    rw [List.perm_iff_count] at hold hnew hperform hkept ⊢
    intro g
    have hold := hold g
    have hnew := hnew g
    have hperform := hperform g
    have hkept := hkept g
    simp only [List.count_append] at hold hnew hperform hkept ⊢
    omega

/-- A charge: the queues stay, and no client is new to the scoreboard. -/
theorem charged (h : Consistent s) {q : CPIReqQueue F G} (hq : q.clientWaitingQueues = s.queue.clientWaitingQueues)
    (hserved : ∀ c, c ∈ q.served ↔ c ∈ s.queue.served) : Consistent ⟨q, s.log⟩ := by
  have hwaiting : ∀ c, q.waiting c = s.queue.waiting c := fun c => by rw [waiting, hq, waiting]
  have hiter : q.iter = s.queue.iter := by rw [iter, hq, iter]
  refine ⟨fun c => ?_, fun c => ?_, fun c g hg => h.own c g (hwaiting c ▸ hg), fun c => ?_, ?_⟩
  · rw [hserved, hq, h.known]
  · rw [hq, h.seen]
    exact Iff.rfl
  · rw [hwaiting, h.order]
  · rw [hiter]
    exact h.kept

end Consistent

/-! ## Calls -/

/-- One call on the queue. -/
inductive Call (F G : Type)
  | append (seqGroup : G)
  | appendleft (seqGroup : G)
  | extendleft (sgList : List G)
  | popleft
  | peek
  | remove (seqGroup : G)
  | updatePrefillServed (prefillServed : Dict ClientId (F × F)) (credits : Option (Dict ClientId F))
  | chargeDecode (client : ClientId)

variable [Field F] [LinearOrder F] [DecidableEq G]

/-- The state after a call. -/
def call (s : Logged F G) : Call F G → Except PyError (Logged F G)
  | .append g => (s.queue.append g).map fun q => ⟨q, s.log ++ [.append g]⟩
  | .appendleft g => (s.queue.appendleft g).map fun q => ⟨q, s.log ++ [.appendleft g]⟩
  | .extendleft gs => (s.queue.extendleft gs).map fun q => ⟨q, s.log ++ gs.map .appendleft⟩
  | .popleft => s.queue.popleft.map fun r => ⟨r.2, s.log ++ [.popleft r.1]⟩
  | .peek => s.queue.peek.map fun _ => s
  | .remove g => .ok ⟨s.queue.remove g, s.log ++ if g ∈ s.queue.iter then [.remove g] else []⟩
  | .updatePrefillServed p credits => .ok ⟨s.queue.updatePrefillServed p credits, s.log⟩
  | .chargeDecode c => (s.queue.chargeDecode c).map fun q => ⟨q, s.log⟩

/-- What the callers promise. -/
def Allowed (s : Logged F G) : Call F G → Prop
  | .append _ | .remove _ => True
  | .appendleft g => s.Seen (clientId g)
  | .extendleft gs => ∀ g ∈ gs, s.Seen (clientId g)
  | .popleft | .peek => s.queue.isNonempty = true
  | .updatePrefillServed p _ => ∀ c ∈ p, s.Seen c
  | .chargeDecode c => s.Seen c

instance (s : Logged F G) : ∀ c, Decidable (Allowed s c)
  | .append _ | .remove _ => .isTrue trivial
  | .appendleft g => inferInstanceAs (Decidable (s.Seen (clientId g)))
  | .extendleft gs => inferInstanceAs (Decidable (∀ g ∈ gs, s.Seen (clientId g)))
  | .popleft | .peek => inferInstanceAs (Decidable (s.queue.isNonempty = true))
  | .updatePrefillServed p _ => decidable_of_iff (∀ c ∈ p.keys, s.Seen c) Iff.rfl
  | .chargeDecode c => inferInstanceAs (Decidable (s.Seen c))

namespace Consistent

variable {s : Logged F G}

/-- An append returns. -/
theorem append (h : Consistent s) (g : G) :
    ∃ q, s.queue.append g = .ok q ∧ Consistent ⟨q, s.log ++ [.append g]⟩ := by
  obtain ⟨q, hq⟩ := exists_append h.known g
  have hqueues : q.clientWaitingQueues = (s.queue.enqueue g).clientWaitingQueues := by
    rcases append_ok hq with ⟨rfl, -⟩ | ⟨-, least, -, rfl⟩ <;> rfl
  have hserved : ∀ c, c ∈ q.served ↔ c = clientId g ∨ c ∈ s.queue.served := by
    have henqueue : ∀ c, c ∈ (s.queue.enqueue g).served ↔ c = clientId g ∨ c ∈ s.queue.served := by
      intro c
      rw [known_enqueue h.known g c, clientWaitingQueues_enqueue, Dict.mem_set, h.known]
    intro c
    rcases append_ok hq with ⟨rfl, -⟩ | ⟨-, least, -, rfl⟩
    · exact henqueue c
    · rw [Dict.mem_upsert, henqueue]
      exact or_iff_right_of_imp Or.inl
  refine ⟨q, hq, h.event trivial ?_ hserved (Or.inl rfl)⟩
  rw [hqueues, clientWaitingQueues_enqueue]
  rfl

omit [Field F] [LinearOrder F] in
/-- A client that was seen has a queue and a score. -/
theorem of_seen (h : Consistent s) {c : ClientId} (hc : s.Seen c) :
    s.queue.clientWaitingQueues.lookup c = some (s.queue.waiting c) ∧ c ∈ s.queue.served := by
  have hmem := (h.seen c).mpr hc
  refine ⟨?_, (h.known c).mpr hmem⟩
  obtain ⟨l, hl⟩ := (Dict.mem_iff_lookup _ _).mp hmem
  rw [waiting, hl, Option.getD_some]

omit [Field F] [LinearOrder F] in
/-- A group of a client that was seen goes back. -/
theorem appendleft (h : Consistent s) {g : G} (hg : s.Seen (clientId g)) :
    ∃ q, s.queue.appendleft g = .ok q ∧ Consistent ⟨q, s.log ++ [.appendleft g]⟩ := by
  obtain ⟨hlookup, hserved⟩ := h.of_seen hg
  unfold CPIReqQueue.appendleft
  rw [hlookup]
  refine ⟨_, rfl, h.event trivial rfl (fun c => ?_) (Or.inr ((h.seen _).mpr hg))⟩
  exact (or_iff_right_of_imp fun hc => hc ▸ hserved).symm

omit [Field F] [LinearOrder F] in
theorem extendleft (gs : List G) {s : Logged F G} (h : Consistent s) (hgs : ∀ g ∈ gs, s.Seen (clientId g)) :
    ∃ q, s.queue.extendleft gs = .ok q ∧ Consistent ⟨q, s.log ++ gs.map .appendleft⟩ := by
  induction gs generalizing s with
  | nil => exact ⟨s.queue, rfl, by simpa using h⟩
  | cons g gs ih =>
    obtain ⟨hg, hgs⟩ := List.forall_mem_cons.mp hgs
    obtain ⟨q₁, hq₁, h₁⟩ := h.appendleft hg
    have hseen : ∀ g' ∈ gs, Logged.Seen (⟨q₁, s.log ++ [.appendleft g]⟩ : Logged F G) (clientId g') := by
      intro g' hg'
      obtain ⟨e, hlog, he⟩ := hgs g' hg'
      exact ⟨e, List.mem_append_left _ hlog, he⟩
    obtain ⟨q, hq, h'⟩ := ih h₁ hseen
    refine ⟨q, ?_, ?_⟩
    · unfold CPIReqQueue.extendleft at hq ⊢
      rw [List.foldlM_cons, hq₁]
      exact hq
    · simpa using h'

omit [Field F] in
/-- The selection ends at a waiting client. -/
theorem exists_selectClient (h : Consistent s) (hne : s.queue.isNonempty = true) :
    ∃ c, selectClient s.queue.clientWaitingQueues s.queue.served = .ok c := by
  have hwait : ∃ c, s.queue.waiting c ≠ [] := by
    by_contra hnone
    rw [isNonempty_eq_false.mpr (not_exists_not.mp hnone)] at hne
    cases hne
  obtain ⟨c, hc⟩ := hwait
  have hmem := mem_queues_of_waiting hc
  exact selectClient_returns (fun a ha => (h.known a).mp ha) ((h.known c).mpr hmem) (lookup_of_waiting hc) hc

/-- **A pop of a queue that is not empty** returns the group that `waiting[0]` is, the first of its client, whose score is
the least of those that wait. -/
theorem popleft (h : Consistent s) (hne : s.queue.isNonempty = true) :
    ∃ g q, s.queue.peek = .ok g ∧ s.queue.popleft = .ok (g, q) ∧ (deque s.log (clientId g)).head? = some g ∧
      (∀ c, deque s.log c ≠ [] → s.queue.score (clientId g) ≤ s.queue.score c) ∧
      Consistent ⟨q, s.log ++ [.popleft g]⟩ := by
  obtain ⟨c, hc⟩ := h.exists_selectClient hne
  obtain ⟨v, g, rest, hv, hlookup, hle⟩ := selectClient_ok hc
  have hwait : s.queue.waiting c = g :: rest := by rw [waiting, hlookup, Option.getD_some]
  have hclient : clientId g = c := h.own c g (hwait ▸ List.mem_cons_self)
  have hmem : c ∈ s.queue.served := Dict.mem_of_lookup hv
  unfold peek CPIReqQueue.popleft
  rw [hc]
  simp only [hwait]
  refine ⟨g, _, rfl, rfl, ?_, fun a ha => ?_, ?_⟩
  · rw [hclient, ← h.order, hwait]
    rfl
  · rw [← h.order] at ha
    have hva := lookup_served ((h.known a).mpr (mem_queues_of_waiting ha))
    rw [hclient, score, hv, Option.getD_some]
    refine hle a _ hva fun hnil => ha ?_
    rw [waiting, hnil, Option.getD_some]
  · subst hclient
    refine h.event ?_ ?_ (fun a => (or_iff_right_of_imp fun ha => ha ▸ hmem).symm) (Or.inr ?_)
    · show (s.queue.waiting (clientId g)).head? = some g
      rw [hwait]
      rfl
    · show _ = s.queue.clientWaitingQueues.set (clientId g) (s.queue.waiting (clientId g)).tail
      rw [hwait]
      rfl
    · exact (h.known _).mp hmem

omit [Field F] [LinearOrder F] in
/-- A removal takes the group out of its client's queue, if it is there. -/
theorem remove (h : Consistent s) (g : G) :
    Consistent ⟨s.queue.remove g, s.log ++ if g ∈ s.queue.iter then [.remove g] else []⟩ := by
  rcases remove_cases s.queue g with ⟨hnot, heq⟩ | ⟨c, hg, heq⟩
  · rw [if_neg hnot, heq, List.append_nil]
    exact h
  · obtain rfl : clientId g = c := h.own c g hg
    have hmem : clientId g ∈ s.queue.clientWaitingQueues := mem_queues_of_waiting (List.ne_nil_of_mem hg)
    have hserved : clientId g ∈ s.queue.served := (h.known _).mpr hmem
    rw [if_pos ((mem_iter_iff h.own).mpr hg), heq]
    exact h.event hg rfl (fun a => (or_iff_right_of_imp fun ha => ha ▸ hserved).symm) (Or.inr hmem)

/-- A charge of clients that were seen. -/
theorem updatePrefillServed (h : Consistent s) {p : Dict ClientId (F × F)} (credits : Option (Dict ClientId F))
    (hp : ∀ c ∈ p, s.Seen c) : Consistent ⟨s.queue.updatePrefillServed p credits, s.log⟩ := by
  refine h.charged (clientWaitingQueues_updatePrefillServed _ _ _) fun c => ?_
  rw [mem_served_updatePrefillServed]
  exact or_iff_right_of_imp fun hc => (h.of_seen (hp c hc)).2

omit [LinearOrder F] in
theorem chargeDecode (h : Consistent s) {c : ClientId} (hc : s.Seen c) :
    ∃ q, s.queue.chargeDecode c = .ok q ∧ Consistent ⟨q, s.log⟩ := by
  have hmem := (h.of_seen hc).2
  unfold CPIReqQueue.chargeDecode
  rw [lookup_served hmem]
  refine ⟨_, rfl, h.charged rfl fun a => ?_⟩
  rw [Dict.mem_set]
  exact or_iff_right_of_imp fun ha => ha ▸ hmem

/-- **Every allowed call returns**, and the queue stays consistent. -/
theorem call (h : Consistent s) {op : Call F G} (hop : Allowed s op) :
    ∃ s', CPIReqQueue.call s op = .ok s' ∧ Consistent s' := by
  cases op with
  | append g =>
    obtain ⟨q, hq, h'⟩ := h.append g
    exact ⟨_, by rw [CPIReqQueue.call, hq]; rfl, h'⟩
  | appendleft g =>
    obtain ⟨q, hq, h'⟩ := h.appendleft hop
    exact ⟨_, by rw [CPIReqQueue.call, hq]; rfl, h'⟩
  | extendleft gs =>
    obtain ⟨q, hq, h'⟩ := h.extendleft gs hop
    exact ⟨_, by rw [CPIReqQueue.call, hq]; rfl, h'⟩
  | popleft =>
    obtain ⟨g, q, -, hq, -, -, h'⟩ := h.popleft hop
    exact ⟨_, by rw [CPIReqQueue.call, hq]; rfl, h'⟩
  | peek =>
    obtain ⟨g, q, hq, -⟩ := h.popleft hop
    exact ⟨s, by rw [CPIReqQueue.call, hq]; rfl, h⟩
  | remove g => exact ⟨_, rfl, h.remove g⟩
  | updatePrefillServed p credits => exact ⟨_, rfl, h.updatePrefillServed credits hop⟩
  | chargeDecode c =>
    obtain ⟨q, hq, h'⟩ := h.chargeDecode hop
    exact ⟨_, by rw [CPIReqQueue.call, hq]; rfl, h'⟩

end Consistent

/-! ## What the callers see -/

/-- **A loss-free queue**: what is queued or was taken is what was inserted; `len`, `bool` and `iter` agree; each client's
groups are in the order of a deque; and the next pop returns what `waiting[0]` is, of a waiting client of least score. -/
structure LossFree (s : Logged F G) : Prop where
  kept : (s.queue.iter ++ taken s.log).Perm (inserted s.log)
  len : s.queue.len = s.queue.iter.length
  bool : s.queue.isNonempty = true ↔ s.queue.iter ≠ []
  order : ∀ c, s.queue.iter.filter (fun g => clientId g = c) = deque s.log c
  next : s.queue.isNonempty = true → ∃ g q, s.queue.peek = .ok g ∧ s.queue.popleft = .ok (g, q) ∧
    (deque s.log (clientId g)).head? = some g ∧
    ∀ c, deque s.log c ≠ [] → s.queue.score (clientId g) ≤ s.queue.score c

omit [Field F] [LinearOrder F] [DecidableEq G] in
/-- A client's groups in the iteration are its queue. -/
theorem filter_iter {q : CPIReqQueue F G} (hown : ∀ c, ∀ g ∈ q.waiting c, clientId g = c) (c : ClientId) :
    q.iter.filter (fun g => clientId g = c) = q.waiting c := by
  have hentry : ∀ e ∈ q.clientWaitingQueues.entries, ∀ g ∈ e.2, clientId g = e.1 := by
    intro e he g hg
    have hlookup := (Dict.lookup_eq_some_iff _ e.1 e.2).mpr he
    refine hown e.1 g ?_
    rwa [waiting, hlookup, Option.getD_some]
  have hlist : ∀ l : List (Sigma fun _ : ClientId => List G), l.NodupKeys → (∀ e ∈ l, ∀ g ∈ e.2, clientId g = e.1) →
      (l.map (·.2)).flatten.filter (fun g => clientId g = c) = (l.dlookup c).getD [] := by
    intro l
    induction l with
    | nil => intro _ _; rfl
    | cons e l ih =>
      intro hnd hl
      obtain ⟨a, w⟩ := e
      obtain ⟨hw, hl⟩ := List.forall_mem_cons.mp hl
      rw [List.nodupKeys_cons] at hnd
      rw [List.map_cons, List.flatten_cons, List.filter_append, ih hnd.2 hl]
      by_cases hac : c = a
      · subst hac
        have hall : w.filter (fun g => clientId g = c) = w :=
          List.filter_eq_self.mpr fun g hg => decide_eq_true (hw g hg)
        rw [hall, List.dlookup_eq_none.mpr hnd.1, List.dlookup_cons_eq]
        exact List.append_nil w
      · have hnone : w.filter (fun g => clientId g = c) = [] := by
          refine List.filter_eq_nil_iff.mpr fun g hg => ?_
          rw [hw g hg]
          simpa using Ne.symm hac
        rw [hnone, List.dlookup_cons_ne _ _ hac, List.nil_append]
  exact hlist _ q.clientWaitingQueues.nodupKeys hentry

theorem Consistent.lossFree {s : Logged F G} (h : Consistent s) : LossFree s := by
  refine ⟨h.kept, ?_, ?_, fun c => ?_, fun hne => ?_⟩
  · unfold len iter
    rw [List.length_flatten]
  · rw [← Bool.not_eq_false, isNonempty_eq_false, not_iff_not]
    constructor
    · intro hnone
      refine List.eq_nil_iff_forall_not_mem.mpr fun g hg => ?_
      have hin := (mem_iter_iff h.own).mp hg
      rw [hnone] at hin
      exact List.not_mem_nil hin
    · intro hnil c
      have hperm := iter_perm s.queue c
      rw [hnil] at hperm
      exact (List.append_eq_nil_iff.mp hperm.nil_eq.symm).1
  · rw [filter_iter h.own, h.order]
  · obtain ⟨g, q, hpeek, hpop, hhead, hle, -⟩ := h.popleft hne
    exact ⟨g, q, hpeek, hpop, hhead, hle⟩

omit [LinearOrder F] in
theorem consistent_new : Consistent (⟨new F G, []⟩ : Logged F G) := by
  refine ⟨fun c => Iff.rfl, fun c => ⟨fun hc => absurd hc (AList.notMem_empty c), fun ⟨e, he, _⟩ => absurd he List.not_mem_nil⟩,
    fun c g hg => absurd hg List.not_mem_nil, fun c => rfl, List.Perm.refl _⟩

/-- **The queue is a loss-free deque for each client**: no allowed call raises, and so it is in every state. -/
theorem lossFree_of_allowed {calls : List (Call F G)} (h : Along call Allowed ⟨new F G, []⟩ calls) :
    EveryState call LossFree ⟨new F G, []⟩ calls :=
  (everyState_of_returns (fun _ _ hs hop => hs.call hop) consistent_new h).imp fun _ hs => hs.lossFree

/-- Client 2 waits longer, client 1 goes back to the front and is charged, and client 2 is popped. -/
theorem lossFree_two_clients :
    EveryState call LossFree (⟨new ℚ ClientId, []⟩ : Logged ℚ ClientId)
      [.append 1, .append 2, .append 2, .peek, .popleft, .extendleft [1], .chargeDecode 1, .popleft, .remove 2] :=
  lossFree_of_allowed (by decide +kernel)

end FairCache.CPIReqQueue
