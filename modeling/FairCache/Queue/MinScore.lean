import FairCache.Queue.Credits
import FairCache.Queue.Fifo

/-!
# The least score of the waiting clients never falls

* `minScore` : the least score of the clients that wait;
* `AtLeast` : every client that waits has a score of at least `m`; `AtLeast.call` : no call that lets groups enter at the
  end, pops, removes or charges prefills breaks it while some client waits;
* `minScore_le` : so the least score never falls over a run of such calls.
-/

namespace FairCache.CPIReqQueue

open Lib

variable {F G : Type} [Field F] [LinearOrder F]

/-- The least score of the clients that wait, if any does. -/
def minScore (q : CPIReqQueue F G) : Option F :=
  ((q.served.entries.filter fun e => q.waiting e.1 ≠ []).map (·.2)).min?

/-- Every client that waits has a score of at least `m`. -/
def AtLeast (m : F) (q : CPIReqQueue F G) : Prop := ∀ c, q.waiting c ≠ [] → m ≤ q.score c

/-- The calls that put no group back in front and charge no decode. -/
def Forward : Call F G → Prop
  | .append _ | .popleft | .peek | .remove _ | .updatePrefillServed _ _ => True
  | .appendleft _ | .extendleft _ | .chargeDecode _ => False

instance : ∀ c : Call F G, Decidable (Forward c)
  | .append _ | .popleft | .peek | .remove _ | .updatePrefillServed _ _ => .isTrue trivial
  | .appendleft _ | .extendleft _ | .chargeDecode _ => .isFalse id

/-! ## The least score -/

section Known
variable {q : CPIReqQueue F G} (h : q.Known)
include h

theorem minScore_eq_some_iff {m : F} :
    q.minScore = some m ↔ (∃ c, q.waiting c ≠ [] ∧ q.score c = m) ∧ AtLeast m q := by
  have hmem : ∀ v, v ∈ (q.served.entries.filter fun e => q.waiting e.1 ≠ []).map (·.2) ↔
      ∃ c, q.waiting c ≠ [] ∧ q.score c = v := by
    intro v
    simp only [List.mem_map, List.mem_filter, decide_eq_true_eq]
    constructor
    · rintro ⟨e, ⟨he, hwait⟩, rfl⟩
      refine ⟨e.1, hwait, ?_⟩
      rw [score, (Dict.lookup_eq_some_iff _ e.1 e.2).mpr he, Option.getD_some]
    · rintro ⟨c, hwait, rfl⟩
      have hserved := lookup_served ((h c).mpr (mem_queues_of_waiting hwait))
      exact ⟨⟨c, q.score c⟩, ⟨(Dict.lookup_eq_some_iff _ _ _).mp hserved, hwait⟩, rfl⟩
  unfold minScore
  rw [List.min?_eq_some_iff, hmem]
  refine and_congr Iff.rfl ⟨fun hle c hc => hle _ ((hmem _).mpr ⟨c, hc, rfl⟩), fun hle v hv => ?_⟩
  obtain ⟨c, hc, rfl⟩ := (hmem v).mp hv
  exact hle c hc

theorem exists_minScore (hne : q.isNonempty = true) : ∃ m, q.minScore = some m := by
  cases hm : q.minScore with
  | some m => exact ⟨m, rfl⟩
  | none =>
    unfold minScore at hm
    rw [List.min?_eq_none_iff, List.map_eq_nil_iff, List.filter_eq_nil_iff] at hm
    have hnone : ∀ c, q.waiting c = [] := by
      intro c
      by_contra hwait
      have hserved := lookup_served ((h c).mpr (mem_queues_of_waiting hwait))
      exact hm _ ((Dict.lookup_eq_some_iff _ _ _).mp hserved) (decide_eq_true hwait)
    rw [isNonempty_eq_false.mpr hnone] at hne
    cases hne

end Known

/-! ## What the calls keep -/

/-- Fewer clients wait, and no score is lower. -/
theorem AtLeast.mono {m : F} {q q' : CPIReqQueue F G} (h : AtLeast m q)
    (hwait : ∀ c, q'.waiting c ≠ [] → q.waiting c ≠ []) (hscore : ∀ c, q.score c ≤ q'.score c) : AtLeast m q' :=
  fun c hc => (h c (hwait c hc)).trans (hscore c)

variable [HasClientId G]

/-- A client that starts to wait is lifted to the least score of the others that wait, and there is one. -/
theorem AtLeast.append {m : F} {q q' : CPIReqQueue F G} {g : G} (h : AtLeast m q) (hknown : q.Known)
    (hne : q.isNonempty = true) (hq : q.append g = .ok q') : AtLeast m q' := by
  intro c hc
  rcases append_ok hq with ⟨rfl, hcase⟩ | ⟨hempty, least, hleast, rfl⟩
  · -- nothing is lifted: the client waited before
    have hself : q.waiting (clientId g) ≠ [] := by
      intro hempty
      have hnone : ∀ a, q.waiting a = [] := by
        intro a
        by_cases ha : a = clientId g
        · rw [ha, hempty]
        · by_contra hwait
          refine hwait (hcase.resolve_left (fun hn => hn hempty) a ha ((known_enqueue hknown g a).mpr ?_))
          rw [clientWaitingQueues_enqueue, Dict.mem_set]
          exact Or.inr (mem_queues_of_waiting hwait)
      rw [isNonempty_eq_false.mpr hnone] at hne
      cases hne
    rw [score_enqueue hknown]
    rw [waiting_enqueue] at hc
    split_ifs at hc with hcg
    · exact h c (hcg ▸ hself)
    · exact h c hc
  · obtain ⟨a, hag, hwait, hlook⟩ := mem_otherScores.mp hleast
    rw [waiting_enqueue, if_neg hag] at hwait
    have hscore : q.score a = least := by
      rw [← score_enqueue hknown g, score, hlook, Option.getD_some]
    rw [score_upsert]
    split_ifs with hcg
    · exact (hscore ▸ h a hwait).trans (le_max_right _ _)
    · rw [score_enqueue hknown]
      have hc' : (q.enqueue g).waiting c ≠ [] := hc
      rw [waiting_enqueue, if_neg hcg] at hc'
      exact h c hc'

omit [HasClientId G] in
/-- A charge lowers no score. -/
theorem score_le_updatePrefillServed [IsStrictOrderedRing F] (q : CPIReqQueue F G) (p : Dict ClientId (F × F))
    (credits : Option (Dict ClientId F)) (c : ClientId) : q.score c ≤ (q.updatePrefillServed p credits).score c := by
  have haccount : (q.updatePrefillServed p credits).account c = _ := account_charge q ⟨p, credits⟩ c
  obtain ⟨-, hserved, -⟩ := credited_eq q ⟨p, credits⟩ c
  have hscore : (q.updatePrefillServed p credits).score c =
    ((q.updatePrefillServed p credits).account c).served.getD 0 := rfl
  rw [hscore, haccount]
  cases p.lookup c with
  | none => exact (congrArg (·.getD 0) hserved).ge
  | some x =>
    simp only [Option.elim_some, Account.charge, hserved, Option.getD_some]
    exact le_add_of_nonneg_right (le_max_left _ _)

variable [DecidableEq G] [IsStrictOrderedRing F]

/-- **One call**: while some client waits, no least score falls. -/
theorem AtLeast.call {m : F} {s s' : Logged F G} {op : Call F G} (h : AtLeast m s.queue) (hs : Consistent s)
    (hop : Allowed s op ∧ Forward op ∧ s.queue.isNonempty = true) (hcall : CPIReqQueue.call s op = .ok s') :
    AtLeast m s'.queue := by
  obtain ⟨hallowed, hforward, hne⟩ := hop
  cases op with
  | append g =>
    obtain ⟨q, hq, rfl⟩ := map_ok hcall
    exact h.append hs.known hne hq
  | appendleft g => exact hforward.elim
  | extendleft gs => exact hforward.elim
  | popleft =>
    obtain ⟨⟨g, q⟩, hq, rfl⟩ := map_ok hcall
    obtain ⟨c, rest, hwait, rfl⟩ := popleft_ok hq
    refine h.mono (fun a ha => ?_) fun a => le_rfl
    rw [waiting_of_set rfl] at ha
    split_ifs at ha with hac
    · rw [hac, hwait]
      exact List.cons_ne_nil _ _
    · exact ha
  | peek =>
    obtain ⟨g, -, rfl⟩ := map_ok hcall
    exact h
  | remove g =>
    cases hcall
    show AtLeast m (s.queue.remove g)
    rcases remove_cases s.queue g with ⟨-, heq⟩ | ⟨c, hg, heq⟩
    · rw [heq]
      exact h
    · rw [heq]
      refine h.mono (fun a ha => ?_) fun a => le_rfl
      rw [waiting_of_set rfl] at ha
      split_ifs at ha with hac
      · exact hac ▸ List.ne_nil_of_mem hg
      · exact ha
  | updatePrefillServed p credits =>
    cases hcall
    refine h.mono (fun a ha => ?_) fun a => score_le_updatePrefillServed _ _ _ a
    rwa [waiting, clientWaitingQueues_updatePrefillServed] at ha
  | chargeDecode c => exact hforward.elim

/-- **The least score of the waiting clients never falls**: over every run of calls that let groups enter at the end, pop,
remove or charge prefills, from any state that allowed calls reach, while some client waits. -/
theorem minScore_le {calls₁ calls₂ : List (Call F G)} {s t : Logged F G}
    (h₁ : Along CPIReqQueue.call Allowed ⟨new F G, []⟩ calls₁) (hs : Reaches CPIReqQueue.call ⟨new F G, []⟩ calls₁ s)
    (h₂ : Along CPIReqQueue.call (fun s op => Allowed s op ∧ Forward op ∧ s.queue.isNonempty = true) s calls₂)
    (ht : Reaches CPIReqQueue.call s calls₂ t) (hne : t.queue.isNonempty = true) :
    ∃ m m', s.queue.minScore = some m ∧ t.queue.minScore = some m' ∧ m ≤ m' := by
  have hkept : ∀ (s : Logged F G) op s', Consistent s → Allowed s op → CPIReqQueue.call s op = .ok s' → Consistent s' := by
    intro s op s' hs hop hcall
    obtain ⟨s'', hcall', hs''⟩ := hs.call hop
    exact Except.ok.inj (hcall'.symm.trans hcall) ▸ hs''
  have hs' : Consistent s := reaches_invariant hkept consistent_new h₁ hs
  have hne' : s.queue.isNonempty = true := by
    cases calls₂ with
    | nil => exact reaches_nil.mp ht ▸ hne
    | cons op ops => exact h₂.1.2.2
  obtain ⟨m, hm⟩ := exists_minScore hs'.known hne'
  have hboth : Consistent t ∧ AtLeast m t.queue := by
    let Kept (s : Logged F G) := Consistent s ∧ AtLeast m s.queue
    have hstep : ∀ s op s', Kept s → Allowed s op ∧ Forward op ∧ s.queue.isNonempty = true →
        CPIReqQueue.call s op = .ok s' → Kept s' :=
      fun s op s' h hop hcall => ⟨hkept s op s' h.1 hop.1 hcall, h.2.call h.1 hop hcall⟩
    exact reaches_invariant hstep ⟨hs', ((minScore_eq_some_iff hs'.known).mp hm).2⟩ h₂ ht
  obtain ⟨m', hm'⟩ := exists_minScore hboth.1.known hne
  refine ⟨m, m', hm, hm', ?_⟩
  obtain ⟨⟨c, hc, rfl⟩, -⟩ := (minScore_eq_some_iff hboth.1.known).mp hm'
  exact hboth.2 c hc

/-- Clients 2 and 3 are charged, client 3 returns, client 1 enters, and one request of each kind leaves. -/
theorem minScore_le_returning :
    ∃ s t : Logged ℚ ClientId, ∃ m m', s.queue.minScore = some m ∧ t.queue.minScore = some m' ∧ m ≤ m' := by
  let figures : Dict ClientId (ℚ × ℚ) := ((∅ : Dict ClientId (ℚ × ℚ)).set 3 (0, 20)).set 2 (0, 10)
  let calls : List (Call ℚ ClientId) :=
    [.popleft, .updatePrefillServed figures none, .append 3, .append 1, .popleft, .append 2, .remove 1]
  have hrun : ∃ s : Logged ℚ ClientId, Reaches CPIReqQueue.call ⟨new ℚ ClientId, []⟩ [.append 3, .append 2] s ∧
      Along CPIReqQueue.call (fun s op => Allowed s op ∧ Forward op ∧ s.queue.isNonempty = true) s calls ∧
      ∃ t, Reaches CPIReqQueue.call s calls t ∧ t.queue.isNonempty = true := by decide +kernel
  obtain ⟨s, hs, h₂, t, ht, hne⟩ := hrun
  exact ⟨s, t, minScore_le (by decide +kernel) hs h₂ ht hne⟩

end FairCache.CPIReqQueue
