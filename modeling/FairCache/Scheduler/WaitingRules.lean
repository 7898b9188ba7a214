import FairCache.Scheduler.Waiting

/-!
# The waiting queue keeps working

* `Knows` : the queue has a score for a client; `Sound` : queues and scores agree, as far as the calls rely on it;
* `append_ok`, `popleft_ok`, .. : on a sound queue the calls return, it stays sound, and no client is forgotten.
-/

namespace FairCache

open Lib

namespace WaitingQueue

variable {F G : Type}

/-- The client has a score, which decodes can be charged to. -/
def Knows : WaitingQueue F G → ClientId → Prop
  | .fair (.cpi q), c => c ∈ q.served
  | .fair (.req q), c => c ∈ q.served
  | .deque _, _ => False

/-- The clients with a queue, or with a count, are those with a score. -/
def Sound : WaitingQueue F G → Prop
  | .fair (.cpi q) => q.Known
  | .fair (.req q) => ∀ c, q.counter c ≠ 0 → c ∈ q.served
  | .deque _ => False

/-- A sound queue that knows at least as many clients. -/
structure Extends (w w' : WaitingQueue F G) : Prop where
  sound : w'.Sound
  knows : ∀ c, w.Knows c → w'.Knows c

theorem Sound.extends_refl {w : WaitingQueue F G} (h : w.Sound) : w.Extends w := ⟨h, fun _ hc => hc⟩

theorem Extends.trans {w w' w'' : WaitingQueue F G} (h : w.Extends w') (h' : w'.Extends w'') : w.Extends w'' :=
  ⟨h'.sound, fun c hc => h'.knows c (h.knows c hc)⟩

section Enter
variable [HasClientId G] {w : WaitingQueue F G} {g : G}

theorem append_ok [Field F] [LinearOrder F] (h : w.Sound) (g : G) :
    ∃ w', w.append g = .ok w' ∧ w.Extends w' ∧ w'.Knows (clientId g) := by
  match w with
  | .fair (.cpi q) =>
    obtain ⟨q', hq⟩ := CPIReqQueue.exists_append h g
    have henqueue : ∀ c, c ∈ (q.enqueue g).served ↔ c = clientId g ∨ c ∈ q.served := by
      intro c
      rw [CPIReqQueue.known_enqueue h g c, CPIReqQueue.clientWaitingQueues_enqueue, Dict.mem_set, h c]
    have hserved : ∀ c, c ∈ q'.served ↔ c = clientId g ∨ c ∈ q.served := by
      intro c
      rcases CPIReqQueue.append_ok hq with ⟨rfl, -⟩ | ⟨-, least, -, rfl⟩
      · exact henqueue c
      · rw [Dict.mem_upsert, henqueue]
        exact or_iff_right_of_imp Or.inl
    have hqueues : ∀ c, c ∈ q'.clientWaitingQueues ↔ c = clientId g ∨ c ∈ q.clientWaitingQueues := by
      intro c
      have heq : q'.clientWaitingQueues = (q.enqueue g).clientWaitingQueues := by
        rcases CPIReqQueue.append_ok hq with ⟨rfl, -⟩ | ⟨-, least, -, rfl⟩ <;> rfl
      rw [heq, CPIReqQueue.clientWaitingQueues_enqueue, Dict.mem_set]
    refine ⟨.fair (.cpi q'), by rw [append, hq]; rfl, ⟨fun c => ?_, fun c hc => (hserved c).mpr (Or.inr hc)⟩,
      (hserved _).mpr (Or.inl rfl)⟩
    rw [hserved, hqueues, h c]
  | .fair (.req q) =>
    have henqueue : ∀ c, c = clientId g ∨ c ∈ q.served → c ∈ (q.enqueue g).served := by
      intro c hc
      show c ∈ if q.counter (clientId g) = 0 then q.served.set (clientId g) 0 else q.served
      split_ifs with hzero
      · exact (Dict.mem_set _ _ _ _).mpr hc
      · exact hc.elim (fun heq => heq ▸ h _ hzero) id
    have hserved : ∀ c, c = clientId g ∨ c ∈ q.served → c ∈ (q.append g).served := by
      intro c hc
      unfold ReqQueue.append
      dsimp only
      split_ifs
      · split
        · exact henqueue c hc
        · exact (Dict.mem_upsert _ _ _ _).mpr (Or.inr (henqueue c hc))
      · exact henqueue c hc
    refine ⟨_, rfl, ⟨fun c hc => hserved c ?_, fun c hc => hserved c (Or.inr hc)⟩, hserved _ (Or.inl rfl)⟩
    rw [ReqQueue.counter, (ReqQueue.append_kept q g).2.1] at hc
    change (q.enqueue g).counter c ≠ 0 at hc
    rw [ReqQueue.counter_enqueue] at hc
    by_cases heq : c = clientId g
    · exact Or.inl heq
    · rw [if_neg heq, add_zero] at hc
      exact Or.inr (h c hc)
  | .deque l => exact absurd h id

theorem appendleft_ok (h : w.Sound) (hg : w.Knows (clientId g)) : ∃ w', w.appendleft g = .ok w' ∧ w.Extends w' := by
  match w with
  | .fair (.cpi q) =>
    have hmem : clientId g ∈ q.clientWaitingQueues := (h _).mp hg
    obtain ⟨l, hl⟩ := (Dict.mem_iff_lookup _ _).mp hmem
    refine ⟨.fair (.cpi { q with clientWaitingQueues := q.clientWaitingQueues.set (clientId g) (g :: l) }), ?_,
      fun c => ?_, fun c hc => hc⟩
    · rw [appendleft, CPIReqQueue.appendleft, hl]
      rfl
    · rw [Dict.mem_set]
      exact (h c).trans (or_iff_right_of_imp fun heq => heq ▸ hmem).symm
  | .fair (.req q) =>
    refine ⟨_, rfl, fun c hc => ?_, fun c hc => hc⟩
    rw [ReqQueue.counter_appendleft] at hc
    by_cases heq : c = clientId g
    · exact heq ▸ hg
    · rw [if_neg heq, add_zero] at hc
      exact h c hc
  | .deque l => exact absurd h id

theorem extendleft_ok {gs : List G} : ∀ {w : WaitingQueue F G}, w.Sound → (∀ g ∈ gs, w.Knows (clientId g)) →
    ∃ w', w.extendleft gs = .ok w' ∧ w.Extends w' := by
  induction gs with
  | nil =>
    intro w h _
    match w with
    | .fair (.cpi q) => exact ⟨_, rfl, h.extends_refl⟩
    | .fair (.req q) => exact ⟨_, rfl, h.extends_refl⟩
    | .deque l => exact absurd h id
  | cons g gs ih =>
    intro w h hgs
    obtain ⟨hg, hgs⟩ := List.forall_mem_cons.mp hgs
    obtain ⟨w₁, hw₁, h₁⟩ := appendleft_ok h hg
    obtain ⟨w', hw', h'⟩ := ih h₁.sound fun g' hg' => h₁.knows _ (hgs g' hg')
    refine ⟨w', ?_, h₁.trans h'⟩
    match w with
    | .fair (.cpi q) =>
      obtain ⟨q₁, hq₁, rfl⟩ := map_ok hw₁
      rw [extendleft, CPIReqQueue.extendleft, List.foldlM_cons, hq₁]
      exact hw'
    | .fair (.req q) =>
      cases hw₁
      exact hw'
    | .deque l => exact absurd h id

end Enter

section Leave
variable [HasClientId G] {w : WaitingQueue F G}

/-- **A pop of a queue that is not empty** takes the group that `waiting[0]` is. -/
theorem popleft_ok [LinearOrder F] (h : w.Sound) (hknown : ∀ g ∈ w.iter, w.Knows (clientId g)) (hne : w.isNonempty = true) :
    ∃ g w', w.peek = .ok g ∧ w.popleft = .ok (g, w') ∧ w.Extends w' := by
  match w with
  | .fair (.cpi q) =>
    have hwait : ∃ c, q.waiting c ≠ [] := by
      by_contra hnone
      rw [isNonempty, CPIReqQueue.isNonempty_eq_false.mpr (not_exists_not.mp hnone)] at hne
      cases hne
    obtain ⟨c, hc⟩ := hwait
    obtain ⟨a, ha⟩ := CPIReqQueue.selectClient_returns (fun a ha => (h a).mp ha)
      ((h c).mpr (CPIReqQueue.mem_queues_of_waiting hc)) (CPIReqQueue.lookup_of_waiting hc) hc
    obtain ⟨v, g, rest, hv, hlookup, -⟩ := CPIReqQueue.selectClient_ok ha
    have hwaiting : q.waiting a = g :: rest := by rw [CPIReqQueue.waiting, hlookup, Option.getD_some]
    refine ⟨g, .fair (.cpi { q with clientWaitingQueues := q.clientWaitingQueues.set a rest }), ?_, ?_, fun b => ?_,
      fun b hb => hb⟩
    · rw [peek, CPIReqQueue.peek, ha]
      dsimp only
      rw [hwaiting]
    · rw [popleft, CPIReqQueue.popleft, ha]
      dsimp only
      rw [hwaiting]
      rfl
    · rw [Dict.mem_set]
      exact (h b).trans (or_iff_right_of_imp fun heq => heq ▸ Dict.mem_of_lookup hlookup).symm
  | .fair (.req q) =>
    cases hq : q.waitingQueue with
    | nil =>
      rw [isNonempty, hq] at hne
      cases hne
    | cons g rest =>
      have hg : clientId g ∈ q.served := hknown g (show g ∈ q.waitingQueue by rw [hq]; exact List.mem_cons_self)
      let counted := q.clientCounter.upsert (clientId g) fun v => v.getD 0 - 1
      refine ⟨g, .fair (.req { q with
        waitingQueue := rest
        clientCounter := if (counted.lookup (clientId g)).getD 0 = 0 then counted.erase (clientId g) else counted }),
        ?_, ?_, fun c hc => ?_, fun c hc => hc⟩
      · rw [peek, hq]
        rfl
      · rw [popleft, ReqQueue.popleft, hq]
        rfl
      · by_cases heq : c = clientId g
        · exact heq ▸ hg
        · refine h c ?_
          rw [ReqQueue.counter, ReqQueue.getD_lookup_erase_zero, Dict.lookup_upsert, if_neg heq] at hc
          exact hc
  | .deque l => exact absurd h id

omit [HasClientId G] in
theorem remove_ok [DecidableEq G] {g : G} (h : w.Sound) (hg : g ∈ w.iter) : ∃ w', w.remove g = .ok w' ∧ w.Extends w' := by
  match w with
  | .fair (.cpi q) =>
    rcases CPIReqQueue.remove_cases q g with ⟨-, heq⟩ | ⟨c, hc, heq⟩
    · refine ⟨_, rfl, ?_⟩
      rw [heq]
      exact h.extends_refl
    · have hmem := CPIReqQueue.mem_queues_of_waiting (List.ne_nil_of_mem hc)
      refine ⟨_, rfl, ?_⟩
      rw [heq]
      refine ⟨fun b => ?_, fun b hb => hb⟩
      rw [Dict.mem_set]
      exact (h b).trans (or_iff_right_of_imp fun heq => heq ▸ hmem).symm
  | .fair (.req q) =>
    refine ⟨.fair (.req { q with waitingQueue := q.waitingQueue.erase g }), ?_, h, fun c hc => hc⟩
    rw [remove, ReqQueue.remove, if_pos (show g ∈ q.waitingQueue from hg)]
    rfl
  | .deque l => exact absurd h id

end Leave

section Charge
variable {w : WaitingQueue F G} {c : ClientId}

theorem chargeDecode_ok [Field F] (h : w.Sound) (hc : w.Knows c) : ∃ w', w.chargeDecode c = .ok w' ∧ w.Extends w' := by
  match w with
  | .fair (.cpi q) =>
    obtain ⟨v, hv⟩ := (Dict.mem_iff_lookup _ _).mp hc
    refine ⟨.fair (.cpi { q with served := q.served.set c (v + q.decodeWeight) }), ?_, fun b => ?_, fun b hb => ?_⟩
    · rw [chargeDecode, CPIReqQueue.chargeDecode, hv]
      rfl
    · rw [Dict.mem_set]
      exact (or_iff_right_of_imp fun heq => heq ▸ hc).trans (h b)
    · exact (Dict.mem_set _ _ _ _).mpr (Or.inr hb)
  | .fair (.req q) =>
    obtain ⟨v, hv⟩ := (Dict.mem_iff_lookup _ _).mp hc
    refine ⟨.fair (.req { q with served := q.served.set c (v + q.decodeWeight) }), ?_, fun b hb => ?_, fun b hb => ?_⟩
    · rw [chargeDecode, hv]
    · exact (Dict.mem_set _ _ _ _).mpr (Or.inr (h b hb))
    · exact (Dict.mem_set _ _ _ _).mpr (Or.inr hb)
  | .deque l => exact absurd h id

theorem updatePrefillServed_ok [Field F] [LinearOrder F] {p : Dict ClientId (F × F)}
    (credits : Option (Dict ClientId F)) (h : w.Sound) (hp : ∀ c ∈ p, w.Knows c) :
    ∃ w', w.updatePrefillServed p credits = .ok w' ∧ w.Extends w' := by
  match w with
  | .fair (.cpi q) =>
    refine ⟨_, rfl, fun b => ?_, fun b hb => ?_⟩
    · rw [CPIReqQueue.mem_served_updatePrefillServed, CPIReqQueue.clientWaitingQueues_updatePrefillServed]
      exact (or_iff_right_of_imp (hp b)).trans (h b)
    · exact (CPIReqQueue.mem_served_updatePrefillServed _ _ _ _).mpr (Or.inr hb)
  | .fair (.req q) =>
    have hserved : ∀ (l : List (Sigma fun _ : ClientId => F × F)) (q : ReqQueue F G) (b : ClientId), b ∈ q.served →
        b ∈ (l.foldl (fun q e => q.chargePrefill e.1 e.2) q).served := by
      intro l
      induction l with
      | nil => exact fun q b hb => hb
      | cons e l ih => exact fun q b hb => ih _ b ((Dict.mem_upsert _ _ _ _).mpr (Or.inr hb))
    refine ⟨_, rfl, fun b hb => hserved _ _ _ (h b ?_), fun b hb => hserved _ _ _ hb⟩
    rwa [ReqQueue.counter, (ReqQueue.updatePrefillServed_kept q p).2.1] at hb
  | .deque l => exact absurd h id

end Charge

end WaitingQueue

end FairCache
