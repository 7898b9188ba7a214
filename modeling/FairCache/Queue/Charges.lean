import FairCache.Queue.CPIReqQueue
import Mathlib.Tactic.Linarith

/-!
# What the figures of a step change

* `Account` : what the scoreboards hold for one client; `account_updatePrefillServed` : how the figures change it;
* `Balanced` : every charge is paid by a credit of the same figures, and nothing else is credited;
* `updatePrefillServed_eq_iff` : exactly the balanced figures leave the scoreboards as they are.
-/

namespace FairCache.CPIReqQueue

open Lib

variable {F G : Type} [Field F]

/-! ## One client -/

/-- A client's score and credit, and what its prefills cost. -/
structure Account (F : Type) where
  cost : F → F → F
  served : Option F
  credits : Option F

/-- What the queue holds for a client. -/
def account (q : CPIReqQueue F G) (c : ClientId) : Account F := ⟨q.prefillCost, q.served.lookup c, q.credits.lookup c⟩

namespace Account

/-- A credit is added. -/
def add (x : F) (a : Account F) : Account F := { a with credits := some (a.credits.getD 0 + x) }

variable [LinearOrder F]

/-- A prefill is charged. -/
def charge (p : F × F) (a : Account F) : Account F :=
  { a with
    served := some (a.served.getD 0 + max 0 (a.cost p.1 p.2 - a.credits.getD 0))
    credits := some (max 0 (a.credits.getD 0 - a.cost p.1 p.2)) }

variable [IsStrictOrderedRing F]

/-- A charge leaves the score when the credits pay it, and the credit when they were added for it. -/
theorem charge_eq_iff {a b : Account F} (hcost : b.cost = a.cost) (hserved : b.served = a.served) {p : F × F} {x : F}
    (hcredits : b.credits.getD 0 = a.credits.getD 0 + x) :
    ((b.charge p).served = a.served ∧ (b.charge p).credits = a.credits) ↔
      a.served.isSome ∧ a.credits.isSome ∧ 0 ≤ a.credits.getD 0 ∧ x = a.cost p.1 p.2 := by
  unfold charge
  simp only [hcredits, hcost, hserved]
  obtain ⟨cost, served, credits⟩ := a
  cases served with
  | none => simp
  | some v =>
    cases credits with
    | none => simp
    | some d =>
      simp only [Option.getD_some, Option.some.injEq, Option.isSome_some, true_and, add_eq_left]
      constructor
      · rintro ⟨hpaid, hleft⟩
        have hle : cost p.1 p.2 - (d + x) ≤ 0 := max_eq_left_iff.mp hpaid
        have hd : 0 ≤ d := hleft ▸ le_max_left _ _
        rw [max_eq_right (by linarith)] at hleft
        exact ⟨hd, by linarith⟩
      · rintro ⟨hd, rfl⟩
        exact ⟨max_eq_left (by linarith), by rw [max_eq_right (by linarith), add_sub_cancel_right]⟩

end Account

/-! ## All clients -/

/-- The credits of the figures. -/
def creditsOf (credits : Option (Dict ClientId F)) : Dict ClientId F := credits.getD ∅

theorem updatePrefillServed_eq [LinearOrder F] (q : CPIReqQueue F G) (prefillServed : Dict ClientId (F × F))
    (credits : Option (Dict ClientId F)) :
    q.updatePrefillServed prefillServed credits =
      prefillServed.entries.foldl (fun q e => q.chargePrefill e.1 e.2)
        ((creditsOf credits).entries.foldl (fun q e => q.addCredit e.1 e.2) q) := by
  cases credits <;> rfl

theorem account_addCredit (q : CPIReqQueue F G) (c : ClientId) (x : F) (a : ClientId) :
    (q.addCredit c x).account a = if a = c then (q.account a).add x else q.account a := by
  unfold account addCredit
  simp only [Dict.lookup_upsert]
  split_ifs <;> rfl

variable [LinearOrder F]

@[simp] theorem clientWaitingQueues_updatePrefillServed (q : CPIReqQueue F G) (prefillServed : Dict ClientId (F × F))
    (credits : Option (Dict ClientId F)) :
    (q.updatePrefillServed prefillServed credits).clientWaitingQueues = q.clientWaitingQueues := by
  rw [updatePrefillServed_eq]
  let Same (q' : CPIReqQueue F G) := q'.clientWaitingQueues = q.clientWaitingQueues
  refine List.foldlRecOn (motive := Same) _ _ ?_ fun q' hq' e _ => hq'
  exact List.foldlRecOn (motive := Same) _ _ rfl fun q' hq' e _ => hq'

/-- The clients that are charged get a score. -/
theorem mem_served_updatePrefillServed (q : CPIReqQueue F G) (prefillServed : Dict ClientId (F × F))
    (credits : Option (Dict ClientId F)) (c : ClientId) :
    c ∈ (q.updatePrefillServed prefillServed credits).served ↔ c ∈ prefillServed ∨ c ∈ q.served := by
  have hcharges : ∀ (l : List (Sigma fun _ : ClientId => F × F)) (q' : CPIReqQueue F G),
      c ∈ (l.foldl (fun q e => q.chargePrefill e.1 e.2) q').served ↔ c ∈ l.keys ∨ c ∈ q'.served := by
    intro l
    induction l with
    | nil => intro q'; simp
    | cons e l ih =>
      intro q'
      rw [List.foldl_cons, ih, mem_served_chargePrefill, List.keys_cons, List.mem_cons, or_assoc, or_left_comm]
  rw [updatePrefillServed_eq, hcharges]
  refine or_congr AList.mem_keys.symm ?_
  let Same (q' : CPIReqQueue F G) := c ∈ q'.served ↔ c ∈ q.served
  exact List.foldlRecOn (motive := Same) _ _ Iff.rfl fun q' hq' e _ => hq'

theorem account_chargePrefill (q : CPIReqQueue F G) (c : ClientId) (p : F × F) (a : ClientId) :
    (q.chargePrefill c p).account a = if a = c then (q.account a).charge p else q.account a := by
  unfold account chargePrefill
  simp only [Dict.lookup_upsert, Dict.lookup_set]
  split_ifs with h
  · subst h; rfl
  · rfl

/-- **What the figures change for a client**: first its credit, then its charge. -/
theorem account_updatePrefillServed (q : CPIReqQueue F G) (prefillServed : Dict ClientId (F × F))
    (credits : Option (Dict ClientId F)) (a : ClientId) :
    (q.updatePrefillServed prefillServed credits).account a =
      (prefillServed.lookup a).elim (((creditsOf credits).lookup a).elim (q.account a) (Account.add · (q.account a)))
        fun p => (((creditsOf credits).lookup a).elim (q.account a) (Account.add · (q.account a))).charge p := by
  rw [updatePrefillServed_eq, Dict.foldl_view (g := account) account_chargePrefill,
    Dict.foldl_view (g := account) account_addCredit]

/-- Every charge is paid by a credit of the same figures, and nothing else is credited. -/
structure Balanced (q : CPIReqQueue F G) (prefillServed : Dict ClientId (F × F)) (credits : Option (Dict ClientId F)) :
    Prop where
  paid : ∀ c p, prefillServed.lookup c = some p →
    c ∈ q.served ∧ c ∈ q.credits ∧ 0 ≤ q.credit c ∧ ((creditsOf credits).lookup c).getD 0 = q.prefillCost p.1 p.2
  spent : ∀ c x, (creditsOf credits).lookup c = some x → c ∉ prefillServed → c ∈ q.credits ∧ x = 0

section
variable [IsStrictOrderedRing F] (q : CPIReqQueue F G) (prefillServed : Dict ClientId (F × F))
  (credits : Option (Dict ClientId F))

omit [Field F] [LinearOrder F] [IsStrictOrderedRing F] in
theorem isSome_lookup {d : Dict ClientId F} {c : ClientId} : (d.lookup c).isSome ↔ c ∈ d := AList.lookup_isSome

/-- The figures leave a client's score and credit as they are. -/
theorem unchanged_iff (c : ClientId) :
    ((q.updatePrefillServed prefillServed credits).served.lookup c = q.served.lookup c ∧
      (q.updatePrefillServed prefillServed credits).credits.lookup c = q.credits.lookup c) ↔
    (∀ p, prefillServed.lookup c = some p → c ∈ q.served ∧ c ∈ q.credits ∧ 0 ≤ q.credit c ∧
      ((creditsOf credits).lookup c).getD 0 = q.prefillCost p.1 p.2) ∧
    ∀ x, (creditsOf credits).lookup c = some x → c ∉ prefillServed → c ∈ q.credits ∧ x = 0 := by
  have haccount := account_updatePrefillServed q prefillServed credits c
  have hserved := congrArg Account.served haccount
  have hcredits := congrArg Account.credits haccount
  rw [show (account (q.updatePrefillServed prefillServed credits) c).served =
    (q.updatePrefillServed prefillServed credits).served.lookup c from rfl] at hserved
  rw [show (account (q.updatePrefillServed prefillServed credits) c).credits =
    (q.updatePrefillServed prefillServed credits).credits.lookup c from rfl] at hcredits
  rw [hserved, hcredits]
  cases hp : prefillServed.lookup c with
  | some p =>
    have hmem : c ∈ prefillServed := Dict.mem_of_lookup hp
    simp only [Option.elim_some, Option.some.injEq, forall_eq', hmem, not_true, false_implies, implies_true, and_true]
    simp only [← isSome_lookup]
    cases hx : (creditsOf credits).lookup c with
    | none => exact Account.charge_eq_iff (a := q.account c) (b := q.account c) (x := 0) rfl rfl (add_zero _).symm
    | some x => exact Account.charge_eq_iff (a := q.account c) (b := (q.account c).add x) (x := x) rfl rfl rfl
  | none =>
    have hnot : c ∉ prefillServed := AList.lookup_eq_none.mp hp
    cases hx : (creditsOf credits).lookup c with
    | none => simp [account]
    | some x =>
      simp only [Option.elim_none, Option.elim_some, Account.add, account, reduceCtorEq, false_implies, implies_true,
        true_and, Option.some.injEq, forall_eq', hnot, not_false_eq_true, forall_const, ← isSome_lookup]
      cases q.credits.lookup c <;> simp

variable {q prefillServed credits}

omit [IsStrictOrderedRing F] in
/-- Balanced figures add no client to the scoreboards. -/
theorem Balanced.keys_eq (h : Balanced q prefillServed credits) :
    (q.updatePrefillServed prefillServed credits).served.keys = q.served.keys ∧
      (q.updatePrefillServed prefillServed credits).credits.keys = q.credits.keys := by
  have hcredited : ∀ e ∈ (creditsOf credits).entries, e.1 ∈ q.credits := by
    intro e he
    have hx := (Dict.lookup_eq_some_iff _ e.1 e.2).mpr he
    by_cases hmem : e.1 ∈ prefillServed
    · obtain ⟨p, hp⟩ := (Dict.mem_iff_lookup _ _).mp hmem
      exact (h.paid _ _ hp).2.1
    · exact (h.spent _ _ hx hmem).1
  rw [updatePrefillServed_eq]
  let SameKeys (q' : CPIReqQueue F G) := q'.served.keys = q.served.keys ∧ q'.credits.keys = q.credits.keys
  refine List.foldlRecOn (motive := SameKeys) _ _ (List.foldlRecOn (motive := SameKeys) _ _ ⟨rfl, rfl⟩
    fun q' hq' e he => ⟨hq'.1, ?_⟩) fun q' hq' e he => ?_
  · refine (Dict.keys_set _ _ _).trans ?_
    rw [if_pos (AList.mem_keys.mpr (hq'.2 ▸ AList.mem_keys.mp (hcredited e he))), hq'.2]
  · obtain ⟨hserved, hcredits, -⟩ := h.paid e.1 e.2 ((Dict.lookup_eq_some_iff _ _ _).mpr he)
    refine ⟨(Dict.keys_set _ _ _).trans ?_, (Dict.keys_set _ _ _).trans ?_⟩
    · rw [if_pos (AList.mem_keys.mpr (hq'.1 ▸ AList.mem_keys.mp hserved)), hq'.1]
    · rw [if_pos (AList.mem_keys.mpr (hq'.2 ▸ AList.mem_keys.mp hcredits)), hq'.2]

/-- **Exactly the balanced figures leave the scoreboards as they are.** -/
theorem updatePrefillServed_eq_iff :
    ((q.updatePrefillServed prefillServed credits).served = q.served ∧
      (q.updatePrefillServed prefillServed credits).credits = q.credits) ↔ Balanced q prefillServed credits := by
  constructor
  · rintro ⟨hserved, hcredits⟩
    have hunchanged := fun c => (unchanged_iff q prefillServed credits c).mp ⟨by rw [hserved], by rw [hcredits]⟩
    exact ⟨fun c => (hunchanged c).1, fun c => (hunchanged c).2⟩
  · intro h
    have hunchanged := fun c => (unchanged_iff q prefillServed credits c).mpr ⟨h.paid c, h.spent c⟩
    exact ⟨Dict.ext_lookup h.keys_eq.1 fun c => (hunchanged c).1, Dict.ext_lookup h.keys_eq.2 fun c => (hunchanged c).2⟩

end

end FairCache.CPIReqQueue
