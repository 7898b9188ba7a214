import FairCache.Queue.Charges
import Mathlib.Algebra.Order.BigOperators.Group.List

/-!
# Credits are conserved

What a sequence of `update_prefill_served` calls adds to a client's score is what its prefills cost, less what it was
credited, plus the credits it has left.

* `Figures` : what one call receives, with the `cost` and the `credit` of a client in it;
* `score_charge`, `credit_charge` : what one call changes;
* `score_chargeAll` : the conservation law over a sequence of calls;
* `score_chargeAll_of_creditsFirst` : where the credits come first, the sums alone decide.
-/

namespace FairCache.CPIReqQueue

open Lib

/-- What one call of `update_prefill_served` receives. -/
structure Figures (F : Type) where
  prefillServed : Dict ClientId (F × F)
  credits : Option (Dict ClientId F)

variable {F G : Type} [Field F]

namespace Figures

variable (f : Figures F)

/-- What the prefills of a client cost. -/
def cost (q : CPIReqQueue F G) (c : ClientId) : F := (f.prefillServed.lookup c).elim 0 fun p => q.prefillCost p.1 p.2

/-- What a client is credited. -/
def credit (c : ClientId) : F := ((creditsOf f.credits).lookup c).getD 0

end Figures

/-- What the prefills of a client cost in some calls. -/
def totalCost (q : CPIReqQueue F G) (fs : List (Figures F)) (c : ClientId) : F := (fs.map fun f => f.cost q c).sum

/-- What a client is credited in some calls. -/
def totalCredit (fs : List (Figures F)) (c : ClientId) : F := (fs.map fun f => f.credit c).sum

/-- No call after one that charges the client credits it. -/
def CreditsFirst (q : CPIReqQueue F G) (c : ClientId) (fs : List (Figures F)) : Prop :=
  fs.Pairwise fun f f' => f.cost q c ≠ 0 → f'.credit c = 0

variable [LinearOrder F]

/-- No cost and no credit is negative. -/
def NonNeg (q : CPIReqQueue F G) (f : Figures F) : Prop := ∀ c, 0 ≤ f.cost q c ∧ 0 ≤ f.credit c

/-- The queue after a call. -/
def charge (q : CPIReqQueue F G) (f : Figures F) : CPIReqQueue F G := q.updatePrefillServed f.prefillServed f.credits

/-- The queue after some calls. -/
def chargeAll (q : CPIReqQueue F G) (fs : List (Figures F)) : CPIReqQueue F G := fs.foldl charge q

/-- It is enough to look at the entries. -/
theorem nonNeg_of_entries {q : CPIReqQueue F G} {f : Figures F}
    (hcost : ∀ e ∈ f.prefillServed.entries, 0 ≤ q.prefillCost e.2.1 e.2.2)
    (hcredit : ∀ e ∈ (creditsOf f.credits).entries, 0 ≤ e.2) : q.NonNeg f := by
  intro c
  unfold Figures.cost Figures.credit
  constructor
  · cases hp : f.prefillServed.lookup c with
    | none => exact le_rfl
    | some p => exact hcost ⟨c, p⟩ ((Dict.lookup_eq_some_iff _ _ _).mp hp)
  · cases hx : (creditsOf f.credits).lookup c with
    | none => exact le_rfl
    | some x => exact hcredit ⟨c, x⟩ ((Dict.lookup_eq_some_iff _ _ _).mp hx)

/-! ## One call -/

section Charge
variable (q : CPIReqQueue F G) (f : Figures F) (c : ClientId)

/-- What the queue holds for a client once its credit of the call is added. -/
def credited : Account F := ((creditsOf f.credits).lookup c).elim (q.account c) (Account.add · (q.account c))

theorem account_charge :
    (q.charge f).account c = (f.prefillServed.lookup c).elim (credited q f c) fun p => (credited q f c).charge p :=
  account_updatePrefillServed q f.prefillServed f.credits c

omit [LinearOrder F] in
theorem credited_eq : (credited q f c).cost = q.prefillCost ∧ (credited q f c).served = q.served.lookup c ∧
    (credited q f c).credits.getD 0 = q.credit c + f.credit c := by
  unfold credited Figures.credit
  cases (creditsOf f.credits).lookup c with
  | none => exact ⟨rfl, rfl, (add_zero _).symm⟩
  | some x => exact ⟨rfl, rfl, rfl⟩

/-- No call changes what a prefill costs. -/
theorem cost_charge (f' : Figures F) : f'.cost (q.charge f) c = f'.cost q c := by
  have hcost : (q.charge f).prefillCost = q.prefillCost := by
    refine Eq.trans ?_ (credited_eq q f c).1
    refine (congrArg Account.cost (account_charge q f c)).trans ?_
    cases f.prefillServed.lookup c <;> rfl
  unfold Figures.cost
  rw [hcost]

variable [IsStrictOrderedRing F] {q f} (hq : 0 ≤ q.credit c) (hf : q.NonNeg f)
include hq hf

/-- The credits pay the cost first, and the rest is charged. -/
theorem score_charge : (q.charge f).score c = q.score c + max 0 (f.cost q c - (q.credit c + f.credit c)) := by
  obtain ⟨hcost, hserved, hcredits⟩ := credited_eq q f c
  have hscore : (q.charge f).score c = ((q.charge f).account c).served.getD 0 := rfl
  rw [hscore, account_charge]
  unfold Figures.cost
  cases f.prefillServed.lookup c with
  | none =>
    have hnone : max 0 (0 - (q.credit c + f.credit c)) = 0 := max_eq_left (by linarith [(hf c).2])
    simp only [Option.elim_none, hnone, hserved, add_zero]
    rfl
  | some p =>
    simp only [Option.elim_some, Account.charge, hcost, hserved, hcredits, Option.getD_some]
    rfl

/-- What the cost leaves of the credits. -/
theorem credit_charge : (q.charge f).credit c = max 0 (q.credit c + f.credit c - f.cost q c) := by
  obtain ⟨hcost, -, hcredits⟩ := credited_eq q f c
  have hcredit : (q.charge f).credit c = ((q.charge f).account c).credits.getD 0 := rfl
  rw [hcredit, account_charge]
  unfold Figures.cost
  cases f.prefillServed.lookup c with
  | none =>
    rw [Option.elim_none, Option.elim_none, hcredits, sub_zero]
    exact (max_eq_right (by linarith [(hf c).2])).symm
  | some p =>
    simp only [Option.elim_some, Account.charge, hcost, hcredits, Option.getD_some]

end Charge

/-! ## Sequences of calls -/

section Calls
variable [IsStrictOrderedRing F] {q : CPIReqQueue F G} {fs fs' : List (Figures F)} {c : ClientId}

omit [IsStrictOrderedRing F] in
theorem chargeAll_cons (f : Figures F) : q.chargeAll (f :: fs) = (q.charge f).chargeAll fs := rfl

omit [IsStrictOrderedRing F] in
theorem totalCost_charge (f : Figures F) : totalCost (q.charge f) fs c = totalCost q fs c := by
  unfold totalCost
  simp only [cost_charge]

omit [IsStrictOrderedRing F] in
theorem nonNeg_charge {f f' : Figures F} (h : q.NonNeg f') : (q.charge f).NonNeg f' := by
  intro a
  rw [cost_charge]
  exact h a

omit [IsStrictOrderedRing F] in
theorem creditsFirst_charge {f : Figures F} (h : CreditsFirst q c fs) : CreditsFirst (q.charge f) c fs := by
  refine List.Pairwise.imp (fun {f₁ f₂} h => ?_) h
  rwa [cost_charge]

/-- The credits are never negative. -/
theorem credit_chargeAll_nonneg (hq : 0 ≤ q.credit c) (hfs : ∀ f ∈ fs, q.NonNeg f) : 0 ≤ (q.chargeAll fs).credit c := by
  induction fs generalizing q with
  | nil => exact hq
  | cons f fs ih =>
    obtain ⟨hf, hfs⟩ := List.forall_mem_cons.mp hfs
    refine ih ?_ fun f' hf' => nonNeg_charge (hfs f' hf')
    rw [credit_charge c hq hf]
    exact le_max_left _ _

/-- A call lowers no score. -/
theorem score_le_score_charge {f : Figures F} (hq : 0 ≤ q.credit c) (hf : q.NonNeg f) :
    q.score c ≤ (q.charge f).score c := by
  rw [score_charge c hq hf]
  exact le_add_of_nonneg_right (le_max_left _ _)

/-- **The conservation law**: what the calls add to a score is the cost, less the credits that are gone. -/
theorem score_chargeAll (hq : 0 ≤ q.credit c) (hfs : ∀ f ∈ fs, q.NonNeg f) :
    (q.chargeAll fs).score c - q.score c =
      totalCost q fs c - (q.credit c + totalCredit fs c) + (q.chargeAll fs).credit c := by
  induction fs generalizing q with
  | nil => simp [chargeAll, totalCost, totalCredit]
  | cons f fs ih =>
    obtain ⟨hf, hfs⟩ := List.forall_mem_cons.mp hfs
    have hcredit := credit_charge c hq hf
    have hrest := ih (hcredit ▸ le_max_left _ _) fun f' hf' => nonNeg_charge (hfs f' hf')
    rw [totalCost_charge, score_charge c hq hf, hcredit] at hrest
    have hsplit : max 0 (f.cost q c - (q.credit c + f.credit c)) - max 0 (q.credit c + f.credit c - f.cost q c) =
        f.cost q c - (q.credit c + f.credit c) := by
      rcases le_total (f.cost q c) (q.credit c + f.credit c) with hle | hle
      · rw [max_eq_left (by linarith), max_eq_right (by linarith)]
        linarith
      · rw [max_eq_right (by linarith), max_eq_left (by linarith)]
        linarith
    rw [chargeAll_cons]
    unfold totalCost totalCredit at *
    rw [List.map_cons, List.sum_cons, List.map_cons, List.sum_cons]
    linarith

/-- More calls lower no score. -/
theorem score_le_score_append (hq : 0 ≤ q.credit c) (hfs : ∀ f ∈ fs ++ fs', q.NonNeg f) :
    (q.chargeAll fs).score c ≤ (q.chargeAll (fs ++ fs')).score c := by
  induction fs generalizing q with
  | nil =>
    induction fs' generalizing q with
    | nil => exact le_rfl
    | cons f fs' ih =>
      obtain ⟨hf, hfs⟩ := List.forall_mem_cons.mp hfs
      refine (score_le_score_charge hq hf).trans ?_
      exact ih (credit_charge c hq hf ▸ le_max_left _ _) fun f' hf' => nonNeg_charge (hfs f' hf')
  | cons f fs ih =>
    obtain ⟨hf, hfs⟩ := List.forall_mem_cons.mp hfs
    exact ih (credit_charge c hq hf ▸ le_max_left _ _) fun f' hf' => nonNeg_charge (hfs f' hf')

theorem totalCost_nonneg (hfs : ∀ f ∈ fs, q.NonNeg f) : 0 ≤ totalCost q fs c :=
  List.sum_nonneg (List.forall_mem_map.mpr fun f hf => (hfs f hf c).1)

/-- **Where the credits come first, the sums alone decide** what the calls add. -/
theorem score_chargeAll_of_creditsFirst (hq : 0 ≤ q.credit c) (hfs : ∀ f ∈ fs, q.NonNeg f)
    (hfirst : CreditsFirst q c fs) :
    (q.chargeAll fs).score c = q.score c + max 0 (totalCost q fs c - (q.credit c + totalCredit fs c)) := by
  induction fs generalizing q with
  | nil =>
    simpa [chargeAll, totalCost, totalCredit] using hq
  | cons f fs ih =>
    obtain ⟨hf, hfs⟩ := List.forall_mem_cons.mp hfs
    obtain ⟨hlater, hfirst⟩ := List.pairwise_cons.mp hfirst
    have hcredit := credit_charge c hq hf
    have hrest := ih (hcredit ▸ le_max_left _ _) (fun f' hf' => nonNeg_charge (hfs f' hf')) (creditsFirst_charge hfirst)
    have hcost := totalCost_nonneg (c := c) hfs
    rw [totalCost_charge, score_charge c hq hf, hcredit] at hrest
    rw [chargeAll_cons, hrest, add_assoc]
    have htotal : totalCost q (f :: fs) c = f.cost q c + totalCost q fs c := List.sum_cons
    have hcredits : totalCredit (f :: fs) c = f.credit c + totalCredit fs c := List.sum_cons
    rw [htotal, hcredits]
    have hD : 0 ≤ q.credit c + f.credit c := add_nonneg hq (hf c).2
    congr 1
    by_cases hzero : f.cost q c = 0
    · have hpaid : max 0 (0 - (q.credit c + f.credit c)) = 0 := max_eq_left (by linarith)
      rw [hzero, hpaid, sub_zero, max_eq_right hD, zero_add, zero_add, add_assoc]
    · -- the call charges, so no credit is left to come
      have hnone : totalCredit fs c = 0 := List.sum_eq_zero (List.forall_mem_map.mpr fun f' hf' => hlater f' hf' hzero)
      rw [hnone, add_zero, add_zero]
      rcases le_total (f.cost q c) (q.credit c + f.credit c) with hle | hle
      · have hpaid : max 0 (f.cost q c - (q.credit c + f.credit c)) = 0 := max_eq_left (by linarith)
        have hleft : max 0 (q.credit c + f.credit c - f.cost q c) = q.credit c + f.credit c - f.cost q c :=
          max_eq_right (by linarith)
        rw [hpaid, hleft, zero_add]
        congr 1
        linarith
      · have hpaid : max 0 (f.cost q c - (q.credit c + f.credit c)) = f.cost q c - (q.credit c + f.credit c) :=
          max_eq_right (by linarith)
        have hleft : max 0 (q.credit c + f.credit c - f.cost q c) = 0 := max_eq_left (by linarith)
        have hall : 0 ≤ f.cost q c + totalCost q fs c - (q.credit c + f.credit c) := by linarith
        rw [hpaid, hleft, sub_zero, max_eq_right hcost, max_eq_right hall]
        linarith

/-- **Credits are conserved.** Over any calls, a client's score grows by its cost, less the credits that are gone; its
credits are never negative and its score never falls; and where all credits come before the costs, only the sums matter,
not how the costs are spread over the calls. -/
theorem credits_conserved (hq : ∀ a, 0 ≤ q.credit a) (hfs : ∀ f ∈ fs, q.NonNeg f) (c : ClientId) :
    (q.chargeAll fs).score c - q.score c =
        totalCost q fs c - (q.credit c + totalCredit fs c) + (q.chargeAll fs).credit c ∧
      (∀ fs₁ fs₂, fs = fs₁ ++ fs₂ →
        0 ≤ (q.chargeAll fs₁).credit c ∧ (q.chargeAll fs₁).score c ≤ (q.chargeAll fs).score c) ∧
      ∀ fs', (∀ f ∈ fs', q.NonNeg f) → CreditsFirst q c fs → CreditsFirst q c fs' →
        totalCost q fs' c = totalCost q fs c → totalCredit fs' c = totalCredit fs c →
        (q.chargeAll fs').score c = (q.chargeAll fs).score c := by
  refine ⟨score_chargeAll (hq c) hfs, fun fs₁ fs₂ heq => ?_, fun fs' hfs' hfirst hfirst' hcost hcredit => ?_⟩
  · subst heq
    have hfs₁ : ∀ f ∈ fs₁, q.NonNeg f := fun f hf => hfs f (List.mem_append_left _ hf)
    refine ⟨credit_chargeAll_nonneg (hq c) hfs₁, ?_⟩
    exact score_le_score_append (hq c) hfs
  · rw [score_chargeAll_of_creditsFirst (hq c) hfs hfirst, score_chargeAll_of_creditsFirst (hq c) hfs' hfirst', hcost,
      hcredit]

end Calls

/-! ## A run on concrete inputs -/

/-- A credit of three and then a cost of ten. -/
def creditThenCost : List (Figures ℚ) :=
  [⟨∅, some ((∅ : Dict ClientId ℚ).set 1 3)⟩, ⟨(∅ : Dict ClientId (ℚ × ℚ)).set 1 (0, 100), none⟩]

/-- The score of client 1 grows by seven, and by no other grouping of the cost does it grow by more. -/
theorem credits_conserved_creditThenCost :
    ((new ℚ ClientId).chargeAll creditThenCost).score 1 - (new ℚ ClientId).score 1 =
      totalCost (new ℚ ClientId) creditThenCost 1 -
        ((new ℚ ClientId).credit 1 + totalCredit creditThenCost 1) +
        ((new ℚ ClientId).chargeAll creditThenCost).credit 1 := by
  have hnonneg : ∀ f ∈ creditThenCost, (new ℚ ClientId).NonNeg f :=
    fun f hf => nonNeg_of_entries (by revert f; decide +kernel) (by revert f; decide +kernel)
  exact (credits_conserved (fun _ => le_rfl) hnonneg 1).1

end FairCache.CPIReqQueue
