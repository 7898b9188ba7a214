import FairCache.Lib.CodeRange
import Mathlib.Algebra.BigOperators.Group.Finset.Basic
import Mathlib.Analysis.Complex.ExponentialBounds

/-!
# The length of an arithmetic code

* `settle_add_fuel`, `code_add_fuel` : more fuel changes nothing;
* `two_pow_mul_prod_le` : doublings for a list of shares, against the product of the shares;
* `prod_le_pow` : numbers with a small mean have a small product;
* `sum_map_count` : the mean of the inverse counts of a list's elements is the number of different ones.
-/

namespace FairCache.Lib

namespace CodeRange

/-! ## Fuel -/

section Fuel
variable {q total fuel : ℕ} {r t : CodeRange} {σs : List Shift}

theorem settle_add_fuel (k : ℕ) (h : settle q fuel r = some (σs, t)) : settle q (fuel + k) r = some (σs, t) := by
  induction fuel generalizing r σs with
  | zero => cases h
  | succ fuel ih =>
    rw [Nat.succ_add, settle]
    rw [settle] at h
    cases hshift : r.shift? q with
    | none =>
      rw [hshift] at h
      exact h
    | some σ =>
      rw [hshift] at h
      obtain ⟨⟨τs, t'⟩, hsettle, heq⟩ := Option.map_eq_some_iff.mp h
      cases heq
      dsimp only
      rw [ih hsettle]
      rfl

theorem code_add_fuel (k : ℕ) {shares : List (ℕ × ℕ)} (h : code q total fuel r shares = some (σs, t)) :
    code q total (fuel + k) r shares = some (σs, t) := by
  induction shares generalizing r σs with
  | nil => exact h
  | cons share shares ih =>
    obtain ⟨⟨σs₁, s⟩, hsettle, hrest⟩ := Option.bind_eq_some_iff.mp h
    obtain ⟨⟨τs, t'⟩, hcode, heq⟩ := Option.map_eq_some_iff.mp hrest
    cases heq
    rw [code, settle_add_fuel k hsettle, Option.bind_some]
    dsimp only
    rw [ih hcode]
    rfl

end Fuel

/-! ## Doublings against shares -/

section Doublings
variable {q total scale fuel : ℕ} {r t : CodeRange} {share : ℕ × ℕ} {σs : List Shift}

/-- Each doubling makes the range twice as wide. -/
theorem span_of_settle (hr : r.Valid q) (h : settle q fuel r = some (σs, t)) : t.span = 2 ^ σs.length * r.span := by
  induction fuel generalizing r σs with
  | zero => cases h
  | succ fuel ih =>
    rw [settle] at h
    cases hshift : r.shift? q with
    | none =>
      rw [hshift] at h
      cases h
      rw [List.length_nil, pow_zero, Nat.one_mul]
    | some σ =>
      rw [hshift] at h
      obtain ⟨⟨τs, t'⟩, hsettle, heq⟩ := Option.map_eq_some_iff.mp h
      cases heq
      obtain ⟨-, hvalid, hdouble, -⟩ := shift_some hshift hr
      rw [ih hvalid hsettle, hdouble, List.length_cons, pow_succ, Nat.mul_assoc]

/-- The width of a share, and the parts of it, `scale` for each unit, that rounding leaves. -/
def keptParts (scale : ℕ) (share : ℕ × ℕ) : ℕ := (share.2 - share.1) * scale - 1

/-- **A share of a range, rounded to a range**, loses less than one part. -/
theorem span_mul_keptParts_le (hr : r.Settled q) (htotal : 0 < total) (hq : q = total * scale)
    (hshare : Share total share) : r.span * keptParts scale share ≤ (r.narrow total share).span * q := by
  have hscale : 0 < scale := by
    have hwide := hr.lt
    rcases Nat.eq_zero_or_pos scale with h | h
    · rw [h, Nat.mul_zero] at hq
      omega
    · exact h
  have hwide := hr.lt_span
  have hone := lt_narrow hr htotal (hq ▸ Nat.le_mul_of_pos_right total hscale) hshare
  obtain ⟨cLow, cHigh⟩ := share
  have hlt : cLow < cHigh := hshare.lt
  dsimp only at hone
  have hspan : (r.narrow total (cLow, cHigh)).span = r.span * cHigh / total - r.span * cLow / total := by
    unfold narrow span at *
    dsimp only
    omega
  rw [hspan, keptParts]
  dsimp only
  -- `hHigh` and `hLow` bound what the divisions round off
  have hHigh : r.span * cHigh < total * (r.span * cHigh / total) + total := Nat.lt_mul_div_succ _ htotal
  have hLow : total * (r.span * cLow / total) ≤ r.span * cLow := Nat.mul_div_le _ _
  obtain ⟨w, rfl⟩ : ∃ w, cHigh = cLow + w := ⟨cHigh - cLow, by omega⟩
  generalize r.span * (cLow + w) / total = x at *
  generalize r.span * cLow / total = y at *
  obtain ⟨n, rfl⟩ : ∃ n, x = y + n := ⟨x - y, by omega⟩
  have hkept : r.span * w ≤ total * n + total := by
    rw [Nat.mul_add, Nat.mul_add] at hHigh
    omega
  have hscaled : r.span * w * scale ≤ n * q + q := by
    calc r.span * w * scale ≤ (total * n + total) * scale := Nat.mul_le_mul_right _ hkept
      _ = n * q + q := by rw [hq]; ring
  rw [Nat.add_sub_cancel_left, Nat.add_sub_cancel_left, Nat.mul_sub_one, ← Nat.mul_assoc]
  omega

/-- **There are no more doublings than the shares are narrow.** -/
theorem two_pow_mul_prod_le {shares : List (ℕ × ℕ)} (hr : r.Settled q) (htotal : 0 < total) (hle : total ≤ q)
    (hq : q = total * scale) (hshares : ∀ share ∈ shares, Share total share)
    (h : code q total fuel r shares = some (σs, t)) :
    2 ^ σs.length * r.span * (shares.map (keptParts scale)).prod ≤ t.span * q ^ shares.length := by
  induction shares generalizing r σs with
  | nil =>
    cases h
    simp
  | cons share shares ih =>
    obtain ⟨hhead, htail⟩ := List.forall_mem_cons.mp hshares
    obtain ⟨hvalid, -, -⟩ := valid_narrow hr htotal hle hhead
    obtain ⟨⟨σs₁, s⟩, hsettle, hrest⟩ := Option.bind_eq_some_iff.mp h
    obtain ⟨⟨τs, t'⟩, hcode, heq⟩ := Option.map_eq_some_iff.mp hrest
    cases heq
    have hfirst := span_mul_keptParts_le hr htotal hq hhead
    have hrest := ih (settled_of_settle hvalid hsettle) htail hcode
    rw [span_of_settle hvalid hsettle] at hrest
    rw [List.length_append, List.map_cons, List.prod_cons, List.length_cons]
    calc 2 ^ (σs₁.length + τs.length) * r.span * (keptParts scale share * (shares.map (keptParts scale)).prod)
        = 2 ^ σs₁.length * 2 ^ τs.length * (shares.map (keptParts scale)).prod * (r.span * keptParts scale share) := by
          rw [pow_add]; ring
      _ ≤ 2 ^ σs₁.length * 2 ^ τs.length * (shares.map (keptParts scale)).prod * ((r.narrow total share).span * q) :=
          Nat.mul_le_mul_left _ hfirst
      _ = 2 ^ τs.length * (2 ^ σs₁.length * (r.narrow total share).span) * (shares.map (keptParts scale)).prod * q := by
          ring
      _ ≤ t.span * q ^ shares.length * q := Nat.mul_le_mul_right _ hrest
      _ = t.span * q ^ (shares.length + 1) := by rw [pow_succ]; ring

end Doublings

end CodeRange

/-! ## Means -/

/-- A product against the mean of its factors. -/
theorem prod_le_pow_mul_exp {l : List ℝ} {a : ℝ} (ha : 0 < a) (hnonneg : ∀ x ∈ l, 0 ≤ x) :
    l.prod ≤ a ^ l.length * Real.exp (l.sum / a - l.length) := by
  induction l with
  | nil => simp
  | cons x l ih =>
    obtain ⟨hx, hl⟩ := List.forall_mem_cons.mp hnonneg
    have hhead : x ≤ a * Real.exp (x / a - 1) := by
      have hexp := Real.add_one_le_exp (x / a - 1)
      rw [sub_add_cancel, div_le_iff₀ ha, mul_comm] at hexp
      exact hexp
    have hsum : Real.exp ((x :: l).sum / a - (x :: l).length) =
        Real.exp (x / a - 1) * Real.exp (l.sum / a - l.length) := by
      rw [← Real.exp_add, List.sum_cons, List.length_cons, Nat.cast_succ]
      congr 1
      ring
    rw [List.prod_cons, hsum, List.length_cons, pow_succ]
    calc x * l.prod ≤ a * Real.exp (x / a - 1) * (a ^ l.length * Real.exp (l.sum / a - l.length)) :=
          mul_le_mul hhead (ih hl) (List.prod_nonneg hl) (by positivity)
      _ = a ^ l.length * a * (Real.exp (x / a - 1) * Real.exp (l.sum / a - l.length)) := by ring

/-- **At most `n` numbers, with a sum of at most `n * a`, have a product of at most `a ^ n`.** -/
theorem prod_le_pow {l : List ℝ} {a : ℝ} {n : ℕ} (ha : 3 ≤ a) (hnonneg : ∀ x ∈ l, 0 ≤ x) (hlen : l.length ≤ n)
    (hsum : l.sum ≤ n * a) : l.prod ≤ a ^ n := by
  have hpos : 0 < a := by linarith
  have hmean : l.sum / a - l.length ≤ (n - l.length : ℕ) := by
    rw [Nat.cast_sub hlen]
    exact sub_le_sub_right ((div_le_iff₀ hpos).mpr hsum) _
  have hexp : Real.exp (l.sum / a - l.length) ≤ a ^ (n - l.length) := by
    calc Real.exp (l.sum / a - l.length) ≤ Real.exp ((n - l.length : ℕ) * 1) := by
          rw [mul_one]
          exact Real.exp_le_exp.mpr hmean
      _ = Real.exp 1 ^ (n - l.length) := Real.exp_nat_mul 1 _
      _ ≤ a ^ (n - l.length) := by
          have he := Real.exp_one_lt_d9
          exact pow_le_pow_left₀ (Real.exp_pos 1).le (by linarith) _
  calc l.prod ≤ a ^ l.length * Real.exp (l.sum / a - l.length) := prod_le_pow_mul_exp hpos hnonneg
    _ ≤ a ^ l.length * a ^ (n - l.length) := mul_le_mul_of_nonneg_left hexp (by positivity)
    _ = a ^ n := by rw [← pow_add, Nat.add_sub_cancel' hlen]

/-- Each different element of a list counts once. -/
theorem sum_map_count {α : Type*} [DecidableEq α] (l : List α) :
    (l.map fun v => (1 : ℝ) / l.count v).sum = l.toFinset.card := by
  rw [Finset.sum_list_map_count, Finset.card_eq_sum_ones, Nat.cast_sum]
  apply Finset.sum_congr rfl
  intro v hv
  have hpos : 0 < l.count v := List.count_pos_iff.mpr (List.mem_toFinset.mp hv)
  have hne : (l.count v : ℝ) ≠ 0 := Nat.cast_ne_zero.mpr hpos.ne'
  rw [nsmul_eq_mul, mul_one_div_cancel hne, Nat.cast_one]

end FairCache.Lib
