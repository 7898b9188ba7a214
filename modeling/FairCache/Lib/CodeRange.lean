import FairCache.Lib.Bits
import Mathlib.Tactic.Linarith

/-!
# Arithmetic coding with integer ranges

A range of numbers below `4 * q`, with `q = 2 ^ m`, is narrowed to a symbol's share and then doubled as long as it lies in
the lower half, in the upper half, or in the middle one.

* `CodeRange`, `Shift` : a range, and how it is doubled; `settle` : all the doublings that can be made;
* `code` : the doublings for a list of symbols;
* `Sent` : the bits that are sent for doublings, with those that are pending; `closing` : the bits after the last symbol;
* `contains_of_settle`, `contains_of_code` : what is in the last range was in every range before;
* `window_closing` : every stream that starts with the bits that were sent is in the last range;
* `narrow_iff` : how the symbol of a number is found.
-/

namespace FairCache.Lib

/-- A range of numbers, both ends included. -/
structure CodeRange where
  low : ℕ
  high : ℕ
  deriving DecidableEq

namespace CodeRange

/-- The half in which a range lies. -/
inductive Shift
  | lower
  | upper
  | middle
  deriving DecidableEq

/-- What is subtracted when the range is doubled. -/
def Shift.base (q : ℕ) : Shift → ℕ
  | .lower => 0
  | .upper => 4 * q
  | .middle => 2 * q

/-- How many numbers are in the range. -/
def span (r : CodeRange) : ℕ := r.high - r.low + 1

/-- The half in which the range lies, if it lies in one. -/
def shift? (q : ℕ) (r : CodeRange) : Option Shift :=
  if r.high < 2 * q then some .lower
  else if 2 * q ≤ r.low then some .upper
  else if q ≤ r.low ∧ r.high < 3 * q then some .middle
  else none

/-- The half is stretched to the whole. -/
def double (q : ℕ) (r : CodeRange) (σ : Shift) : CodeRange := ⟨2 * r.low - σ.base q, 2 * r.high + 1 - σ.base q⟩

/-- The doublings that can be made, and the range after them, if there are fewer than `fuel`. -/
def settle (q : ℕ) : ℕ → CodeRange → Option (List Shift × CodeRange)
  | 0, _ => none
  | fuel + 1, r =>
    match r.shift? q with
    | none => some ([], r)
    | some σ => (settle q fuel (r.double q σ)).map fun (σs, t) => (σ :: σs, t)

/-- The share `[cLow, cHigh)` of the range, out of `total`. -/
def narrow (total : ℕ) (r : CodeRange) (share : ℕ × ℕ) : CodeRange :=
  ⟨r.low + r.span * share.1 / total, r.low + r.span * share.2 / total - 1⟩

/-- The doublings for a list of shares, and the range after them. -/
def code (q total fuel : ℕ) : CodeRange → List (ℕ × ℕ) → Option (List Shift × CodeRange)
  | r, [] => some ([], r)
  | r, share :: shares =>
    (settle q fuel (r.narrow total share)).bind fun (σs, s) =>
      (code q total fuel s shares).map fun (τs, t) => (σs ++ τs, t)

/-- A range of numbers below `4 * q`. -/
structure Valid (q : ℕ) (r : CodeRange) : Prop where
  le : r.low ≤ r.high
  lt : r.high < 4 * q

/-- A range that cannot be doubled. -/
structure Settled (q : ℕ) (r : CodeRange) : Prop extends Valid q r where
  shift : r.shift? q = none

/-- A share of the total that is not empty. -/
structure Share (total : ℕ) (share : ℕ × ℕ) : Prop where
  lt : share.1 < share.2
  le : share.2 ≤ total

/-! ## Doubling -/

section Doubling
variable {q total fuel : ℕ} {r t : CodeRange} {σ : Shift} {σs : List Shift}

/-- What a doubling needs, and how wide a range it leaves. -/
theorem shift_some (h : r.shift? q = some σ) (hr : r.Valid q) :
    σ.base q ≤ 2 * r.low ∧ (r.double q σ).Valid q ∧ (r.double q σ).span = 2 * r.span ∧ r.span ≤ 2 * q := by
  obtain ⟨hle, hlt⟩ := hr
  unfold shift? at h
  split_ifs at h with h₁ h₂ h₃
  all_goals
    cases h
    refine ⟨?_, ⟨?_, ?_⟩, ?_, ?_⟩
  all_goals
    simp only [Shift.base, double, span]
    omega

/-- A range that cannot be doubled is wide. -/
theorem Settled.lt_span (h : r.Settled q) : q < r.span := by
  have hshift := h.shift
  have hle := h.le
  unfold shift? at hshift
  split_ifs at hshift with h₁ h₂ h₃
  unfold span
  omega

/-- It has numbers in both halves. -/
theorem Settled.mid (h : r.Settled q) : r.low < 2 * q ∧ 2 * q ≤ r.high ∧ (q ≤ r.low → 3 * q ≤ r.high) := by
  have hshift := h.shift
  unfold shift? at hshift
  split_ifs at hshift with h₁ h₂ h₃
  omega

/-- **There are only so many doublings**: each makes the range twice as wide. -/
theorem settle_isSome {n : ℕ} (hr : r.Valid q) (hspan : 4 * q ≤ r.span * 2 ^ n) : ∃ x, settle q (n + 1) r = some x := by
  induction n generalizing r with
  | zero =>
    rw [pow_zero, Nat.mul_one] at hspan
    cases hshift : r.shift? q with
    | none => exact ⟨_, by rw [settle, hshift]⟩
    | some σ =>
      obtain ⟨-, -, -, hsmall⟩ := shift_some hshift hr
      have hle := hr.le
      have hlt := hr.lt
      omega
  | succ n ih =>
    cases hshift : r.shift? q with
    | none => exact ⟨_, by rw [settle, hshift]⟩
    | some σ =>
      obtain ⟨-, hvalid, hdouble, -⟩ := shift_some hshift hr
      have hspan' : 4 * q ≤ (r.double q σ).span * 2 ^ n := by
        rw [hdouble, Nat.mul_comm 2, Nat.mul_assoc, ← pow_succ']
        exact hspan
      obtain ⟨⟨σs, t⟩, hsettle⟩ := ih hvalid hspan'
      exact ⟨_, by rw [settle, hshift]; dsimp only; rw [hsettle]; rfl⟩

/-- Doublings end in a range that cannot be doubled. -/
theorem settled_of_settle (hr : r.Valid q) (h : settle q fuel r = some (σs, t)) : t.Settled q := by
  induction fuel generalizing r σs with
  | zero => cases h
  | succ fuel ih =>
    rw [settle] at h
    cases hshift : r.shift? q with
    | none =>
      rw [hshift] at h
      cases h
      exact ⟨hr, hshift⟩
    | some σ =>
      rw [hshift] at h
      obtain ⟨⟨τs, t'⟩, hsettle, heq⟩ := Option.map_eq_some_iff.mp h
      cases heq
      exact ih (shift_some hshift hr).2.1 hsettle

end Doubling

/-! ## Offsets -/

/-- Where the range starts, on the scale that the doublings make finer and finer. -/
def offset (q : ℕ) (b : ℕ) (σs : List Shift) : ℕ := σs.foldl (fun b σ => 2 * b + σ.base q) b

theorem offset_append (q b : ℕ) (σs τs : List Shift) : offset q b (σs ++ τs) = offset q (offset q b σs) τs :=
  List.foldl_append

/-- The number is in the range that starts there. -/
def Contains (r : CodeRange) (b x : ℕ) : Prop := b + r.low ≤ x ∧ x ≤ b + r.high

section Contains
variable {q total fuel : ℕ} {r t : CodeRange} {σs : List Shift}

/-- **What is in the range after the doublings was in the range before.** -/
theorem contains_of_settle (hr : r.Valid q) (h : settle q fuel r = some (σs, t)) {b x : ℕ}
    (hx : t.Contains (offset q b σs) x) : r.Contains b (x / 2 ^ σs.length) := by
  induction fuel generalizing r σs b with
  | zero => cases h
  | succ fuel ih =>
    rw [settle] at h
    cases hshift : r.shift? q with
    | none =>
      rw [hshift] at h
      cases h
      rw [List.length_nil, pow_zero, Nat.div_one]
      exact hx
    | some σ =>
      rw [hshift] at h
      obtain ⟨⟨τs, t'⟩, hsettle, heq⟩ := Option.map_eq_some_iff.mp h
      cases heq
      obtain ⟨hbase, hvalid, -, -⟩ := shift_some hshift hr
      obtain ⟨hlow, hhigh⟩ := ih hvalid hsettle (b := 2 * b + σ.base q) hx
      rw [List.length_cons, pow_succ, ← Nat.div_div_eq_div_mul]
      generalize x / 2 ^ τs.length = y at hlow hhigh
      have hle := hr.le
      simp only [double] at hlow hhigh
      constructor
      · omega
      · omega

/-- A share of a range that cannot be doubled has a number at least. -/
theorem lt_narrow {share : ℕ × ℕ} (hr : r.Settled q) (htotal : 0 < total) (hq : total ≤ q) (hshare : Share total share) :
    r.span * share.1 / total + 1 ≤ r.span * share.2 / total := by
  have hspan := hr.lt_span
  have hmul : r.span * share.1 / total * total ≤ r.span * share.1 := Nat.div_mul_le_self _ _
  have hnext : r.span * share.1 + r.span ≤ r.span * share.2 := by
    rw [← Nat.mul_succ]
    exact Nat.mul_le_mul_left _ hshare.lt
  rw [Nat.le_div_iff_mul_le htotal, Nat.add_mul, Nat.one_mul]
  omega

/-- It is a part of the range. -/
theorem valid_narrow {share : ℕ × ℕ} (hr : r.Settled q) (htotal : 0 < total) (hq : total ≤ q) (hshare : Share total share) :
    (r.narrow total share).Valid q ∧ r.low ≤ (r.narrow total share).low ∧ (r.narrow total share).high ≤ r.high := by
  have hwide := lt_narrow hr htotal hq hshare
  obtain ⟨cLow, cHigh⟩ := share
  have hle := hr.le
  have hlt := hr.lt
  have hfull : r.span * cHigh / total ≤ r.span :=
    Nat.div_le_of_le_mul (Nat.mul_comm total r.span ▸ Nat.mul_le_mul_left _ hshare.le)
  have hdef : r.span = r.high - r.low + 1 := rfl
  unfold narrow
  dsimp only
  dsimp only at hwide
  generalize r.span * cLow / total = x at hwide ⊢
  generalize r.span * cHigh / total = y at hwide hfull ⊢
  have hlow : r.low + x ≤ r.low + y - 1 := by omega
  have hhigh : r.low + y - 1 < 4 * q := by omega
  exact ⟨⟨hlow, hhigh⟩, by omega, by omega⟩

/-- **The symbols' doublings can be made.** -/
theorem code_isSome {n : ℕ} {shares : List (ℕ × ℕ)} (hr : r.Settled q) (htotal : 0 < total) (hq : total ≤ q)
    (hshares : ∀ share ∈ shares, Share total share) (hfuel : 4 * q ≤ 2 ^ n) :
    ∃ σs t, code q total (n + 1) r shares = some (σs, t) ∧ t.Settled q := by
  induction shares generalizing r with
  | nil => exact ⟨[], r, rfl, hr⟩
  | cons share shares ih =>
    obtain ⟨hhead, htail⟩ := List.forall_mem_cons.mp hshares
    obtain ⟨hvalid, -, -⟩ := valid_narrow hr htotal hq hhead
    have hspan : 4 * q ≤ (r.narrow total share).span * 2 ^ n :=
      hfuel.trans (Nat.le_mul_of_pos_left _ (Nat.succ_pos _))
    obtain ⟨⟨σs, s⟩, hsettle⟩ := settle_isSome hvalid hspan
    obtain ⟨τs, t, hcode, ht⟩ := ih (settled_of_settle hvalid hsettle) htail
    refine ⟨σs ++ τs, t, ?_, ht⟩
    rw [code, hsettle]
    show Option.map _ (code q total (n + 1) s shares) = _
    rw [hcode]
    rfl

/-- **What is in the range after the symbols was in the range before.** -/
theorem contains_of_code {shares : List (ℕ × ℕ)} (hr : r.Settled q) (htotal : 0 < total) (hq : total ≤ q)
    (hshares : ∀ share ∈ shares, Share total share) (h : code q total fuel r shares = some (σs, t)) {b x : ℕ}
    (hx : t.Contains (offset q b σs) x) : r.Contains b (x / 2 ^ σs.length) := by
  induction shares generalizing r σs b with
  | nil =>
    cases h
    rw [List.length_nil, pow_zero, Nat.div_one]
    exact hx
  | cons share shares ih =>
    obtain ⟨hhead, htail⟩ := List.forall_mem_cons.mp hshares
    obtain ⟨hvalid, hlow, hhigh⟩ := valid_narrow hr htotal hq hhead
    obtain ⟨⟨σs₁, s⟩, hsettle, hrest⟩ := Option.bind_eq_some_iff.mp h
    obtain ⟨⟨τs, t'⟩, hcode, heq⟩ := Option.map_eq_some_iff.mp hrest
    cases heq
    rw [offset_append] at hx
    have hafter := ih (settled_of_settle hvalid hsettle) htail hcode hx
    have hbefore := contains_of_settle hvalid hsettle hafter
    rw [List.length_append, pow_add, Nat.mul_comm, ← Nat.div_div_eq_div_mul]
    unfold Contains at *
    omega

/-- **The symbol of a number** : its share is the one that the number, scaled to the total, is in. -/
theorem narrow_iff {share : ℕ × ℕ} {v : ℕ} (htotal : 0 < total) :
    (r.span * share.1 / total ≤ v ∧ v + 1 ≤ r.span * share.2 / total) ↔
      share.1 ≤ ((v + 1) * total - 1) / r.span ∧ ((v + 1) * total - 1) / r.span < share.2 := by
  have hspan : 0 < r.span := Nat.succ_pos _
  have hpos : 0 < (v + 1) * total := Nat.mul_pos (Nat.succ_pos v) htotal
  rw [Nat.le_div_iff_mul_le hspan, Nat.div_lt_iff_lt_mul hspan, Nat.le_div_iff_mul_le htotal, ← Nat.lt_succ_iff,
    Nat.div_lt_iff_lt_mul htotal, Nat.mul_comm r.span, Nat.mul_comm r.span]
  show _ < (v + 1) * total ∧ _ ↔ _
  omega

end Contains

/-! ## The bits that are sent -/

/-- The bits that were sent, and how many are pending: they are the opposite of the next one. -/
structure Sent where
  bits : List Bool
  pending : ℕ

namespace Sent

/-- A bit is sent, and the pending ones after it. -/
def flush (s : Sent) (bit : Bool) : Sent := ⟨s.bits ++ bit :: List.replicate s.pending (!bit), 0⟩

/-- What is sent for a doubling. -/
def push (s : Sent) : Shift → Sent
  | .lower => s.flush false
  | .upper => s.flush true
  | .middle => { s with pending := s.pending + 1 }

/-- What is sent for doublings. -/
def pushAll (s : Sent) (σs : List Shift) : Sent := σs.foldl push s

/-- How many doublings it was sent for. -/
def count (s : Sent) : ℕ := s.bits.length + s.pending

/-- Where the range starts for whoever receives the bits. -/
def base (q : ℕ) (s : Sent) : ℕ := Bits.toNat s.bits * 2 ^ s.pending * (4 * q) + (2 ^ s.pending - 1) * (2 * q)

theorem count_push (s : Sent) (σ : Shift) : (s.push σ).count = s.count + 1 := by
  cases σ
  all_goals
    simp only [push, flush, count, List.length_append, List.length_cons, List.length_replicate]
    omega

theorem base_push (q : ℕ) (s : Sent) (σ : Shift) : (s.push σ).base q = 2 * s.base q + σ.base q := by
  obtain ⟨k, hk⟩ : ∃ k, 2 ^ s.pending = k + 1 := ⟨2 ^ s.pending - 1, by have := Nat.two_pow_pos s.pending; omega⟩
  cases σ
  all_goals
    simp only [push, flush, base, Shift.base, Bits.toNat_append, Bits.toNat_cons, Bits.toNat_replicate_false,
      Bits.toNat_replicate_true, Bool.not_false, Bool.not_true, Bool.toNat_false, Bool.toNat_true, List.length_cons,
      List.length_replicate, pow_succ, pow_zero, hk, Nat.add_sub_cancel]
  · ring
  · ring
  · have hsub : (k + 1) * 2 - 1 = 2 * k + 1 := by omega
    rw [hsub]
    ring

theorem count_pushAll (s : Sent) (σs : List Shift) : (s.pushAll σs).count = s.count + σs.length := by
  induction σs generalizing s with
  | nil => rfl
  | cons σ σs ih =>
    show ((s.push σ).pushAll σs).count = _
    rw [ih, count_push, List.length_cons]
    omega

/-- **The receiver knows where the range starts.** -/
theorem base_pushAll (q : ℕ) (s : Sent) (σs : List Shift) : (s.pushAll σs).base q = offset q (s.base q) σs := by
  induction σs generalizing s with
  | nil => rfl
  | cons σ σs ih =>
    show ((s.push σ).pushAll σs).base q = _
    rw [ih, base_push]
    rfl

theorem pushAll_append (s : Sent) (σs τs : List Shift) : s.pushAll (σs ++ τs) = (s.pushAll σs).pushAll τs :=
  List.foldl_append

end Sent

/-- The bits after the last symbol: a quarter of the whole that lies in the range. -/
def closing (q : ℕ) (r : CodeRange) (s : Sent) : List Bool :=
  (({ s with pending := s.pending + 1 } : Sent).flush (decide (q ≤ r.low))).bits

theorem length_closing (q : ℕ) (r : CodeRange) (s : Sent) : (closing q r s).length = s.count + 2 := by
  simp only [closing, Sent.flush, Sent.count, List.length_append, List.length_cons, List.length_replicate]
  omega

/-- **A stream that starts with the bits that were sent is in the last range.** -/
theorem window_closing {m : ℕ} {r : CodeRange} {s : Sent} {f : ℕ → Bool} (hr : r.Settled (2 ^ m))
    (h : ∀ i (hi : i < (closing (2 ^ m) r s).length), f i = (closing (2 ^ m) r s)[i]) :
    r.Contains (s.base (2 ^ m)) (Bits.window f (s.count + 2 + m)) := by
  have hsent := Bits.window_of_prefix h
  have hdiv := Bits.window_add_div f (s.count + 2) m
  rw [length_closing] at hsent
  rw [hsent] at hdiv
  obtain ⟨hlow, hhigh, hquarter⟩ := hr.mid
  generalize Bits.window f (s.count + 2 + m) = x at hdiv
  have hx := Nat.div_add_mod x (2 ^ m)
  have hmod : x % 2 ^ m < 2 ^ m := Nat.mod_lt _ (Nat.two_pow_pos m)
  rw [hdiv] at hx
  generalize x % 2 ^ m = y at hx hmod
  obtain ⟨k, hk⟩ : ∃ k, 2 ^ s.pending = k + 1 := ⟨2 ^ s.pending - 1, by have := Nat.two_pow_pos s.pending; omega⟩
  generalize hq : 2 ^ m = q at *
  have hbits : q * Bits.toNat (closing q r s) = s.base q + if q ≤ r.low then 2 * q else q := by
    by_cases hcase : q ≤ r.low
    · simp only [closing, Sent.flush, Sent.base, hcase, decide_true, Bits.toNat_append, Bits.toNat_cons, Bool.not_true,
        Bits.toNat_replicate_false, Bool.toNat_true, List.length_cons, List.length_replicate, pow_succ, hk, if_true,
        Nat.add_sub_cancel]
      ring
    · have hsub : (k + 1) * 2 - 1 = 2 * k + 1 := by omega
      simp only [closing, Sent.flush, Sent.base, hcase, decide_false, Bits.toNat_append, Bits.toNat_cons, Bool.not_false,
        Bits.toNat_replicate_true, Bool.toNat_false, List.length_cons, List.length_replicate, pow_succ, hk, if_false,
        Nat.add_sub_cancel, hsub]
      ring
  rw [hbits] at hx
  unfold Contains
  split_ifs at hx with hcase
  · have := hquarter hcase
    omega
  · omega

end CodeRange

end FairCache.Lib
