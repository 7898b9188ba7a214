import FairCache.CacheGen.AcEnc

/-!
# What the encoder writes

* `Encodes` : the variables of the encoder stand for a range and for the bits that were sent;
* `Cdf.narrow_spec`, `Encoder.renormalise_spec` : the 32-bit arithmetic is that of ranges;
* `encodeWithAccessorKernel_spec` : the bytes of the kernel are the bits of the arithmetic code.
-/

namespace FairCache.CacheGen

open Lib

/-- A quarter of the numbers with 32 bits. -/
abbrev quarter : ℕ := 2 ^ 30

/-- All of them. -/
def whole : CodeRange := ⟨0, 2 ^ 32 - 1⟩

theorem settled_whole : whole.Settled quarter := ⟨⟨Nat.zero_le _, by decide⟩, by decide⟩

/-! ## 32-bit arithmetic -/

section Arithmetic
variable {x : BitVec 32}

theorem toNat_shl (x : BitVec 32) : (x <<< 1).toNat = 2 * x.toNat % 2 ^ 32 := by
  rw [BitVec.toNat_shiftLeft, Nat.shiftLeft_eq, pow_one, Nat.mul_comm]

/-- `x <<= 1; x |= bit`. -/
theorem toNat_shl_or (x : BitVec 32) {bit : BitVec 32} (h : bit.toNat < 2) :
    ((x <<< 1) ||| bit).toNat = 2 * x.toNat % 2 ^ 32 + bit.toNat := by
  have hmod : 2 * x.toNat % 2 ^ 32 = 2 ^ 1 * (x.toNat % 2 ^ 31) := Nat.mul_mod_mul_left 2 x.toNat (2 ^ 31)
  rw [BitVec.toNat_or, toNat_shl, hmod, ← Nat.two_pow_add_eq_or_of_lt h]

/-- `x <<= 1; x &= 0x7FFFFFFF`. -/
theorem toNat_shl_and (x : BitVec 32) : ((x <<< 1) &&& 0x7FFFFFFF).toNat = 2 * x.toNat % 2 ^ 31 := by
  rw [BitVec.toNat_and, toNat_shl]
  show (2 * x.toNat % 2 ^ 32) &&& (2 ^ 31 - 1) = _
  rw [Nat.and_two_pow_sub_one_eq_mod]
  omega

/-- `x <<= 1; x |= 0x80000001` where the top bit gets lost. -/
theorem toNat_shl_or_middle (h : 2 ^ 31 ≤ x.toNat) (h' : x.toNat < 3 * 2 ^ 30) :
    ((x <<< 1) ||| 0x80000001).toNat = 2 * x.toNat + 1 - 2 ^ 31 := by
  have hsplit : (0x80000001 : BitVec 32) = 1 ||| 0x80000000 := by decide
  have hone : ((x <<< 1) ||| 1).toNat = 2 * x.toNat % 2 ^ 32 + 1 := toNat_shl_or x (by decide)
  have hlt : 2 * x.toNat % 2 ^ 32 + 1 < 2 ^ 31 := by omega
  rw [hsplit, ← BitVec.or_assoc, BitVec.toNat_or, hone, Nat.or_comm]
  show 2 ^ 31 * 1 ||| (2 * x.toNat % 2 ^ 32 + 1) = _
  rw [← Nat.two_pow_add_eq_or_of_lt hlt]
  omega

end Arithmetic

/-- **The 64-bit and 32-bit arithmetic of a symbol is that of ranges.** -/
theorem Cdf.narrow_spec {cdf : Cdf} {sym : ℕ} {low high : BitVec 32} {r : CodeRange} (hr : r.Settled quarter)
    (hlow : low.toNat = r.low) (hhigh : high.toNat = r.high) (hsym : sym ≤ cdf.maxSymbol) :
    (cdf.narrow low high sym).1.toNat = (r.narrow (2 ^ 16) (cdf.share sym)).low ∧
      (cdf.narrow low high sym).2.toNat = (r.narrow (2 ^ 16) (cdf.share sym)).high := by
  have hshare := cdf.share_spec hsym
  obtain ⟨hvalid, -, hle⟩ := CodeRange.valid_narrow hr (by decide) (by decide) hshare
  have hone := CodeRange.lt_narrow hr (by decide) (by decide) hshare
  have hq : quarter = 2 ^ 30 := rfl
  have hmono := hr.le
  have hlt := hr.lt
  have hspan : (high.setWidth 64 - low.setWidth 64 + 1 : BitVec 64).toNat = r.span := by
    rw [BitVec.toNat_add, BitVec.toNat_sub, BitVec.toNat_setWidth, BitVec.toNat_setWidth, hlow, hhigh]
    show (_ + 1) % 2 ^ 64 = r.high - r.low + 1
    omega
  have hspanLe : r.span ≤ 2 ^ 32 := by
    unfold CodeRange.span
    omega
  -- the share of the span does not overflow
  have hpart : ∀ c : BitVec 32, c.toNat ≤ 2 ^ 16 →
      ((((high.setWidth 64 - low.setWidth 64 + 1 : BitVec 64) * c.setWidth 64) >>> 16 : BitVec 64)).toNat =
        r.span * c.toNat / 2 ^ 16 ∧ r.span * c.toNat / 2 ^ 16 ≤ 2 ^ 32 := by
    intro c hc
    have hmul : r.span * c.toNat ≤ 2 ^ 32 * 2 ^ 16 := Nat.mul_le_mul hspanLe hc
    have hwidth : (c.setWidth 64).toNat = c.toNat := by
      rw [BitVec.toNat_setWidth]
      omega
    rw [BitVec.toNat_ushiftRight, BitVec.toNat_mul, hspan, hwidth, Nat.shiftRight_eq_div_pow]
    generalize r.span * c.toNat = p at hmul ⊢
    omega
  have hlow' := hpart (cdf.cLow sym) (hshare.lt.le.trans hshare.le)
  have hhigh' := hpart (cdf.cHigh sym) hshare.le
  have hvalidLe := hvalid.le
  have hvalidLt := hvalid.lt
  unfold CodeRange.narrow Cdf.share at hvalidLe hvalidLt hle ⊢
  unfold Cdf.share at hone
  dsimp only at hvalidLe hvalidLt hle hone ⊢
  unfold Cdf.narrow
  dsimp only
  constructor
  · rw [BitVec.toNat_setWidth, BitVec.toNat_add, hlow'.1, BitVec.toNat_setWidth, hlow]
    generalize r.span * (cdf.cLow sym).toNat / 2 ^ 16 = a at *
    generalize r.span * (cdf.cHigh sym).toNat / 2 ^ 16 = b at *
    omega
  · rw [BitVec.toNat_setWidth, BitVec.toNat_add, hhigh'.1, BitVec.toNat_setWidth, BitVec.toNat_sub, hlow]
    show ((2 ^ 32 - 1 + r.low) % 2 ^ 32 % 2 ^ 64 + _) % 2 ^ 64 % 2 ^ 32 = _
    generalize r.span * (cdf.cLow sym).toNat / 2 ^ 16 = a at *
    generalize r.span * (cdf.cHigh sym).toNat / 2 ^ 16 = b at *
    omega

/-- Which case of the loops it is. -/
theorem shift?_eq {low high : BitVec 32} {r : CodeRange} (hlow : low.toNat = r.low) (hhigh : high.toNat = r.high) :
    r.shift? quarter =
      if high < 0x80000000 then some .lower
      else if 0x80000000 ≤ low then some .upper
      else if 0x40000000 ≤ low ∧ high < 0xC0000000 then some .middle
      else none := by
  have hlower : high < 0x80000000 ↔ r.high < 2 * quarter := by
    rw [BitVec.lt_def, hhigh]
    rfl
  have hupper : 0x80000000 ≤ low ↔ 2 * quarter ≤ r.low := by
    rw [BitVec.le_def, hlow]
    rfl
  have hmiddle : (0x40000000 ≤ low ∧ high < 0xC0000000) ↔ (quarter ≤ r.low ∧ r.high < 3 * quarter) := by
    rw [BitVec.le_def, BitVec.lt_def, hlow, hhigh]
    rfl
  simp only [hlower, hupper, hmiddle]
  rfl

/-- **The bit operations on `low` and `high` are a doubling**, in the outer halves and in the middle one. -/
theorem toNat_double {low high : BitVec 32} {r : CodeRange} {σ : CodeRange.Shift} (hlow : low.toNat = r.low)
    (hhigh : high.toNat = r.high) (hr : r.Valid quarter) (h : r.shift? quarter = some σ) :
    (σ ≠ .middle → (low <<< 1).toNat = (r.double quarter σ).low ∧
      ((high <<< 1) ||| 1).toNat = (r.double quarter σ).high) ∧
    (σ = .middle → ((low <<< 1) &&& 0x7FFFFFFF).toNat = (r.double quarter σ).low ∧
      ((high <<< 1) ||| 0x80000001).toNat = (r.double quarter σ).high) := by
  have hq : quarter = 2 ^ 30 := rfl
  obtain ⟨hle, hlt⟩ := hr
  have hor : ((high <<< 1) ||| 1).toNat = 2 * high.toNat % 2 ^ 32 + 1 := toNat_shl_or _ (by decide)
  unfold CodeRange.shift? at h
  unfold CodeRange.double
  dsimp only
  split_ifs at h with h₁ h₂ h₃
  · cases h
    refine ⟨fun _ => ⟨?_, ?_⟩, fun h => by cases h⟩
    · rw [toNat_shl, hlow, CodeRange.Shift.base]
      omega
    · rw [hor, hhigh, CodeRange.Shift.base]
      omega
  · cases h
    refine ⟨fun _ => ⟨?_, ?_⟩, fun h => by cases h⟩
    · rw [toNat_shl, hlow, CodeRange.Shift.base]
      omega
    · rw [hor, hhigh, CodeRange.Shift.base]
      omega
  · cases h
    refine ⟨fun h => absurd rfl h, fun _ => ⟨?_, ?_⟩⟩
    · rw [toNat_shl_and, hlow, CodeRange.Shift.base]
      omega
    · rw [toNat_shl_or_middle (by omega) (by omega), hhigh, CodeRange.Shift.base]
      omega

/-! ## The encoder -/

/-- The variables stand for the range and for what was sent. -/
structure Encodes (s : Encoder) (r : CodeRange) (t : CodeRange.Sent) : Prop where
  low : s.low.toNat = r.low
  high : s.high.toNat = r.high
  pending : s.pendingBits = t.pending
  bits : s.output.bits = t.bits

namespace Encoder

variable {s : Encoder} {r r' : CodeRange} {t : CodeRange.Sent} {σs : List CodeRange.Shift} {fuel : ℕ}

/-- A bit is sent, and the pending ones after it. -/
theorem bits_appendBitAndPending (hs : Encodes s r t) (b : Bool) :
    (s.appendBitAndPending (bitOf b)).output.bits = (t.flush b).bits := by
  unfold appendBitAndPending
  dsimp only
  rw [one_sub_bitOf, Output.bits_addBitsToOutput, Output.bits_addBitsToOutput, hs.bits, hs.pending, List.append_assoc]
  rfl

/-- **The loop ends when the doublings do**, and sends what they send. -/
theorem renormalise_spec (hs : Encodes s r t) (hr : r.Valid quarter) (h : r.settle quarter fuel = some (σs, r')) :
    ∃ s', s.renormalise fuel = some s' ∧ Encodes s' r' (t.pushAll σs) := by
  induction fuel generalizing s r t σs with
  | zero => cases h
  | succ fuel ih =>
    have hshift := shift?_eq hs.low hs.high
    rw [CodeRange.settle] at h
    rw [renormalise]
    split_ifs at hshift ⊢ with h₁ h₂ h₃
    case neg =>
      rw [hshift] at h
      cases h
      exact ⟨s, rfl, hs⟩
    all_goals
      obtain ⟨-, hvalid, -, -⟩ := CodeRange.shift_some hshift hr
      obtain ⟨houter, hmiddle⟩ := toNat_double hs.low hs.high hr hshift
      rw [hshift] at h
      obtain ⟨⟨τs, r''⟩, hsettle, heq⟩ := Option.map_eq_some_iff.mp h
      cases heq
    · obtain ⟨hlow, hhigh⟩ := houter (by decide)
      exact ih (t := t.push .lower) ⟨hlow, hhigh, rfl, bits_appendBitAndPending hs false⟩ hvalid hsettle
    · obtain ⟨hlow, hhigh⟩ := houter (by decide)
      exact ih (t := t.push .upper) ⟨hlow, hhigh, rfl, bits_appendBitAndPending hs true⟩ hvalid hsettle
    · obtain ⟨hlow, hhigh⟩ := hmiddle rfl
      exact ih (t := t.push .middle) ⟨hlow, hhigh, congrArg (· + 1) hs.pending, hs.bits⟩ hvalid hsettle

/-- One symbol. -/
theorem encodeSymbol_spec {cdf : Cdf} {sym : ℕ} (hs : Encodes s r t) (hr : r.Settled quarter) (hsym : sym ≤ cdf.maxSymbol)
    (h : (r.narrow (2 ^ 16) (cdf.share sym)).settle quarter fuel = some (σs, r')) :
    ∃ s', encodeSymbol cdf fuel s sym = some s' ∧ Encodes s' r' (t.pushAll σs) := by
  obtain ⟨hlow, hhigh⟩ := cdf.narrow_spec hr hs.low hs.high hsym
  obtain ⟨hvalid, -, -⟩ := CodeRange.valid_narrow hr (by decide) (by decide) (cdf.share_spec hsym)
  exact renormalise_spec (s := { s with low := _, high := _ }) ⟨hlow, hhigh, hs.pending, hs.bits⟩ hvalid h

/-- **The symbols** are encoded as their shares are. -/
theorem foldlM_spec {cdf : Cdf} {syms : List ℕ} (hs : Encodes s r t) (hr : r.Settled quarter)
    (hsyms : ∀ sym ∈ syms, sym ≤ cdf.maxSymbol)
    (h : r.code quarter (2 ^ 16) fuel (syms.map cdf.share) = some (σs, r')) :
    ∃ s', syms.foldlM (encodeSymbol cdf fuel) s = some s' ∧ Encodes s' r' (t.pushAll σs) := by
  induction syms generalizing s r t σs with
  | nil =>
    cases h
    exact ⟨s, rfl, hs⟩
  | cons sym syms ih =>
    obtain ⟨hsym, hrest⟩ := List.forall_mem_cons.mp hsyms
    obtain ⟨⟨σs₁, r₁⟩, hsettle, hcode⟩ := Option.bind_eq_some_iff.mp h
    obtain ⟨⟨τs, r''⟩, hcode, heq⟩ := Option.map_eq_some_iff.mp hcode
    cases heq
    obtain ⟨hvalid, -, -⟩ := CodeRange.valid_narrow hr (by decide) (by decide) (cdf.share_spec hsym)
    obtain ⟨s₁, hs₁, hencodes⟩ := encodeSymbol_spec hs hr hsym hsettle
    obtain ⟨s', hs', hencodes'⟩ := ih hencodes (CodeRange.settled_of_settle hvalid hsettle) hrest hcode
    refine ⟨s', ?_, ?_⟩
    · rw [List.foldlM_cons, hs₁]
      exact hs'
    · rw [CodeRange.Sent.pushAll_append]
      exact hencodes'

/-- **What is written in the end** are the closing bits, filled up to a byte. -/
theorem ofBytes_finish (hs : Encodes s r t) :
    ∃ pad, Bits.ofBytes s.finish = r.closing quarter t ++ pad ∧ pad.length < 8 := by
  have hlow : s.low < 0x40000000 ↔ ¬ quarter ≤ r.low := by
    rw [BitVec.lt_def, hs.low, not_le]
    rfl
  have hs' : Encodes { s with pendingBits := s.pendingBits + 1 } r { t with pending := t.pending + 1 } :=
    ⟨hs.low, hs.high, congrArg (· + 1) hs.pending, hs.bits⟩
  unfold finish
  dsimp only
  by_cases h : quarter ≤ r.low
  · have hbits := bits_appendBitAndPending hs' true
    obtain ⟨pad, hpad, hlen⟩ := ofBytes_spillPartial
      (appendBitAndPending { s with pendingBits := s.pendingBits + 1 } (bitOf true)).output
    rw [if_neg (fun h' => hlow.mp h' h)]
    refine ⟨pad, hpad.trans ?_, hlen⟩
    rw [hbits, CodeRange.closing, decide_eq_true h]
  · have hbits := bits_appendBitAndPending hs' false
    obtain ⟨pad, hpad, hlen⟩ := ofBytes_spillPartial
      (appendBitAndPending { s with pendingBits := s.pendingBits + 1 } (bitOf false)).output
    rw [if_pos (hlow.mpr h)]
    refine ⟨pad, hpad.trans ?_, hlen⟩
    rw [hbits, CodeRange.closing, decide_eq_false h]

end Encoder

/-- The bits of the arithmetic code, and the range that they lead to. -/
structure Coded (cdf : Cdf) (syms : List ℕ) (fuel : ℕ) (σs : List CodeRange.Shift) (r : CodeRange) (bytes : Bytes) : Prop where
  code : whole.code quarter (2 ^ 16) fuel (syms.map cdf.share) = some (σs, r)
  settled : r.Settled quarter
  bits : ∃ pad, Bits.ofBytes bytes = r.closing quarter ((⟨[], 0⟩ : CodeRange.Sent).pushAll σs) ++ pad ∧ pad.length < 8

/-- **The kernel ends, and its bytes are the bits of the arithmetic code.** -/
theorem encodeWithAccessorKernel_spec {cdf : Cdf} {syms : List ℕ} {fuel : ℕ} (hsyms : ∀ sym ∈ syms, sym ≤ cdf.maxSymbol)
    (hfuel : 33 ≤ fuel) :
    ∃ σs r bytes, encodeWithAccessorKernel cdf fuel syms = some bytes ∧ Coded cdf syms fuel σs r bytes := by
  obtain ⟨n, rfl⟩ : ∃ n, fuel = n + 1 := ⟨fuel - 1, by omega⟩
  have hshares : ∀ share ∈ syms.map cdf.share, CodeRange.Share (2 ^ 16) share := by
    intro share hshare
    obtain ⟨sym, hsym, rfl⟩ := List.mem_map.mp hshare
    exact cdf.share_spec (hsyms sym hsym)
  have hwidth : 4 * quarter ≤ 2 ^ n := le_trans (by decide : 4 * quarter ≤ 2 ^ 32) (Nat.pow_le_pow_right (by decide) (by omega))
  obtain ⟨σs, r, hcode, hr⟩ := CodeRange.code_isSome settled_whole (by decide) (by decide) hshares hwidth
  have hnew : Encodes .new whole ⟨[], 0⟩ := ⟨rfl, rfl, rfl, rfl⟩
  obtain ⟨s, hs, hencodes⟩ := Encoder.foldlM_spec hnew settled_whole hsyms hcode
  refine ⟨σs, r, s.finish, ?_, hcode, hr, Encoder.ofBytes_finish hencodes⟩
  rw [encodeWithAccessorKernel, hs]
  rfl

end FairCache.CacheGen
