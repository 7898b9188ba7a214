import FairCache.CacheGen.AcDec
import FairCache.CacheGen.Encoded
import Mathlib.Tactic.IntervalCases

/-!
# What was encoded is decoded

* `Decodes` : the variables of the decoder stand for a range and for the number that the stream writes from there on;
* `Decoder.renormalise_spec` : the decoder doubles as the encoder does;
* `decodePrefix_encode` : the decoder finds the symbols again, whatever bytes follow.
-/

namespace FairCache.CacheGen

open Lib

/-- The variables stand for the range that starts at `b`, after `k` doublings, with `k + 32` bits read. -/
structure Decodes (stream : ℕ → UInt8) (s : Decoder) (r : CodeRange) (b k : ℕ) : Prop where
  low : s.low.toNat = r.low
  high : s.high.toNat = r.high
  value : b + s.value.toNat = Bits.window (Bits.ofStream stream) (k + 32)
  bitIdx : 1 ≤ s.reader.bitIdx ∧ s.reader.bitIdx ≤ 8
  position : 8 * s.reader.byteBufferOffset + s.reader.bitIdx = k + 33
  byteBuffer : s.reader.byteBuffer = stream s.reader.byteBufferOffset

/-! ## Reading -/

section Reading
variable {stream : ℕ → UInt8}

/-- The bytes of the first word are swapped, so that its bits are those of the stream. -/
theorem getLsbD_bigToSmall_firstWord (stream : ℕ → UInt8) {i : ℕ} (hi : i < 32) :
    (bigToSmall (firstWord stream)).getLsbD (31 - i) = Bits.ofStream stream i := by
  show _ = (stream (i / 8)).toBitVec.getLsbD (7 - i % 8)
  unfold bigToSmall firstWord
  interval_cases i <;> simp

/-- The first value is the number that the first 32 bits write. -/
theorem toNat_bigToSmall_firstWord (stream : ℕ → UInt8) :
    (bigToSmall (firstWord stream)).toNat = Bits.window (Bits.ofStream stream) 32 := by
  have hprefix : ∀ i (hi : i < (Bits.ofNat 32 (bigToSmall (firstWord stream)).toNat).length),
      Bits.ofStream stream i = (Bits.ofNat 32 (bigToSmall (firstWord stream)).toNat)[i] := by
    intro i hi
    rw [Bits.getElem_ofNat]
    rw [Bits.length_ofNat] at hi
    exact (getLsbD_bigToSmall_firstWord stream hi).symm
  have hwindow := Bits.window_of_prefix hprefix
  rw [Bits.length_ofNat, Bits.toNat_ofNat, Nat.mod_eq_of_lt (BitVec.isLt _)] at hwindow
  exact hwindow.symm

/-- The bit that is read. -/
theorem toNat_readNextBit (byte : UInt8) {bitIdx : ℕ} :
    ((byte.toBitVec.setWidth 32 >>> (8 - bitIdx)) &&& 1 : BitVec 32).toNat = (byte.toNat.testBit (8 - bitIdx)).toNat := by
  have hbyte : (byte.toBitVec.setWidth 32).toNat = byte.toNat := by
    rw [BitVec.toNat_setWidth]
    exact Nat.mod_eq_of_lt (lt_trans byte.toNat_lt (by decide))
  rw [BitVec.toNat_and, BitVec.toNat_ushiftRight, hbyte, Nat.shiftRight_eq_div_pow, Nat.toNat_testBit]
  exact Nat.and_one_is_mod _

/-- **The next bit of the stream comes into the value.** -/
theorem readBit_spec {s : Decoder} {k : ℕ} (hidx : 1 ≤ s.reader.bitIdx ∧ s.reader.bitIdx ≤ 8)
    (hposition : 8 * s.reader.byteBufferOffset + s.reader.bitIdx = k + 33)
    (hbuffer : s.reader.byteBuffer = stream s.reader.byteBufferOffset) :
    (s.readBit stream).value.toNat = 2 * s.value.toNat % 2 ^ 32 + (Bits.ofStream stream (k + 32)).toNat ∧
      (1 ≤ (s.readBit stream).reader.bitIdx ∧ (s.readBit stream).reader.bitIdx ≤ 8) ∧
      8 * (s.readBit stream).reader.byteBufferOffset + (s.readBit stream).reader.bitIdx = k + 1 + 33 ∧
      (s.readBit stream).reader.byteBuffer = stream (s.readBit stream).reader.byteBufferOffset := by
  refine ⟨?_, ?_⟩
  · have hbit : Bits.ofStream stream (k + 32) = s.reader.byteBuffer.toNat.testBit (8 - s.reader.bitIdx) := by
      have hdiv : (k + 32) / 8 = s.reader.byteBufferOffset := by omega
      have hmod : 7 - (k + 32) % 8 = 8 - s.reader.bitIdx := by omega
      rw [Bits.ofStream, hdiv, hmod, hbuffer]
    show ((s.value <<< 1) ||| ((s.reader.byteBuffer.toBitVec.setWidth 32 >>> (8 - s.reader.bitIdx)) &&& 1)).toNat = _
    have hlt : ((s.reader.byteBuffer.toBitVec.setWidth 32 >>> (8 - s.reader.bitIdx)) &&& 1 : BitVec 32).toNat < 2 := by
      rw [toNat_readNextBit]
      exact Bool.toNat_lt _
    rw [toNat_shl_or _ hlt, toNat_readNextBit, hbit]
  · unfold Decoder.readBit Reader.readNextBit Reader.checkAndUpdateByteBuffer
    dsimp only
    split_ifs with hfull
    · have hone : 1 ≤ 8 := by decide
      refine ⟨⟨Nat.le_refl _, hone⟩, ?_, rfl⟩
      dsimp only
      omega
    · refine ⟨⟨?_, ?_⟩, ?_, hbuffer⟩
      all_goals
        dsimp only
        omega

end Reading

/-! ## Doubling -/

namespace Decoder

variable {stream : ℕ → UInt8} {s : Decoder} {r r' : CodeRange} {σs : List CodeRange.Shift} {fuel b k : ℕ}

/-- A doubling keeps what the decoder knows of the stream: `s₁` is the decoder before the next bit is read. -/
theorem decodes_readBit (hs : Decodes stream s r b k) {s₁ : Decoder} {σ : CodeRange.Shift} (hreader : s₁.reader = s.reader)
    (hlow : (s₁.readBit stream).low.toNat = (r.double quarter σ).low)
    (hhigh : (s₁.readBit stream).high.toNat = (r.double quarter σ).high)
    (hvalue : 2 * s₁.value.toNat % 2 ^ 32 + σ.base quarter = 2 * s.value.toNat) :
    Decodes stream (s₁.readBit stream) (r.double quarter σ) (2 * b + σ.base quarter) (k + 1) := by
  obtain ⟨hread, hidx, hposition, hbuffer⟩ := readBit_spec (s := s₁) (hreader ▸ hs.bitIdx) (hreader ▸ hs.position)
    (hreader ▸ hs.byteBuffer)
  have hnext : Bits.window (Bits.ofStream stream) (k + 1 + 32) =
      2 * (b + s.value.toNat) + (Bits.ofStream stream (k + 32)).toNat := by
    rw [show k + 1 + 32 = k + 32 + 1 by omega, Bits.window, hs.value]
  refine ⟨hlow, hhigh, ?_, hidx, hposition, hbuffer⟩
  rw [hread, hnext]
  omega

/-- The branch that the loop takes for a doubling, if the value is in the range. -/
theorem renormalise_of_shift (fuel : ℕ) (hs : Decodes stream s r b k) (hr : r.Valid quarter) {σ : CodeRange.Shift}
    (hσ : r.shift? quarter = some σ) (hge : r.low ≤ s.value.toNat) (hup : s.value.toNat ≤ r.high) :
    ∃ s₁ : Decoder, s.renormalise stream (fuel + 1) = renormalise stream fuel (s₁.readBit stream) ∧
      s₁.reader = s.reader ∧ (s₁.readBit stream).low.toNat = (r.double quarter σ).low ∧
      (s₁.readBit stream).high.toNat = (r.double quarter σ).high ∧
      2 * s₁.value.toNat % 2 ^ 32 + σ.base quarter = 2 * s.value.toNat := by
  have hq : quarter = 2 ^ 30 := rfl
  obtain ⟨hle, hlt⟩ := id hr
  have hshift := shift?_eq hs.low hs.high
  obtain ⟨houter, hmiddle⟩ := toNat_double hs.low hs.high hr hσ
  rw [renormalise]
  rw [hσ] at hshift
  split_ifs at hshift with h₁ h₂ h₃
  · cases hshift
    obtain ⟨hlow₁, hhigh₁⟩ := houter (by decide)
    rw [if_pos (.inr h₁)]
    rw [BitVec.lt_def, hs.high] at h₁
    have h₁' : r.high < 2 ^ 31 := h₁
    refine ⟨_, rfl, rfl, hlow₁, hhigh₁, ?_⟩
    show 2 * s.value.toNat % 2 ^ 32 + 0 = _
    omega
  · cases hshift
    obtain ⟨hlow₁, hhigh₁⟩ := houter (by decide)
    rw [if_pos (.inl h₂)]
    rw [BitVec.le_def, hs.low] at h₂
    have h₂' : 2 ^ 31 ≤ r.low := h₂
    refine ⟨_, rfl, rfl, hlow₁, hhigh₁, ?_⟩
    show 2 * s.value.toNat % 2 ^ 32 + 4 * quarter = _
    omega
  · cases hshift
    obtain ⟨hlow₁, hhigh₁⟩ := hmiddle rfl
    rw [if_neg (not_or.mpr ⟨h₂, h₁⟩), if_pos h₃]
    obtain ⟨h₃, h₄⟩ := h₃
    rw [BitVec.le_def, hs.low] at h₃
    rw [BitVec.lt_def, hs.high] at h₄
    have h₃' : 2 ^ 30 ≤ r.low := h₃
    have h₄' : r.high < 3 * 2 ^ 30 := h₄
    refine ⟨_, rfl, rfl, hlow₁, hhigh₁, ?_⟩
    show 2 * (s.value - 0x40000000).toNat % 2 ^ 32 + 2 * quarter = _
    rw [BitVec.toNat_sub]
    show 2 * ((2 ^ 32 - 2 ^ 30 + s.value.toNat) % 2 ^ 32) % 2 ^ 32 + 2 * quarter = _
    omega

/-- And it ends if there is nothing to double. -/
theorem renormalise_of_no_shift (hs : Decodes stream s r b k) (hσ : r.shift? quarter = none) :
    s.renormalise stream (fuel + 1) = some s := by
  have hshift := shift?_eq hs.low hs.high
  rw [renormalise]
  rw [hσ] at hshift
  split_ifs at hshift with h₁ h₂ h₃
  rw [if_neg (not_or.mpr ⟨h₂, h₁⟩), if_neg h₃]

/-- **The loop ends when the doublings do**, if what the stream writes is in the range after them. -/
theorem renormalise_spec (hs : Decodes stream s r b k) (hr : r.Valid quarter) (h : r.settle quarter fuel = some (σs, r'))
    (hin : r'.Contains (CodeRange.offset quarter b σs) (Bits.window (Bits.ofStream stream) (k + 32 + σs.length))) :
    ∃ s', s.renormalise stream fuel = some s' ∧ Decodes stream s' r' (CodeRange.offset quarter b σs) (k + σs.length) := by
  induction fuel generalizing s r b k σs with
  | zero => cases h
  | succ fuel ih =>
    -- the value is in the range
    have hnow := CodeRange.contains_of_settle hr h hin
    rw [Bits.window_add_div, ← hs.value] at hnow
    obtain ⟨hge, hup⟩ := hnow
    rw [CodeRange.settle] at h
    cases hσ : r.shift? quarter with
    | none =>
      rw [hσ] at h
      cases h
      exact ⟨s, renormalise_of_no_shift hs hσ, hs⟩
    | some σ =>
      obtain ⟨-, hvalid, -, -⟩ := CodeRange.shift_some hσ hr
      rw [hσ] at h
      obtain ⟨⟨τs, r''⟩, hsettle, heq⟩ := Option.map_eq_some_iff.mp h
      cases heq
      obtain ⟨s₁, hloop, hreader, hlow, hhigh, hvalue⟩ := renormalise_of_shift fuel hs hr hσ (by omega) (by omega)
      have hlen : k + 32 + (σ :: τs).length = k + 1 + 32 + τs.length := by
        rw [List.length_cons]
        omega
      rw [hlen] at hin
      obtain ⟨s', hs', hdecodes⟩ := ih (decodes_readBit hs hreader hlow hhigh hvalue) hvalid hsettle hin
      refine ⟨s', hloop.trans hs', ?_⟩
      rw [show k + (σ :: τs).length = k + 1 + τs.length by rw [List.length_cons]; omega]
      exact hdecodes

/-! ## Symbols -/

/-- **The symbol is found in whose share the value is.** -/
theorem binsearch_count {cdf : Cdf} {sym : ℕ} (hs : Decodes stream s r b k) (hr : r.Settled quarter)
    (hsym : sym ≤ cdf.maxSymbol)
    (hin : (r.narrow (2 ^ 16) (cdf.share sym)).Contains b (Bits.window (Bits.ofStream stream) (k + 32))) :
    cdf.binsearch s.count = sym := by
  have hshare := cdf.share_spec hsym
  have hone := CodeRange.lt_narrow hr (by decide) (by decide) hshare
  obtain ⟨-, -, hhighLe⟩ := CodeRange.valid_narrow hr (by decide) (by decide) hshare
  have hq : quarter = 2 ^ 30 := rfl
  have hle := hr.le
  have hlt := hr.lt
  have hlow := hs.low
  have hhigh := hs.high
  rw [← hs.value] at hin
  obtain ⟨hge, hup⟩ := hin
  unfold CodeRange.narrow at hge hup hhighLe
  dsimp only at hge hup hhighLe
  have hspan : r.span = r.high - r.low + 1 := rfl
  -- the value, counted from the start of the range
  obtain ⟨v, hv⟩ : ∃ v, s.value.toNat = r.low + v := ⟨s.value.toNat - r.low, by omega⟩
  have hvle : v + 1 ≤ r.span := by omega
  have hscaledShare : (cdf.share sym).1 ≤ ((v + 1) * 2 ^ 16 - 1) / r.span ∧ ((v + 1) * 2 ^ 16 - 1) / r.span < (cdf.share sym).2 := by
    apply (CodeRange.narrow_iff (by decide)).mp
    exact ⟨by omega, by omega⟩
  have hcount : s.count.toNat = ((v + 1) * 2 ^ 16 - 1) / r.span := by
    have hbound : ((v + 1) * 2 ^ 16 - 1) / r.span < 2 ^ 16 := lt_of_lt_of_le hscaledShare.2 hshare.le
    have hdiff : (s.value.setWidth 64 - s.low.setWidth 64 + 1 : BitVec 64).toNat = v + 1 := by
      rw [BitVec.toNat_add, BitVec.toNat_sub, BitVec.toNat_setWidth, BitVec.toNat_setWidth, hv, hlow]
      show (_ + 1) % 2 ^ 64 = _
      omega
    have hwide : (s.high.setWidth 64 - s.low.setWidth 64 + 1 : BitVec 64).toNat = r.span := by
      rw [BitVec.toNat_add, BitVec.toNat_sub, BitVec.toNat_setWidth, BitVec.toNat_setWidth, hlow, hhigh]
      show (_ + 1) % 2 ^ 64 = _
      omega
    have hscaled : ((s.value.setWidth 64 - s.low.setWidth 64 + 1) * 0x10000 - 1 : BitVec 64).toNat =
        (v + 1) * 2 ^ 16 - 1 := by
      rw [BitVec.toNat_sub, BitVec.toNat_mul, hdiff]
      show (2 ^ 64 - 1 + (v + 1) * 2 ^ 16 % 2 ^ 64) % 2 ^ 64 = _
      omega
    unfold count
    dsimp only
    rw [BitVec.toNat_setWidth, BitVec.toNat_udiv, hscaled, hwide, Nat.mod_eq_of_lt hbound]
  apply Cdf.binsearch_spec hsym
  · rw [hcount]
    exact hscaledShare.1
  · rw [hcount]
    exact hscaledShare.2

/-- **The tokens** that the stream writes from there on are decoded. -/
theorem decodeTokens_spec {cdf : Cdf} {syms : List ℕ} (hs : Decodes stream s r b k) (hr : r.Settled quarter)
    (hsyms : ∀ sym ∈ syms, sym ≤ cdf.maxSymbol)
    (h : r.code quarter (2 ^ 16) fuel (syms.map cdf.share) = some (σs, r'))
    (hin : r'.Contains (CodeRange.offset quarter b σs) (Bits.window (Bits.ofStream stream) (k + 32 + σs.length))) :
    decodeTokens cdf stream fuel syms.length s = some syms := by
  induction syms generalizing s r b k σs with
  | nil => rfl
  | cons sym syms ih =>
    obtain ⟨hsym, hrest⟩ := List.forall_mem_cons.mp hsyms
    have hshares : ∀ share ∈ syms.map cdf.share, CodeRange.Share (2 ^ 16) share := by
      intro share hshare
      obtain ⟨sym', hsym', rfl⟩ := List.mem_map.mp hshare
      exact cdf.share_spec (hrest sym' hsym')
    obtain ⟨⟨σs₁, r₁⟩, hsettle, hcode⟩ := Option.bind_eq_some_iff.mp h
    obtain ⟨⟨τs, r''⟩, hcode, heq⟩ := Option.map_eq_some_iff.mp hcode
    cases heq
    obtain ⟨hvalid, -, -⟩ := CodeRange.valid_narrow hr (by decide) (by decide) (cdf.share_spec hsym)
    have hsettled := CodeRange.settled_of_settle hvalid hsettle
    rw [CodeRange.offset_append, List.length_append, ← Nat.add_assoc] at hin
    have hafter := CodeRange.contains_of_code hsettled (by decide) (by decide) hshares hcode hin
    rw [Bits.window_add_div] at hafter
    have hbefore := CodeRange.contains_of_settle hvalid hsettle hafter
    rw [Bits.window_add_div] at hbefore
    have hfound := binsearch_count hs hr hsym hbefore
    rw [List.length_cons, decodeTokens]
    dsimp only
    rw [hfound]
    split_ifs with hlast
    · rw [List.eq_nil_of_length_eq_zero hlast]
    · obtain ⟨hlow, hhigh⟩ := cdf.narrow_spec hr hs.low hs.high hsym
      have hnarrow : Decodes stream { s with low := (cdf.narrow s.low s.high sym).1, high := (cdf.narrow s.low s.high sym).2 }
          (r.narrow (2 ^ 16) (cdf.share sym)) b k :=
        ⟨hlow, hhigh, hs.value, hs.bitIdx, hs.position, hs.byteBuffer⟩
      obtain ⟨s', hs', hdecodes⟩ := renormalise_spec hnarrow hvalid hsettle hafter
      rw [show k + 32 + σs₁.length + τs.length = k + σs₁.length + 32 + τs.length by omega] at hin
      rw [hs']
      show Option.map _ (decodeTokens cdf stream fuel syms.length s') = _
      rw [ih hdecodes hsettled hrest hcode hin]
      rfl

end Decoder

/-- The code of the symbols, with any bytes behind it, is decoded to them. -/
theorem decodePrefix_of_coded {cdf : Cdf} {syms : List ℕ} {fuel : ℕ} {σs : List CodeRange.Shift} {r : CodeRange}
    {bytes : Bytes} (hcoded : Coded cdf syms fuel σs r bytes) (hsyms : ∀ sym ∈ syms, sym ≤ cdf.maxSymbol)
    {stream : ℕ → UInt8} (hstream : ∀ i (hi : i < bytes.length), stream i = bytes[i]) :
    decodePrefixWithAccessorKernel cdf stream fuel syms.length = some syms := by
  obtain ⟨pad, hbits, -⟩ := hcoded.bits
  set t := (⟨[], 0⟩ : CodeRange.Sent).pushAll σs with ht
  have hcount : t.count = σs.length := by
    rw [ht, CodeRange.Sent.count_pushAll]
    exact Nat.zero_add _
  have hbase : t.base quarter = CodeRange.offset quarter 0 σs := by
    rw [ht, CodeRange.Sent.base_pushAll]
    rfl
  have hprefix : ∀ i (hi : i < (r.closing quarter t).length), Bits.ofStream stream i = (r.closing quarter t)[i] := by
    intro i hi
    have hi' : i < (Bits.ofBytes bytes).length := by
      rw [hbits, List.length_append]
      omega
    rw [Bits.ofStream_of_prefix hstream i hi']
    simp only [hbits]
    rw [List.getElem_append_left hi]
  have hin := CodeRange.window_closing hcoded.settled hprefix
  rw [hcount, hbase, show σs.length + 2 + 30 = 0 + 32 + σs.length by omega] at hin
  have hidx : 1 ≤ 8 := by decide
  have hnew : Decodes stream (.new stream) whole 0 0 :=
    ⟨rfl, rfl, (Nat.zero_add _).trans (toNat_bigToSmall_firstWord stream), ⟨Nat.le_refl 1, hidx⟩, rfl, rfl⟩
  exact Decoder.decodeTokens_spec hnew settled_whole hsyms hcoded.code hin

/-- **What the encoder writes for a channel, with any bytes behind it, is decoded to the same symbols**, and the loops of
both kernels end. -/
theorem decodePrefix_encode {cdf : Cdf} {syms : List ℕ} {fuel : ℕ} (hsyms : ∀ sym ∈ syms, sym ≤ cdf.maxSymbol)
    (hfuel : 33 ≤ fuel) :
    ∃ bytes, encodeWithAccessorKernel cdf fuel syms = some bytes ∧
      ∀ stream : ℕ → UInt8, (∀ i (hi : i < bytes.length), stream i = bytes[i]) →
        decodePrefixWithAccessorKernel cdf stream fuel syms.length = some syms := by
  obtain ⟨σs, r, bytes, hencode, hcoded⟩ := encodeWithAccessorKernel_spec hsyms hfuel
  exact ⟨bytes, hencode, fun stream hstream => decodePrefix_of_coded hcoded hsyms hstream⟩

/-- A row with a rare symbol, a common one and the last one. -/
def skewed : Cdf where
  values := [0, 3, 65000, 65535]
  le_length := by decide
  length_le := by decide
  head := rfl
  sorted := by decide

/-- Five symbols are three bytes, and are decoded whatever follows. -/
theorem decodePrefix_encode_skewed :
    encodeWithAccessorKernel skewed 33 [1, 0, 1, 2, 1] = some [0, 5, 238] ∧
      ∀ stream : ℕ → UInt8, (∀ i (hi : i < 3), stream i = [0, 5, 238][i]) →
        decodePrefixWithAccessorKernel skewed stream 33 5 = some [1, 0, 1, 2, 1] := by
  have hsyms : ∀ sym ∈ [1, 0, 1, 2, 1], sym ≤ skewed.maxSymbol := by decide
  obtain ⟨bytes, hencode, hdecode⟩ := decodePrefix_encode hsyms (Nat.le_refl 33)
  have hbytes : encodeWithAccessorKernel skewed 33 [1, 0, 1, 2, 1] = some [0, 5, 238] := by decide +kernel
  rw [hbytes] at hencode
  cases hencode
  exact ⟨hbytes, hdecode⟩

end FairCache.CacheGen
