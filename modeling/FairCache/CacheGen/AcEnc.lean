import FairCache.Lib.CodeRange

/-!
# The arithmetic encoder of CacheGen

* `Cdf` : a row of the CDF tensor; `Cdf.share` : the share of a symbol;
* `Output` : the register of the encoder and the bytes of its channel; `addBitsToOutput`, `spillRegToShared`,
  `spillPartialRegToShared` : what is written;
* `Encoder`, `encodeWithAccessorKernel` : the kernel for one channel, with `fuel` for each of its loops that has no bound;
* `Output.bits_addBitsToOutput`, `ofBytes_spillPartial` : the bits that are written.
-/

namespace FairCache.CacheGen

open Lib

/-! ## CDF rows -/

/-- A row of the CDF: it starts at 0 and is strictly increasing. -/
structure Cdf where
  values : List (BitVec 16)
  le_length : 2 ≤ values.length
  length_le : values.length ≤ 48
  head : values.head? = some 0
  sorted : values.Pairwise (· < ·)

namespace Cdf

/-- `max_symbol`. -/
def maxSymbol (cdf : Cdf) : ℕ := cdf.values.length - 2

/-- `c_low`. -/
def cLow (cdf : Cdf) (sym : ℕ) : BitVec 32 := (cdf.values.getD sym 0).setWidth 32

/-- `c_high`. -/
def cHigh (cdf : Cdf) (sym : ℕ) : BitVec 32 :=
  if sym = cdf.maxSymbol then 0x10000 else (cdf.values.getD (sym + 1) 0).setWidth 32

/-- The share of the symbol. -/
def share (cdf : Cdf) (sym : ℕ) : ℕ × ℕ := ((cdf.cLow sym).toNat, (cdf.cHigh sym).toNat)

/-- `low` and `high` after the symbol. -/
def narrow (cdf : Cdf) (low high : BitVec 32) (sym : ℕ) : BitVec 32 × BitVec 32 :=
  let span : BitVec 64 := high.setWidth 64 - low.setWidth 64 + 1
  (((low.setWidth 64) + ((span * (cdf.cLow sym).setWidth 64) >>> 16)).setWidth 32,
    ((low - 1).setWidth 64 + ((span * (cdf.cHigh sym).setWidth 64) >>> 16)).setWidth 32)

end Cdf

/-! ## Output -/

/-- The lowest byte. -/
def toByte (x : BitVec 32) : UInt8 := UInt8.ofBitVec (x.setWidth 8)

/-- `output_reg`, `output_reg_len` and the channel's part of `output_shared`. -/
structure Output where
  outputReg : BitVec 32
  outputRegLen : ℕ
  outputShared : Bytes
  lt : outputRegLen < 32

/-- `spill_reg_to_shared`. The register is passed by value and keeps its bits. -/
def spillRegToShared (outputReg : BitVec 32) (outputRegLen : ℕ) (outputShared : Bytes) : Bytes :=
  let outputReg := outputReg <<< (32 - outputRegLen)
  outputShared ++
    [toByte (outputReg >>> 24), toByte ((outputReg >>> 16) &&& 0xFF), toByte ((outputReg >>> 8) &&& 0xFF),
      toByte (outputReg &&& 0xFF)]

/-- The loop of `spill_partial_reg_to_shared`. -/
def spillPartialLoop (outputReg : BitVec 32) (outputRegLen : ℕ) (outputShared : Bytes) : Bytes :=
  if 0 < outputRegLen then
    spillPartialLoop (outputReg <<< 8) (outputRegLen - 8) (outputShared ++ [toByte (outputReg >>> 24)])
  else outputShared
termination_by outputRegLen

/-- `spill_partial_reg_to_shared`. -/
def spillPartialRegToShared (o : Output) : Bytes :=
  spillPartialLoop (o.outputReg <<< (32 - o.outputRegLen)) o.outputRegLen o.outputShared

/-- The body of the loop of `add_bits_to_output`. -/
def addRemaining (bit : BitVec 32) (remaining : ℕ) (o : Output) (hle : o.outputRegLen + remaining ≤ 32) : Output :=
  let outputReg := (o.outputReg <<< remaining) ||| ((bit <<< remaining) - bit)
  if h : o.outputRegLen + remaining = 32 then
    { outputReg := outputReg, outputRegLen := 0, lt := by decide
      outputShared := spillRegToShared outputReg (o.outputRegLen + remaining) o.outputShared }
  else
    { outputReg := outputReg, outputRegLen := o.outputRegLen + remaining, outputShared := o.outputShared
      lt := lt_of_le_of_ne hle h }

/-- `add_bits_to_output`. -/
def addBitsToOutput (bit : BitVec 32) (num : ℕ) (o : Output) : Output :=
  let remaining := min num (32 - o.outputRegLen)
  have hle : o.outputRegLen + remaining ≤ 32 := by have := o.lt; omega
  let o' := addRemaining bit remaining o hle
  if 0 < num - remaining then addBitsToOutput bit (num - remaining) o' else o'
termination_by num
decreasing_by
  have := o.lt
  omega

/-! ## The kernel -/

/-- The variables of the encoder. -/
structure Encoder where
  low : BitVec 32
  high : BitVec 32
  pendingBits : ℕ
  output : Output

namespace Encoder

/-- Before the first symbol. -/
def new : Encoder :=
  { low := 0, high := 0xFFFFFFFF, pendingBits := 0
    output := { outputReg := 0, outputRegLen := 0, outputShared := [], lt := by decide } }

/-- `append_bit_and_pending`. -/
def appendBitAndPending (s : Encoder) (bit : BitVec 32) : Encoder :=
  { s with pendingBits := 0, output := addBitsToOutput (1 - bit) s.pendingBits (addBitsToOutput bit 1 s.output) }

/-- The `while (true)` loop, if it ends within `fuel` tests. -/
def renormalise : ℕ → Encoder → Option Encoder
  | 0, _ => none
  | fuel + 1, s =>
    if s.high < 0x80000000 then
      let s := s.appendBitAndPending 0
      renormalise fuel { s with low := s.low <<< 1, high := (s.high <<< 1) ||| 1 }
    else if 0x80000000 ≤ s.low then
      let s := s.appendBitAndPending 1
      renormalise fuel { s with low := s.low <<< 1, high := (s.high <<< 1) ||| 1 }
    else if 0x40000000 ≤ s.low ∧ s.high < 0xC0000000 then
      renormalise fuel
        { s with
          pendingBits := s.pendingBits + 1
          low := (s.low <<< 1) &&& 0x7FFFFFFF
          high := (s.high <<< 1) ||| 0x80000001 }
    else some s

/-- One symbol. -/
def encodeSymbol (cdf : Cdf) (fuel : ℕ) (s : Encoder) (sym : ℕ) : Option Encoder :=
  let (low, high) := cdf.narrow s.low s.high sym
  renormalise fuel { s with low := low, high := high }

/-- What is written after the last symbol. -/
def finish (s : Encoder) : Bytes :=
  let s := { s with pendingBits := s.pendingBits + 1 }
  let s := if s.low < 0x40000000 then s.appendBitAndPending 0 else s.appendBitAndPending 1
  spillPartialRegToShared s.output

end Encoder

/-- `encode_with_accessor_kernel` for one channel: the bytes that it writes. -/
def encodeWithAccessorKernel (cdf : Cdf) (fuel : ℕ) (inputSym : List ℕ) : Option Bytes :=
  (inputSym.foldlM (Encoder.encodeSymbol cdf fuel) .new).map Encoder.finish

/-! ## Shares -/

namespace Cdf

variable {cdf : Cdf} {sym : ℕ}

theorem getElem_lt_getElem (cdf : Cdf) {i j : ℕ} (hij : i < j) (hj : j < cdf.values.length) :
    cdf.values[i].toNat < cdf.values[j].toNat :=
  List.pairwise_iff_getElem.mp cdf.sorted i j (hij.trans hj) hj hij

theorem toNat_cLow (cdf : Cdf) (sym : ℕ) : (cdf.cLow sym).toNat = (cdf.values.getD sym 0).toNat := by
  unfold cLow
  rw [BitVec.toNat_setWidth]
  have := (cdf.values.getD sym 0).isLt
  omega

theorem toNat_cHigh (h : sym < cdf.maxSymbol) : (cdf.cHigh sym).toNat = (cdf.cLow (sym + 1)).toNat := by
  unfold cHigh
  rw [if_neg (Nat.ne_of_lt h)]
  rfl

theorem toNat_cHigh_maxSymbol (cdf : Cdf) : (cdf.cHigh cdf.maxSymbol).toNat = 2 ^ 16 := by
  unfold cHigh
  rw [if_pos rfl]
  rfl

theorem toNat_cLow_lt {i j : ℕ} (hij : i < j) (hj : j ≤ cdf.maxSymbol) : (cdf.cLow i).toNat < (cdf.cLow j).toNat := by
  have hlen := cdf.le_length
  unfold maxSymbol at hj
  have hj' : j < cdf.values.length := by omega
  rw [toNat_cLow, toNat_cLow, ← List.getElem_eq_getD (h := hij.trans hj') 0, ← List.getElem_eq_getD (h := hj') 0]
  exact cdf.getElem_lt_getElem hij hj'

/-- **A symbol has a share.** -/
theorem share_spec (h : sym ≤ cdf.maxSymbol) : CodeRange.Share (2 ^ 16) (cdf.share sym) := by
  have hlow : (cdf.cLow sym).toNat < 2 ^ 16 := by
    rw [toNat_cLow]
    exact BitVec.isLt _
  rcases Nat.lt_or_eq_of_le h with hlt | rfl
  · have hnext : (cdf.cLow (sym + 1)).toNat < 2 ^ 16 := by
      rw [toNat_cLow]
      exact BitVec.isLt _
    refine ⟨?_, ?_⟩
    · show (cdf.cLow sym).toNat < (cdf.cHigh sym).toNat
      rw [toNat_cHigh hlt]
      exact toNat_cLow_lt (Nat.lt_succ_self sym) hlt
    · show (cdf.cHigh sym).toNat ≤ _
      rw [toNat_cHigh hlt]
      omega
  · refine ⟨?_, ?_⟩
    · show (cdf.cLow cdf.maxSymbol).toNat < (cdf.cHigh cdf.maxSymbol).toNat
      rw [toNat_cHigh_maxSymbol]
      exact hlow
    · show (cdf.cHigh cdf.maxSymbol).toNat ≤ _
      rw [toNat_cHigh_maxSymbol]

end Cdf

/-! ## What is written -/

/-- The bits that were written. -/
def Output.bits (o : Output) : List Bool := Bits.ofBytes o.outputShared ++ Bits.ofNat o.outputRegLen o.outputReg.toNat

/-- A bit as the code passes it. -/
def bitOf (b : Bool) : BitVec 32 := if b then 1 else 0

theorem one_sub_bitOf (b : Bool) : 1 - bitOf b = bitOf (!b) := by
  cases b <;> rfl

/-- `(bit << n) - bit` is `n` times the bit. -/
theorem testBit_ones (b : Bool) {n i : ℕ} (hn : n ≤ 32) : ((bitOf b <<< n) - bitOf b).toNat.testBit i = (b && decide (i < n)) := by
  cases b with
  | false =>
    have hzero : ((bitOf false <<< n) - bitOf false).toNat = 0 := by
      simp [bitOf]
    rw [hzero, Nat.zero_testBit, Bool.false_and]
  | true =>
    have hones : ((bitOf true <<< n) - bitOf true).toNat = 2 ^ n - 1 := by
      have hpos := Nat.two_pow_pos n
      have hle : 2 ^ n ≤ 2 ^ 32 := Nat.pow_le_pow_right (by decide) hn
      have hone : (bitOf true).toNat = 1 := rfl
      rw [BitVec.toNat_sub, BitVec.toNat_shiftLeft, hone, Nat.one_shiftLeft]
      rcases Nat.lt_or_eq_of_le hn with hlt | rfl
      · have hlt' : 2 ^ n < 2 ^ 32 := Nat.pow_lt_pow_right (by decide) hlt
        rw [Nat.mod_eq_of_lt hlt']
        omega
      · rfl
    rw [hones, Nat.testBit_two_pow_sub_one, Bool.true_and]

/-- The bits of the register after some more. -/
theorem ofNat_reg (reg : BitVec 32) (b : Bool) {len n : ℕ} (h : len + n ≤ 32) :
    Bits.ofNat (len + n) ((reg <<< n) ||| ((bitOf b <<< n) - bitOf b)).toNat =
      Bits.ofNat len reg.toNat ++ List.replicate n b := by
  have hlen : (Bits.ofNat len reg.toNat ++ List.replicate n b).length = len + n := by
    rw [List.length_append, Bits.length_ofNat, List.length_replicate]
  rw [Bits.ofNat_eq_iff hlen]
  intro i hi
  rw [hlen] at hi
  rw [BitVec.toNat_or, Nat.testBit_or, testBit_ones b (by omega), BitVec.toNat_shiftLeft, Nat.testBit_mod_two_pow,
    Nat.testBit_shiftLeft, decide_eq_true (show len + n - 1 - i < 32 by omega), Bool.true_and]
  rcases Nat.lt_or_ge i len with hlt | hge
  · have hi' : i < (Bits.ofNat len reg.toNat).length := by
      rw [Bits.length_ofNat]
      exact hlt
    have hexp : len + n - 1 - i - n = len - 1 - i := by omega
    rw [List.getElem_append_left hi', Bits.getElem_ofNat, decide_eq_true (show n ≤ len + n - 1 - i by omega),
      decide_eq_false (show ¬ len + n - 1 - i < n by omega), Bool.true_and, Bool.and_false, Bool.or_false, hexp]
  · rw [List.getElem_append_right (by rw [Bits.length_ofNat]; exact hge), List.getElem_replicate,
      decide_eq_false (show ¬ n ≤ len + n - 1 - i by omega), decide_eq_true (show len + n - 1 - i < n by omega),
      Bool.false_and, Bool.false_or, Bool.and_true]

theorem ofNat_toByte (x : BitVec 32) : Bits.ofNat 8 (toByte x).toNat = Bits.ofNat 8 x.toNat := by
  have htoNat : (toByte x).toNat = x.toNat % 2 ^ 8 := by
    unfold toByte
    rw [UInt8.toNat_ofBitVec, BitVec.toNat_setWidth]
  rw [htoNat, Bits.ofNat_mod _ (Nat.le_refl 8)]

theorem toByte_and (x : BitVec 32) : toByte (x &&& 0xFF) = toByte x := by
  unfold toByte
  congr 1
  apply BitVec.eq_of_toNat_eq
  rw [BitVec.toNat_setWidth, BitVec.toNat_setWidth, BitVec.toNat_and]
  show (x.toNat &&& 2 ^ 8 - 1) % 2 ^ 8 = _
  rw [Nat.and_two_pow_sub_one_eq_mod, Nat.mod_mod]

/-- The first byte of a register. -/
theorem ofNat_top (x : ℕ) : Bits.ofNat 32 x = Bits.ofNat 8 (x / 2 ^ 24) ++ Bits.ofNat 24 x := Bits.ofNat_add 8 24 x

/-- **A full register is spilled as it is.** -/
theorem ofBytes_spillReg (reg : BitVec 32) (shared : Bytes) :
    Bits.ofBytes (spillRegToShared reg 32 shared) = Bits.ofBytes shared ++ Bits.ofNat 32 reg.toNat := by
  have hbyte : ∀ k, Bits.ofNat 8 (toByte (reg >>> k)).toNat = Bits.ofNat 8 (reg.toNat / 2 ^ k) := by
    intro k
    rw [ofNat_toByte, BitVec.toNat_ushiftRight, Nat.shiftRight_eq_div_pow]
  have hreg : reg <<< (32 - 32) = reg := BitVec.shiftLeft_zero reg
  have hsplit : Bits.ofNat 32 reg.toNat = Bits.ofNat 8 (reg.toNat / 2 ^ 24) ++ (Bits.ofNat 8 (reg.toNat / 2 ^ 16) ++
      (Bits.ofNat 8 (reg.toNat / 2 ^ 8) ++ Bits.ofNat 8 reg.toNat)) := by
    rw [ofNat_top, Bits.ofNat_add 8 16 reg.toNat, Bits.ofNat_add 8 8 reg.toNat]
  unfold spillRegToShared
  rw [hreg, Bits.ofBytes_append, toByte_and, toByte_and, toByte_and, hsplit, ← hbyte, ← hbyte, ← hbyte, ← ofNat_toByte]
  rfl

theorem Output.bits_addRemaining (b : Bool) {remaining : ℕ} {o : Output} (hle : o.outputRegLen + remaining ≤ 32) :
    (addRemaining (bitOf b) remaining o hle).bits = o.bits ++ List.replicate remaining b := by
  have hreg := ofNat_reg o.outputReg b hle
  unfold addRemaining
  dsimp only
  split_ifs with hfull
  · rw [hfull] at hreg
    unfold Output.bits
    dsimp only
    rw [hfull, ofBytes_spillReg, hreg, Bits.ofNat, List.append_nil, List.append_assoc]
  · unfold Output.bits
    dsimp only
    rw [hreg, List.append_assoc]

/-- **Bits are added behind those that were written.** -/
theorem Output.bits_addBitsToOutput (b : Bool) (num : ℕ) (o : Output) :
    (addBitsToOutput (bitOf b) num o).bits = o.bits ++ List.replicate num b := by
  induction num using Nat.strong_induction_on generalizing o with
  | _ num ih =>
    have hlt := o.lt
    have hnum : num = min num (32 - o.outputRegLen) + (num - min num (32 - o.outputRegLen)) := by omega
    rw [addBitsToOutput]
    split_ifs with hmore
    · have hless : num - min num (32 - o.outputRegLen) < num := by omega
      rw [ih _ hless, Output.bits_addRemaining, List.append_assoc, ← List.replicate_add, ← hnum]
    · have hall : min num (32 - o.outputRegLen) = num := by omega
      rw [Output.bits_addRemaining, hall]

/-- The bits of the register are spilled byte by byte, with zeros behind them. -/
theorem ofBytes_spillPartialLoop (reg : BitVec 32) {len : ℕ} (shared : Bytes) (h : len ≤ 32) :
    Bits.ofBytes (spillPartialLoop reg len shared) =
      Bits.ofBytes shared ++ (Bits.ofNat 32 reg.toNat).take (8 * ((len + 7) / 8)) := by
  induction len using Nat.strong_induction_on generalizing reg shared with
  | _ len ih =>
    rw [spillPartialLoop]
    split_ifs with hpos
    · rw [ih (len - 8) (by omega) _ _ (by omega), Bits.ofBytes_append, List.append_assoc]
      congr 1
      have hbyte : Bits.ofBytes [toByte (reg >>> 24)] = (Bits.ofNat 32 reg.toNat).take 8 := by
        show Bits.ofNat 8 (toByte (reg >>> 24)).toNat ++ [] = _
        rw [List.append_nil, ofNat_toByte, BitVec.toNat_ushiftRight, Nat.shiftRight_eq_div_pow, ofNat_top,
          List.take_left' (Bits.length_ofNat 8 _)]
      have hshift : Bits.ofNat 32 (reg <<< 8).toNat = (Bits.ofNat 32 reg.toNat).drop 8 ++ Bits.ofNat 8 (reg <<< 8).toNat := by
        have hdiv : (reg <<< 8).toNat / 2 ^ 8 = reg.toNat % 2 ^ 24 := by
          rw [BitVec.toNat_shiftLeft, Nat.shiftLeft_eq]
          omega
        rw [Bits.ofNat_add 24 8 (reg <<< 8).toNat, hdiv, Bits.ofNat_mod _ (Nat.le_refl 24), ofNat_top,
          List.drop_left' (Bits.length_ofNat 8 _)]
      have hcount : 8 * ((len + 7) / 8) = 8 + 8 * ((len - 8 + 7) / 8) := by omega
      have hfits : 8 * ((len - 8 + 7) / 8) ≤ ((Bits.ofNat 32 reg.toNat).drop 8).length := by
        rw [List.length_drop, Bits.length_ofNat]
        omega
      rw [hbyte, hshift, hcount, List.take_append_of_le_length hfits, List.take_add]
    · have hzero : len = 0 := by omega
      rw [hzero, List.take_zero, List.append_nil]

/-- **What is spilled in the end are the bits that were written, and less than a byte of others.** -/
theorem ofBytes_spillPartial (o : Output) :
    ∃ pad, Bits.ofBytes (spillPartialRegToShared o) = o.bits ++ pad ∧ pad.length < 8 := by
  have hlt := o.lt
  have hreg := Bits.ofNat_add o.outputRegLen (32 - o.outputRegLen) (o.outputReg <<< (32 - o.outputRegLen)).toNat
  rw [show o.outputRegLen + (32 - o.outputRegLen) = 32 by omega] at hreg
  have hbits : Bits.ofNat o.outputRegLen ((o.outputReg <<< (32 - o.outputRegLen)).toNat / 2 ^ (32 - o.outputRegLen)) =
      Bits.ofNat o.outputRegLen o.outputReg.toNat := by
    have hlen : (Bits.ofNat o.outputRegLen o.outputReg.toNat).length = o.outputRegLen := Bits.length_ofNat _ _
    rw [Bits.ofNat_eq_iff hlen]
    intro i hi
    rw [hlen] at hi
    rw [Bits.getElem_ofNat, Nat.testBit_div_two_pow, BitVec.toNat_shiftLeft, Nat.testBit_mod_two_pow,
      Nat.testBit_shiftLeft, decide_eq_true (by omega), decide_eq_true (by omega), Bool.true_and, Bool.true_and,
      Nat.add_sub_cancel]
  unfold spillPartialRegToShared
  rw [ofBytes_spillPartialLoop _ _ hlt.le, hreg, hbits]
  refine ⟨(Bits.ofNat (32 - o.outputRegLen) (o.outputReg <<< (32 - o.outputRegLen)).toNat).take
    (8 * ((o.outputRegLen + 7) / 8) - o.outputRegLen), ?_, ?_⟩
  · rw [List.take_append, List.take_of_length_le (by rw [Bits.length_ofNat]; omega), Bits.length_ofNat, Output.bits,
      List.append_assoc]
  · rw [List.length_take]
    omega

end FairCache.CacheGen
