import FairCache.CacheGen.AcEnc

/-!
# The arithmetic decoder of CacheGen

* `Reader` : the bits of the channel's bytes, one after the other; `bigToSmall` : the first four bytes;
* `Cdf.binsearch` : the symbol of a count; `Cdf.binsearch_spec` : it is the one in whose share the count is;
* `Decoder`, `decodePrefixWithAccessorKernel` : the kernel for one channel, with `fuel` for each of its loops that has no
  bound.
-/

namespace FairCache.CacheGen

open Lib

/-! ## Reading -/

/-- `big_to_small<uint32_t>`. -/
def bigToSmall (value : BitVec 32) : BitVec 32 :=
  ((value &&& 0xFF000000) >>> 24) ||| ((value &&& 0x00FF0000) >>> 8) ||| ((value &&& 0x0000FF00) <<< 8) |||
    ((value &&& 0x000000FF) <<< 24)

/-- The first `uint32_t` of the channel's bytes, on a little-endian machine. -/
def firstWord (stream : ℕ → UInt8) : BitVec 32 :=
  (stream 0).toBitVec.setWidth 32 ||| ((stream 1).toBitVec.setWidth 32 <<< 8) |||
    ((stream 2).toBitVec.setWidth 32 <<< 16) ||| ((stream 3).toBitVec.setWidth 32 <<< 24)

/-- `byte_buffer`, `bit_idx` and `byte_buffer_offset`. -/
structure Reader where
  byteBuffer : UInt8
  bitIdx : ℕ
  byteBufferOffset : ℕ

namespace Reader

/-- `read_next_bit<8>`. -/
def readNextBit (value : BitVec 32) (r : Reader) : BitVec 32 × Reader :=
  ((value <<< 1) ||| ((r.byteBuffer.toBitVec.setWidth 32 >>> (8 - r.bitIdx)) &&& 1), { r with bitIdx := r.bitIdx + 1 })

/-- `check_and_update_byte_buffer<8, uint8_t>`. -/
def checkAndUpdateByteBuffer (stream : ℕ → UInt8) (r : Reader) : Reader :=
  if r.bitIdx = 8 + 1 then
    { bitIdx := 1, byteBufferOffset := r.byteBufferOffset + 1, byteBuffer := stream (r.byteBufferOffset + 1) }
  else r

end Reader

namespace Cdf

/-- The loop of `binsearch`. -/
def binsearchLoop (cdf : Cdf) (target : BitVec 16) (left right : ℕ) : ℕ :=
  if left + 1 < right then
    let m := (left + right) / 2
    let v := cdf.values.getD m 0
    if v < target then binsearchLoop cdf target m right
    else if target < v then binsearchLoop cdf target left m
    else m
  else left
termination_by right - left

/-- `binsearch`. -/
def binsearch (cdf : Cdf) (target : BitVec 16) : ℕ := cdf.binsearchLoop target 0 (cdf.maxSymbol + 1)

end Cdf

/-! ## The kernel -/

/-- The variables of the decoder. -/
structure Decoder where
  low : BitVec 32
  high : BitVec 32
  value : BitVec 32
  reader : Reader

namespace Decoder

/-- Before the first symbol. -/
def new (stream : ℕ → UInt8) : Decoder :=
  { low := 0, high := 0xFFFFFFFF, value := bigToSmall (firstWord stream)
    reader := { byteBuffer := stream 4, bitIdx := 1, byteBufferOffset := 4 } }

/-- `count`. -/
def count (s : Decoder) : BitVec 16 :=
  let span : BitVec 64 := s.high.setWidth 64 - s.low.setWidth 64 + 1
  (((s.value.setWidth 64 - s.low.setWidth 64 + 1) * 0x10000 - 1) / span).setWidth 16

/-- The next bit comes into `value`. -/
def readBit (stream : ℕ → UInt8) (s : Decoder) : Decoder :=
  let (value, reader) := s.reader.readNextBit s.value
  { s with value := value, reader := reader.checkAndUpdateByteBuffer stream }

/-- The `while (true)` loop, if it ends within `fuel` tests. -/
def renormalise (stream : ℕ → UInt8) : ℕ → Decoder → Option Decoder
  | 0, _ => none
  | fuel + 1, s =>
    if 0x80000000 ≤ s.low ∨ s.high < 0x80000000 then
      renormalise stream fuel ({ s with low := s.low <<< 1, high := (s.high <<< 1) ||| 1 }.readBit stream)
    else if 0x40000000 ≤ s.low ∧ s.high < 0xC0000000 then
      renormalise stream fuel
        ({ s with
            low := (s.low <<< 1) &&& 0x7FFFFFFF
            high := (s.high <<< 1) ||| 0x80000001
            value := s.value - 0x40000000 }.readBit stream)
    else some s

/-- The loop over the tokens; nothing is read after the last one. -/
def decodeTokens (cdf : Cdf) (stream : ℕ → UInt8) (fuel : ℕ) : ℕ → Decoder → Option (List ℕ)
  | 0, _ => some []
  | ntokens + 1, s =>
    let sym := cdf.binsearch s.count
    if ntokens = 0 then some [sym]
    else
      let (low, high) := cdf.narrow s.low s.high sym
      (renormalise stream fuel { s with low := low, high := high }).bind fun s =>
        (decodeTokens cdf stream fuel ntokens s).map (sym :: ·)

end Decoder

/-- `decode_prefix_with_accessor_kernel` for one channel: the symbols that it writes. The bytes of the channel are followed
by others, so that there is one at every offset. -/
def decodePrefixWithAccessorKernel (cdf : Cdf) (stream : ℕ → UInt8) (fuel ntokens : ℕ) : Option (List ℕ) :=
  Decoder.decodeTokens cdf stream fuel ntokens (.new stream)

/-! ## Searching -/

namespace Cdf

variable {cdf : Cdf} {target : BitVec 16} {left right sym : ℕ}

theorem toNat_getD {m : ℕ} (cdf : Cdf) : (cdf.values.getD m 0).toNat = (cdf.cLow m).toNat := (toNat_cLow cdf m).symm

/-- The search keeps the symbol between its ends. -/
theorem binsearchLoop_spec (hsym : sym ≤ cdf.maxSymbol) (hlow : (cdf.cLow sym).toNat ≤ target.toNat)
    (hhigh : target.toNat < (cdf.cHigh sym).toNat) (hleft : left ≤ sym) (hright : sym < right)
    (hmax : right ≤ cdf.maxSymbol + 1) : cdf.binsearchLoop target left right = sym := by
  induction hn : right - left using Nat.strong_induction_on generalizing left right with
  | _ n ih =>
    unfold binsearchLoop
    dsimp only
    split_ifs with hwide hless hgreater
    · -- the middle is below the count, so the symbol is not before it
      rw [BitVec.lt_def, toNat_getD] at hless
      have hmid : (left + right) / 2 ≤ sym := by
        by_contra hmid
        have hnext : sym + 1 ≤ (left + right) / 2 := by omega
        have hlt : sym < cdf.maxSymbol := by omega
        rw [toNat_cHigh hlt] at hhigh
        rcases Nat.lt_or_eq_of_le hnext with h | h
        · have := cdf.toNat_cLow_lt h (by omega)
          omega
        · rw [← h] at hless
          omega
      exact ih _ (by omega) hmid hright hmax rfl
    · rw [BitVec.lt_def, toNat_getD] at hgreater
      have hmid : sym < (left + right) / 2 := by
        by_contra hmid
        rcases Nat.lt_or_eq_of_le (not_lt.mp hmid) with h | h
        · have := cdf.toNat_cLow_lt h hsym
          omega
        · rw [h] at hgreater
          omega
      exact ih _ (by omega) hleft hmid (by omega) rfl
    · -- the count is the start of a share
      rw [BitVec.lt_def, toNat_getD] at hless hgreater
      rcases Nat.lt_trichotomy ((left + right) / 2) sym with h | h | h
      · have := cdf.toNat_cLow_lt h hsym
        omega
      · exact h
      · have hlt : sym < cdf.maxSymbol := by omega
        rw [toNat_cHigh hlt] at hhigh
        have hnext : sym + 1 ≤ (left + right) / 2 := h
        rcases Nat.lt_or_eq_of_le hnext with h' | h'
        · have := cdf.toNat_cLow_lt h' (by omega)
          omega
        · rw [← h'] at hless hgreater
          omega
    · omega

/-- **The search finds the symbol in whose share the count is.** -/
theorem binsearch_spec (hsym : sym ≤ cdf.maxSymbol) (hlow : (cdf.cLow sym).toNat ≤ target.toNat)
    (hhigh : target.toNat < (cdf.cHigh sym).toNat) : cdf.binsearch target = sym :=
  binsearchLoop_spec hsym hlow hhigh (Nat.zero_le _) (Nat.lt_succ_of_le hsym) (Nat.le_refl _)

end Cdf

end FairCache.CacheGen
