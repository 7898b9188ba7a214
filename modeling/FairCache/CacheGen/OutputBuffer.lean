import FairCache.CacheGen.CalculateCdf
import FairCache.CacheGen.Encoded
import FairCache.Lib.CodeLength

/-!
# The output buffer of a channel

* `subChunks`, `encodeFunction` : the sub-chunks of a column and their streams, all with the CDF of the whole column;
* `doublings` : how many doublings the ranges of a sub-chunk take;
* `count_lt_width` : a symbol that is frequent in the column has a wide share;
* `length_le_iff` : when a stream fits in the buffer; `doublings_le` : it does in every column that is short enough.
-/

namespace FairCache.CacheGen

open Lib

/-- `MAX_SHARED_MEMORY_PER_THREAD`. -/
def maxSharedMemoryPerThread : ℕ := 0xc000 / 128

/-- `OUTPUT_BUFFER_LENGTH_PER_THREAD`, with `MAX_LP = 48`. -/
def outputBufferLengthPerThread : ℕ :=
  if 256 < maxSharedMemoryPerThread - 48 * 2 then 256 else maxSharedMemoryPerThread - 48 * 2

/-- `CACHEGEN_GPU_MAX_TOKENS_PER_CHUNK`. -/
def maxTokensPerChunk : ℕ := 256

/-- `encode_input[:, start:end, :]` for each `i` in `range(0, chunk_size, CACHEGEN_GPU_MAX_TOKENS_PER_CHUNK)`. -/
def subChunks (symbols : List ℕ) : List (List ℕ) :=
  (List.range ((symbols.length + (maxTokensPerChunk - 1)) / maxTokensPerChunk)).map fun k =>
    let start := maxTokensPerChunk * k
    (symbols.take (min (start + maxTokensPerChunk) symbols.length)).drop start

/-- `encode_function` for one channel: the streams of its sub-chunks. -/
def encodeFunction {maxBins : ℕ} (col : Column maxBins) (fuel : ℕ) : Option (List Bytes) :=
  (subChunks col.symbols).mapM (encodeWithAccessorKernel col.calculateCdf fuel)

theorem sublist_of_mem_subChunks {symbols sub : List ℕ} (h : sub ∈ subChunks symbols) :
    sub.Sublist symbols ∧ sub.length ≤ 256 := by
  obtain ⟨k, -, rfl⟩ := List.mem_map.mp h
  dsimp only
  refine ⟨(List.drop_sublist _ _).trans (List.take_sublist _ _), ?_⟩
  rw [List.length_drop, List.length_take]
  unfold maxTokensPerChunk
  omega

theorem take_mem_subChunks {symbols : List ℕ} (h : 256 ≤ symbols.length) : symbols.take 256 ∈ subChunks symbols := by
  unfold subChunks maxTokensPerChunk
  refine List.mem_map.mpr ⟨0, List.mem_range.mpr (by omega), ?_⟩
  dsimp only
  rw [Nat.mul_zero, Nat.zero_add, Nat.min_eq_left h, List.drop_zero]

/-! ## Doublings -/

/-- How many times the range of the arithmetic code is doubled for the symbols, when each narrows it to its share. -/
def doublings (cdf : Cdf) (syms : List ℕ) : ℕ :=
  ((whole.code quarter (2 ^ 16) 33 (syms.map cdf.share)).map fun x => x.1.length).getD 0

/-- The bytes of the kernel hold a bit for each doubling and two more. -/
theorem length_encode {cdf : Cdf} {syms : List ℕ} {fuel : ℕ} (hsyms : ∀ sym ∈ syms, sym ≤ cdf.maxSymbol)
    (hfuel : 33 ≤ fuel) :
    ∃ bytes, encodeWithAccessorKernel cdf fuel syms = some bytes ∧
      doublings cdf syms + 2 ≤ 8 * bytes.length ∧ 8 * bytes.length < doublings cdf syms + 10 := by
  obtain ⟨k, rfl⟩ : ∃ k, fuel = 33 + k := ⟨fuel - 33, by omega⟩
  obtain ⟨σs, r, bytes, hbytes, hcode, -, pad, hpad, hlen⟩ := encodeWithAccessorKernel_spec hsyms hfuel
  obtain ⟨σs', r', -, -, hcode', -, -⟩ := encodeWithAccessorKernel_spec hsyms (Nat.le_refl 33)
  rw [CodeRange.code_add_fuel k hcode'] at hcode
  cases hcode
  have hdoublings : doublings cdf syms = σs.length := by
    unfold doublings
    rw [hcode']
    rfl
  have hbits := congrArg List.length hpad
  rw [Bits.length_ofBytes, List.length_append, CodeRange.length_closing, CodeRange.Sent.count_pushAll] at hbits
  refine ⟨bytes, hbytes, ?_⟩
  rw [hdoublings]
  simp only [CodeRange.Sent.count, List.length_nil] at hbits
  omega

/-! ## Shares against counts -/

namespace Column

variable {maxBins : ℕ} (col : Column maxBins)

theorem scaled_maxBins : scaled col maxBins = 0xFFFF - maxBins := col.kernelInput.scaled_maxBins

theorem toNat_cLow {v : ℕ} (hv : v ≤ maxBins) : (col.calculateCdf.cLow v).toNat = scaled col v + v := by
  have hscaled := col.scaled_le v
  have hbins := col.maxBins_le
  rw [Cdf.toNat_cLow]
  show ((calculateCdfKernel maxBins col.symbols).getD v 0).toNat = _
  rw [calculateCdfKernel_eq, List.getD_eq_getElem?_getD, List.getElem?_map, List.getElem?_range (Nat.lt_succ_of_le hv),
    Option.map_some, Option.getD_some, BitVec.toNat_ofNat]
  omega

theorem le_toNat_cHigh {v : ℕ} (hv : v < maxBins) : scaled col (v + 1) + (v + 1) ≤ (col.calculateCdf.cHigh v).toNat := by
  have hmax := col.maxSymbol_calculateCdf
  have hbins := col.maxBins_le
  rcases Nat.lt_or_ge v col.calculateCdf.maxSymbol with h | h
  · rw [Cdf.toNat_cHigh h, toNat_cLow col (Nat.succ_le_of_lt hv)]
  · obtain rfl : v = col.calculateCdf.maxSymbol := by omega
    have hlast : col.calculateCdf.maxSymbol + 1 = maxBins := by omega
    rw [Cdf.toNat_cHigh_maxSymbol, hlast, scaled_maxBins]
    omega

/-- **A symbol that is frequent in the column has a wide share.** -/
theorem count_lt_width {v : ℕ} (hv : v < maxBins) :
    (0xFFFF - maxBins) * col.symbols.count v <
      ((col.calculateCdf.share v).2 - (col.calculateCdf.share v).1) * col.symbols.length := by
  have hlow := col.toNat_cLow hv.le
  have hhigh := col.le_toNat_cHigh hv
  have hmono : scaled col v ≤ scaled col (v + 1) := col.scaled_mono (Nat.le_succ v)
  unfold Cdf.share
  dsimp only
  have hwidth : scaled col (v + 1) - scaled col v + 1 ≤
      (col.calculateCdf.cHigh v).toNat - (col.calculateCdf.cLow v).toNat := by omega
  apply lt_of_lt_of_le _ (Nat.mul_le_mul_right _ hwidth)
  have hnext : (0xFFFF - maxBins) * below col.symbols (v + 1) <
      col.symbols.length * scaled col (v + 1) + col.symbols.length := Nat.lt_mul_div_succ _ col.length_pos
  have hself : col.symbols.length * scaled col v ≤ (0xFFFF - maxBins) * below col.symbols v := Nat.mul_div_le _ _
  rw [below_succ, Nat.mul_add] at hnext
  generalize scaled col (v + 1) = x at *
  generalize scaled col v = y at *
  obtain ⟨w, rfl⟩ : ∃ w, x = y + w := ⟨x - y, by omega⟩
  rw [Nat.mul_add] at hnext
  rw [Nat.add_sub_cancel_left, Nat.add_mul, Nat.one_mul, Nat.mul_comm w]
  omega

/-! ## Short columns -/

/-- What a symbol costs: how many parts the whole has for one that its share keeps. -/
noncomputable def cost (v : ℕ) : ℝ := (2 ^ 30 : ℕ) / CodeRange.keptParts (2 ^ 14) (col.calculateCdf.share v)

/-- **A symbol costs no more than the tokens of the column for each that has it**, up to rounding. -/
theorem cost_le {v : ℕ} (hv : v ∈ col.symbols) :
    0 < CodeRange.keptParts (2 ^ 14) (col.calculateCdf.share v) ∧
      col.cost v ≤ 255 / 254 * col.symbols.length * (1 / col.symbols.count v) := by
  have hwidth := col.count_lt_width (col.lt v hv)
  have hcount : 0 < col.symbols.count v := List.count_pos_iff.mpr hv
  have hbins := col.maxBins_le
  unfold cost CodeRange.keptParts
  push_cast
  generalize (col.calculateCdf.share v).2 - (col.calculateCdf.share v).1 = w at *
  generalize col.symbols.length = n at *
  generalize col.symbols.count v = c at *
  have hw : 0 < w := by
    rcases Nat.eq_zero_or_pos w with h | h
    · rw [h, Nat.zero_mul] at hwidth
      omega
    · exact h
  have hkept : w * (2 ^ 14 - 1) ≤ w * 2 ^ 14 - 1 := by
    rw [Nat.mul_sub_one]
    omega
  have hparts : 254 * 2 ^ 30 * c ≤ 255 * n * (w * 2 ^ 14 - 1) := by
    calc 254 * 2 ^ 30 * c ≤ 255 * (2 ^ 14 - 1) * (65488 * c) := by omega
      _ ≤ 255 * (2 ^ 14 - 1) * (w * n) :=
          Nat.mul_le_mul_left _ ((Nat.mul_le_mul_right c (by omega)).trans hwidth.le)
      _ = 255 * n * (w * (2 ^ 14 - 1)) := by ring
      _ ≤ 255 * n * (w * 2 ^ 14 - 1) := Nat.mul_le_mul_left _ hkept
  have hpos : 0 < w * 2 ^ 14 - 1 := by omega
  refine ⟨hpos, ?_⟩
  have hparts' : (254 * 2 ^ 30 * c : ℝ) ≤ 255 * n * (w * 2 ^ 14 - 1 : ℕ) := by exact_mod_cast hparts
  have hpos' : (0 : ℝ) < (w * 2 ^ 14 - 1 : ℕ) := Nat.cast_pos.mpr hpos
  have hcount' : (0 : ℝ) < c := Nat.cast_pos.mpr hcount
  generalize ((w * 2 ^ 14 - 1 : ℕ) : ℝ) = kept at hparts' hpos' ⊢
  rw [div_le_iff₀ hpos', mul_one_div, div_mul_eq_mul_div, le_div_iff₀ hcount']
  linarith

theorem prod_cost {syms : List ℕ} (h : ∀ v ∈ syms, v ∈ col.symbols) :
    (syms.map col.cost).prod * ((syms.map col.calculateCdf.share).map (CodeRange.keptParts (2 ^ 14))).prod =
      (2 ^ 30) ^ syms.length := by
  induction syms with
  | nil => simp
  | cons v syms ih =>
    obtain ⟨hv, hsyms⟩ := List.forall_mem_cons.mp h
    have hpos : ((CodeRange.keptParts (2 ^ 14) (col.calculateCdf.share v) : ℕ) : ℝ) ≠ 0 :=
      Nat.cast_ne_zero.mpr (col.cost_le hv).1.ne'
    simp only [List.map_cons, List.prod_cons, List.length_cons, Nat.cast_mul]
    rw [mul_mul_mul_comm, ih hsyms, cost, div_mul_cancel₀ _ hpos, Nat.cast_pow, Nat.cast_ofNat]
    exact (pow_succ' _ _).symm

/-- The costs of a sub-chunk add up to no more than the tokens of the column for each bin. -/
theorem sum_cost_le {sub : List ℕ} (hsub : sub.Sublist col.symbols) :
    (sub.map col.cost).sum ≤ 255 / 254 * (maxBins * col.symbols.length : ℕ) := by
  have hcost : ∀ v ∈ sub, col.cost v ≤ 255 / 254 * col.symbols.length * (1 / sub.count v) := by
    intro v hv
    have hcount : (0 : ℝ) < sub.count v := Nat.cast_pos.mpr (List.count_pos_iff.mpr hv)
    have hle : (sub.count v : ℝ) ≤ col.symbols.count v := Nat.cast_le.mpr (hsub.count_le v)
    apply (col.cost_le (hsub.subset hv)).2.trans
    exact mul_le_mul_of_nonneg_left (one_div_le_one_div_of_le hcount hle) (by positivity)
  have hcard : sub.toFinset.card ≤ maxBins := by
    calc sub.toFinset.card ≤ (Finset.range maxBins).card := by
          apply Finset.card_le_card
          intro v hv
          exact Finset.mem_range.mpr (col.lt v (hsub.subset (List.mem_toFinset.mp hv)))
      _ = maxBins := Finset.card_range maxBins
  calc (sub.map col.cost).sum ≤ (sub.map fun v => 255 / 254 * (col.symbols.length : ℝ) * (1 / sub.count v)).sum :=
        List.sum_le_sum hcost
    _ = 255 / 254 * col.symbols.length * sub.toFinset.card := by rw [List.sum_map_mul_left, sum_map_count]
    _ ≤ 255 / 254 * col.symbols.length * maxBins :=
        mul_le_mul_of_nonneg_left (Nat.cast_le.mpr hcard) (by positivity)
    _ = 255 / 254 * (maxBins * col.symbols.length : ℕ) := by
        rw [Nat.cast_mul]
        ring

/-- The doublings are at most the product of the costs. -/
theorem two_pow_doublings_le {sub : List ℕ} (hmem : ∀ v ∈ sub, v ∈ col.symbols) :
    (2 : ℝ) ^ doublings col.calculateCdf sub ≤ (sub.map col.cost).prod := by
  have hsyms : ∀ v ∈ sub, v ≤ col.calculateCdf.maxSymbol := by
    intro v hv
    have := col.lt v (hmem v hv)
    rw [col.maxSymbol_calculateCdf]
    omega
  have hshares : ∀ share ∈ sub.map col.calculateCdf.share, CodeRange.Share (2 ^ 16) share := by
    intro share hshare
    obtain ⟨v, hv, rfl⟩ := List.mem_map.mp hshare
    exact Cdf.share_spec (hsyms v hv)
  obtain ⟨σs, r, -, -, hcode, hr, -⟩ := encodeWithAccessorKernel_spec hsyms (Nat.le_refl 33)
  have hdoublings : doublings col.calculateCdf sub = σs.length := by
    unfold doublings
    rw [hcode]
    rfl
  rw [hdoublings]
  have hscale : quarter = 2 ^ 16 * 2 ^ 14 := by decide
  have hkept := CodeRange.two_pow_mul_prod_le settled_whole (by decide) (by decide) hscale hshares hcode
  have hspan : r.span ≤ whole.span := by
    have hlt := hr.lt
    have hq : quarter = 2 ^ 30 := rfl
    show r.high - r.low + 1 ≤ 2 ^ 32 - 1 - 0 + 1
    omega
  have hwhole : 0 < whole.span := Nat.succ_pos _
  have hpow : 2 ^ σs.length * ((sub.map col.calculateCdf.share).map (CodeRange.keptParts (2 ^ 14))).prod ≤
      (2 ^ 30) ^ sub.length := by
    apply Nat.le_of_mul_le_mul_right _ hwhole
    rw [List.length_map] at hkept
    calc _ = 2 ^ σs.length * whole.span *
          ((sub.map col.calculateCdf.share).map (CodeRange.keptParts (2 ^ 14))).prod := by ring
      _ ≤ r.span * (2 ^ 30) ^ sub.length := hkept
      _ ≤ (2 ^ 30) ^ sub.length * whole.span := by
          rw [Nat.mul_comm]
          exact Nat.mul_le_mul_left _ hspan
  have hprod := col.prod_cost hmem
  have hkeptPos : 0 < ((sub.map col.calculateCdf.share).map (CodeRange.keptParts (2 ^ 14))).prod := by
    apply List.prod_pos
    intro k hk
    obtain ⟨share, hshare, rfl⟩ := List.mem_map.mp hk
    obtain ⟨v, hv, rfl⟩ := List.mem_map.mp hshare
    exact (col.cost_le (hmem v hv)).1
  have hpow' := (Nat.cast_le (α := ℝ)).mpr hpow
  rw [Nat.cast_mul, Nat.cast_pow, Nat.cast_pow, Nat.cast_pow, Nat.cast_ofNat, ← hprod] at hpow'
  exact le_of_mul_le_mul_right hpow' (Nat.cast_pos.mpr hkeptPos)

/-- **The range is doubled at most 2046 times for a sub-chunk** of a column with few tokens for its bins. -/
theorem doublings_le {sub : List ℕ} (hsub : sub ∈ subChunks col.symbols)
    (hshort : maxBins * col.symbols.length ≤ 254 * 256) : doublings col.calculateCdf sub ≤ 2046 := by
  obtain ⟨hsublist, hlen⟩ := sublist_of_mem_subChunks hsub
  have hcosts := col.two_pow_doublings_le fun v hv => hsublist.subset hv
  -- the costs have a mean of at most 255
  have hsum : (sub.map col.cost).sum ≤ (256 : ℕ) * (255 : ℝ) := by
    have hshort' : ((maxBins * col.symbols.length : ℕ) : ℝ) ≤ (254 * 256 : ℕ) := Nat.cast_le.mpr hshort
    push_cast at hshort'
    have := col.sum_cost_le hsublist
    push_cast at *
    linarith
  have hnonneg : ∀ x ∈ sub.map col.cost, 0 ≤ x := by
    intro x hx
    obtain ⟨v, -, rfl⟩ := List.mem_map.mp hx
    exact div_nonneg (by positivity) (Nat.cast_nonneg _)
  have hbound : (2 : ℝ) ^ doublings col.calculateCdf sub ≤ 255 ^ 256 :=
    hcosts.trans (prod_le_pow (by norm_num) hnonneg (by rw [List.length_map]; exact hlen) hsum)
  have hbits : (2 : ℝ) ^ doublings col.calculateCdf sub < 2 ^ 2047 := by
    have hnum : (255 : ℕ) ^ 256 < 2 ^ 2047 := by decide +kernel
    have hnum' : (255 : ℝ) ^ 256 < 2 ^ 2047 := by exact_mod_cast hnum
    exact hbound.trans_lt hnum'
  have hlt := (pow_lt_pow_iff_right₀ (by norm_num : (1 : ℝ) < 2)).mp hbits
  omega

end Column

/-! ## Streams and buffers -/

/-- Elements that all have an image have a list of images. -/
theorem exists_mapM {α β : Type} {f : α → Option β} {rel : α → β → Prop} {l : List α}
    (h : ∀ a ∈ l, ∃ b, f a = some b ∧ rel a b) : ∃ bs, l.mapM f = some bs ∧ List.Forall₂ rel l bs := by
  induction l with
  | nil => exact ⟨[], rfl, .nil⟩
  | cons a l ih =>
    obtain ⟨hhead, htail⟩ := List.forall_mem_cons.mp h
    obtain ⟨b, hb, hrel⟩ := hhead
    obtain ⟨bs, hbs, hrels⟩ := ih htail
    refine ⟨b :: bs, ?_, .cons hrel hrels⟩
    rw [List.mapM_cons, hb, hbs]
    rfl

/-- The stream of a sub-chunk, and when it fits. -/
theorem Column.fits_iff {maxBins : ℕ} (col : Column maxBins) {fuel : ℕ} (hfuel : 33 ≤ fuel) {sub : List ℕ}
    (hsub : sub ∈ subChunks col.symbols) :
    ∃ bytes, encodeWithAccessorKernel col.calculateCdf fuel sub = some bytes ∧
      (bytes.length ≤ outputBufferLengthPerThread ↔ doublings col.calculateCdf sub ≤ 2046) := by
  have hsyms : ∀ v ∈ sub, v ≤ col.calculateCdf.maxSymbol := by
    intro v hv
    have := col.lt v ((sublist_of_mem_subChunks hsub).1.subset hv)
    rw [col.maxSymbol_calculateCdf]
    omega
  obtain ⟨bytes, hbytes, hle, hlt⟩ := length_encode hsyms hfuel
  refine ⟨bytes, hbytes, ?_⟩
  have hbuffer : outputBufferLengthPerThread = 256 := rfl
  rw [hbuffer]
  omega

/-- The tokens of 31 symbols, and then many of another one. -/
def unevenSymbols : List ℕ := (List.range 256).map (fun i => i % 31 + 1) ++ List.replicate 2304 0

theorem length_unevenSymbols : unevenSymbols.length = 2560 := by
  unfold unevenSymbols
  rw [List.length_append, List.length_map, List.length_range, List.length_replicate]

/-- They are a channel of a chunk of 2560 tokens. -/
def unevenColumn : Column 32 where
  symbols := unevenSymbols
  pos := Nat.zero_lt_succ 31
  maxBins_le := by decide
  ne_nil := List.ne_nil_of_length_pos (by rw [length_unevenSymbols]; decide)
  length_lt := by
    rw [length_unevenSymbols]
    decide
  lt := by
    intro v hv
    rcases List.mem_append.mp hv with h | h
    · obtain ⟨i, -, rfl⟩ := List.mem_map.mp h
      omega
    · rw [List.eq_of_mem_replicate h]
      decide

end FairCache.CacheGen
