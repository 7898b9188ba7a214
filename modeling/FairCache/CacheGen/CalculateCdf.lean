import FairCache.CacheGen.AcEnc

/-!
# The CDF of a channel

* `Column` : the symbols of a channel, one for each token of the chunk;
* `histogram`, `accumulate`, `normalizeCdfValue`, `calculateCdfKernel` : the kernel for one channel;
* `KernelInput.calculateCdfKernel_eq` : its values in terms of the counts; `Column.calculateCdf` : they are a row.
-/

namespace FairCache.CacheGen

open Lib

/-- The symbols of a channel, quantised with `max_bins` bins. -/
structure Column (maxBins : ℕ) where
  symbols : List ℕ
  pos : 0 < maxBins
  maxBins_le : maxBins ≤ 47
  ne_nil : symbols ≠ []
  length_lt : symbols.length < 2 ^ 16
  lt : ∀ v ∈ symbols, v < maxBins

/-- What `calculate_cdf` accepts for a channel : less than `MAX_BINS_SUPPORTED` bins, at most 65535 tokens. -/
structure KernelInput (maxBins : ℕ) where
  symbols : List ℕ
  pos : 0 < maxBins
  maxBins_lt : maxBins < 64
  ne_nil : symbols ≠ []
  length_lt : symbols.length < 2 ^ 16
  lt : ∀ v ∈ symbols, v < maxBins

/-! ## The kernel -/

/-- `hist[value+1]++` for each token. -/
def histogram (maxBins : ℕ) (input : List ℕ) : List (BitVec 16) :=
  input.foldl (fun hist value => hist.modify (value + 1) (· + 1)) (List.replicate (maxBins + 1) 0)

/-- The loop that adds the counts up, and `local_sum` after it. -/
def accumulate (localSum : BitVec 16) : List (BitVec 16) → List (BitVec 16) × BitVec 16
  | [] => ([], localSum)
  | value :: hist =>
    let (rest, total) := accumulate (localSum + value) hist
    ((value + localSum) :: rest, total)

/-- `normalize_cdf_value`. -/
def normalizeCdfValue (cdfValue maxCdfValue : BitVec 16) (maxBins : ℕ) : BitVec 16 :=
  let maxUint16Value : BitVec 32 := 0xFFFF - BitVec.ofNat 32 maxBins
  (maxUint16Value * cdfValue.setWidth 32 / maxCdfValue.setWidth 32).setWidth 16

/-- `calculate_cdf_kernel` for one channel. -/
def calculateCdfKernel (maxBins : ℕ) (input : List ℕ) : List (BitVec 16) :=
  match histogram maxBins input with
  | [] => []
  | first :: hist =>
    let (hist, localSum) := accumulate 0 hist
    (first :: hist).mapIdx fun i value => normalizeCdfValue value localSum maxBins + BitVec.ofNat 16 i

/-! ## What it computes -/

/-- How many symbols are smaller. -/
def below (input : List ℕ) (i : ℕ) : ℕ := input.countP (· < i)

theorem below_succ (input : List ℕ) (i : ℕ) : below input (i + 1) = below input i + input.count i := by
  induction input with
  | nil => rfl
  | cons v input ih =>
    unfold below at *
    rw [List.countP_cons, List.countP_cons, List.count_cons, ih]
    rcases Nat.lt_trichotomy v i with h | h | h
    · have hne : (v == i) = false := by simpa using h.ne
      simp only [decide_eq_true h, decide_eq_true (Nat.lt_succ_of_lt h), hne]
      simp
      omega
    · subst h
      simp
      omega
    · have hne : (v == i) = false := by simpa using h.ne'
      simp only [decide_eq_false (Nat.not_lt.mpr h.le), decide_eq_false (Nat.not_lt.mpr (Nat.succ_le_of_lt h)), hne]
      simp

theorem below_le_length (input : List ℕ) (i : ℕ) : below input i ≤ input.length := List.countP_le_length

theorem below_mono (input : List ℕ) {i j : ℕ} (h : i ≤ j) : below input i ≤ below input j := by
  apply List.countP_mono_left
  intro v _ hv
  rw [decide_eq_true_eq] at hv ⊢
  omega

theorem below_of_forall_lt {input : List ℕ} {i : ℕ} (h : ∀ v ∈ input, v < i) : below input i = input.length := by
  apply List.countP_eq_length.mpr
  intro v hv
  exact decide_eq_true (h v hv)

/-- **The histogram counts.** -/
theorem histogram_eq {maxBins : ℕ} {input : List ℕ} (h : ∀ v ∈ input, v < maxBins) :
    histogram maxBins input = 0 :: (List.range maxBins).map fun i => BitVec.ofNat 16 (input.count i) := by
  induction input using List.reverseRecOn with
  | nil =>
    apply List.ext_getElem
    · simp [histogram]
    · intro i h₁ h₂
      rcases i with _ | i
      · simp [histogram]
      · simp [histogram]
  | append_singleton input v ih =>
    have hv : v < maxBins := h v (List.mem_append_right _ (List.mem_singleton_self v))
    have hinit := ih fun w hw => h w (List.mem_append_left _ hw)
    have hstep : histogram maxBins (input ++ [v]) = (histogram maxBins input).modify (v + 1) (· + 1) := by
      unfold histogram
      rw [List.foldl_append]
      rfl
    rw [hstep, hinit]
    apply List.ext_getElem
    · simp
    · intro i h₁ h₂
      rcases i with _ | i
      · simp
      · simp only [List.length_cons, List.length_map, List.length_range] at h₂
        rw [List.getElem_modify]
        by_cases hi : v = i
        · subst hi
          simp [BitVec.ofNat_add]
        · simp [hi]

/-- **The counts are added up.** -/
theorem accumulate_eq (input : List ℕ) (maxBins i : ℕ) (hi : i ≤ maxBins) :
    accumulate (BitVec.ofNat 16 (below input i))
        (((List.range' i (maxBins - i))).map fun j => BitVec.ofNat 16 (input.count j)) =
      ((List.range' i (maxBins - i)).map (fun j => BitVec.ofNat 16 (below input (j + 1))),
        BitVec.ofNat 16 (below input maxBins)) := by
  induction hn : maxBins - i generalizing i with
  | zero =>
    obtain rfl : i = maxBins := by omega
    rfl
  | succ n ih =>
    have hsum : BitVec.ofNat 16 (below input i) + BitVec.ofNat 16 (input.count i) = BitVec.ofNat 16 (below input (i + 1)) := by
      rw [below_succ, BitVec.ofNat_add]
    have hrest := ih (i + 1) (by omega) (by omega)
    rw [List.range'_succ, List.map_cons, List.map_cons, accumulate, hsum, hrest, BitVec.add_comm, hsum]

theorem below_zero (input : List ℕ) : below input 0 = 0 := by
  unfold below
  rw [List.countP_eq_zero]
  intro v _
  simp

namespace KernelInput

variable {maxBins : ℕ} (col : KernelInput maxBins)

theorem length_pos : 0 < col.symbols.length := List.length_pos_iff.mpr col.ne_nil

/-- The count below a symbol, scaled to 16 bits. -/
def scaled (i : ℕ) : ℕ := (0xFFFF - maxBins) * below col.symbols i / col.symbols.length

theorem scaled_zero : col.scaled 0 = 0 := by
  rw [scaled, below_zero, Nat.mul_zero, Nat.zero_div]

theorem scaled_maxBins : col.scaled maxBins = 0xFFFF - maxBins := by
  rw [scaled, below_of_forall_lt col.lt, Nat.mul_div_cancel _ col.length_pos]

theorem scaled_le (i : ℕ) : col.scaled i ≤ 0xFFFF - maxBins :=
  Nat.div_le_of_le_mul (Nat.mul_comm _ col.symbols.length ▸ Nat.mul_le_mul_left _ (below_le_length _ i))

theorem scaled_mono {i j : ℕ} (h : i ≤ j) : col.scaled i ≤ col.scaled j :=
  Nat.div_le_div_right (Nat.mul_le_mul_left _ (below_mono _ h))

/-- A count is scaled without overflow. -/
theorem normalizeCdfValue_below (i : ℕ) :
    normalizeCdfValue (BitVec.ofNat 16 (below col.symbols i)) (BitVec.ofNat 16 col.symbols.length) maxBins =
      BitVec.ofNat 16 (col.scaled i) := by
  have hlt := col.length_lt
  have hle := below_le_length col.symbols i
  have hbins := col.maxBins_lt
  have hwide : ∀ c, c ≤ col.symbols.length → ((BitVec.ofNat 16 c).setWidth 32).toNat = c := by
    intro c hc
    rw [BitVec.toNat_setWidth, BitVec.toNat_ofNat]
    omega
  have hmax : (0xFFFF - BitVec.ofNat 32 maxBins : BitVec 32).toNat = 0xFFFF - maxBins := by
    rw [BitVec.toNat_sub, BitVec.toNat_ofNat]
    show (2 ^ 32 - maxBins % 2 ^ 32 + 65535) % 2 ^ 32 = _
    omega
  have hmul : (0xFFFF - maxBins) * below col.symbols i < 2 ^ 32 := by
    have hbound : (0xFFFF - maxBins) * below col.symbols i ≤ 0xFFFF * 2 ^ 16 := Nat.mul_le_mul (by omega) (by omega)
    omega
  apply BitVec.eq_of_toNat_eq
  unfold normalizeCdfValue scaled
  dsimp only
  rw [BitVec.toNat_setWidth, BitVec.toNat_udiv, BitVec.toNat_mul, hmax, hwide _ hle, hwide _ (Nat.le_refl _),
    Nat.mod_eq_of_lt hmul, BitVec.toNat_ofNat]

/-- **The kernel scales the counts below each symbol, and makes them strictly increasing.** -/
theorem calculateCdfKernel_eq :
    calculateCdfKernel maxBins col.symbols =
      (List.range (maxBins + 1)).map fun i => BitVec.ofNat 16 (col.scaled i + i) := by
  have hsums := accumulate_eq col.symbols maxBins 0 (Nat.zero_le _)
  rw [below_zero, below_of_forall_lt col.lt, Nat.sub_zero] at hsums
  unfold calculateCdfKernel
  rw [histogram_eq col.lt, List.range_eq_range']
  dsimp only
  rw [show (0 : BitVec 16) = BitVec.ofNat 16 0 from rfl, hsums]
  apply List.ext_getElem
  · simp
  · intro i h₁ h₂
    rcases i with _ | i
    · have hfirst := col.normalizeCdfValue_below 0
      rw [below_zero] at hfirst
      simp [hfirst]
    · have hnext := col.normalizeCdfValue_below (i + 1)
      simp [hnext, BitVec.ofNat_add]

/-- **The row is strictly increasing.** -/
theorem pairwise_calculateCdfKernel : (calculateCdfKernel maxBins col.symbols).Pairwise (· < ·) := by
  rw [calculateCdfKernel_eq, List.pairwise_map]
  apply List.pairwise_lt_range.imp_of_mem
  intro i j hi hj hij
  have hbins := col.maxBins_lt
  have hi' := col.scaled_le i
  have hj' := col.scaled_le j
  have hmono := col.scaled_mono hij.le
  rw [List.mem_range] at hi hj
  rw [BitVec.lt_def, BitVec.toNat_ofNat, BitVec.toNat_ofNat]
  omega

end KernelInput

/-- The count below a symbol, scaled to 16 bits. -/
def scaled {maxBins : ℕ} (col : Column maxBins) (i : ℕ) : ℕ :=
  (0xFFFF - maxBins) * below col.symbols i / col.symbols.length

namespace Column

variable {maxBins : ℕ} (col : Column maxBins)

/-- A column is something the kernel can be launched on. -/
def kernelInput : KernelInput maxBins where
  symbols := col.symbols
  pos := col.pos
  maxBins_lt := Nat.lt_of_le_of_lt col.maxBins_le (by decide)
  ne_nil := col.ne_nil
  length_lt := col.length_lt
  lt := col.lt

theorem length_pos : 0 < col.symbols.length := col.kernelInput.length_pos

theorem scaled_le (i : ℕ) : scaled col i ≤ 0xFFFF - maxBins := col.kernelInput.scaled_le i

theorem scaled_mono {i j : ℕ} (h : i ≤ j) : scaled col i ≤ scaled col j := col.kernelInput.scaled_mono h

theorem calculateCdfKernel_eq :
    calculateCdfKernel maxBins col.symbols =
      (List.range (maxBins + 1)).map fun i => BitVec.ofNat 16 (scaled col i + i) :=
  col.kernelInput.calculateCdfKernel_eq

/-- `calculate_cdf` : the row of the column. -/
def calculateCdf : Cdf where
  values := calculateCdfKernel maxBins col.symbols
  le_length := by
    have := col.pos
    rw [calculateCdfKernel_eq, List.length_map, List.length_range]
    omega
  length_le := by
    have := col.maxBins_le
    rw [calculateCdfKernel_eq, List.length_map, List.length_range]
    omega
  head := by
    have hzero : scaled col 0 = 0 := col.kernelInput.scaled_zero
    rw [calculateCdfKernel_eq, List.range_succ_eq_map, List.map_cons, List.head?_cons, hzero]
    rfl
  sorted := col.kernelInput.pairwise_calculateCdfKernel

theorem maxSymbol_calculateCdf : col.calculateCdf.maxSymbol = maxBins - 1 := by
  unfold Cdf.maxSymbol calculateCdf
  dsimp only
  rw [calculateCdfKernel_eq, List.length_map, List.length_range]
  omega

end Column

end FairCache.CacheGen
