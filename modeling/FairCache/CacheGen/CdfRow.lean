import FairCache.CacheGen.CalculateCdf
import FairCache.Lib.Checked

/-!
# The row of the CDF kernel

* `calculateCdfKernelChecked` : the kernel with every operation on its 16- and 32-bit registers checked;
* `calculateCdfKernel_of_checked` : a run of it in which nothing overflows writes what the kernel writes;
* `KernelInput.calculateCdfKernelChecked_eq` : nothing overflows on at most 65535 tokens;
* `KernelInput.calculateCdfKernel_row` : the row is a table the arithmetic coder can use.
-/

namespace FairCache.CacheGen

open Lib

/-! ## The kernel, with its overflows -/

/-- `hist[value+1]++`. -/
def incrementChecked (hist : List (BitVec 16)) (value : ℕ) : Option (List (BitVec 16)) := do
  let count ← hist[value + 1]?
  let count' ← Checked.add count 1
  return hist.set (value + 1) count'

def histogramChecked (maxBins : ℕ) (input : List ℕ) : Option (List (BitVec 16)) :=
  input.foldlM incrementChecked (List.replicate (maxBins + 1) 0)

def accumulateChecked (localSum : BitVec 16) : List (BitVec 16) → Option (List (BitVec 16) × BitVec 16)
  | [] => some ([], localSum)
  | value :: hist => do
    let sum ← Checked.add value localSum
    let localSum' ← Checked.add localSum value
    let (rest, total) ← accumulateChecked localSum' hist
    return (sum :: rest, total)

/-- The product is of 32 bits, and the quotient is cut to 16. -/
def normalizeCdfValueChecked (cdfValue maxCdfValue : BitVec 16) (maxBins : ℕ) : Option (BitVec 16) := do
  let maxUint16Value : BitVec 32 ← Checked.sub 0xFFFF (BitVec.ofNat 32 maxBins)
  let product ← Checked.mul maxUint16Value (cdfValue.setWidth 32)
  Checked.narrow 16 (product / maxCdfValue.setWidth 32)

/-- The last loop, from the entry `i` on. -/
def normalizeChecked (localSum : BitVec 16) (maxBins : ℕ) : ℕ → List (BitVec 16) → Option (List (BitVec 16))
  | _, [] => some []
  | i, value :: hist => do
    let scaled ← normalizeCdfValueChecked value localSum maxBins
    let entry ← Checked.add scaled (BitVec.ofNat 16 i)
    let rest ← normalizeChecked localSum maxBins (i + 1) hist
    return entry :: rest

/-- `calculate_cdf_kernel` for one channel, where each operation reports an overflow. -/
def calculateCdfKernelChecked (maxBins : ℕ) (input : List ℕ) : Option (List (BitVec 16)) := do
  match ← histogramChecked maxBins input with
  | [] => return []
  | first :: hist =>
    let (sums, localSum) ← accumulateChecked 0 hist
    normalizeChecked localSum maxBins 0 (first :: sums)

/-! ## It is the kernel -/

theorem foldl_of_checked {input : List ℕ} {hist hist' : List (BitVec 16)}
    (h : input.foldlM incrementChecked hist = some hist') :
    input.foldl (fun hist value => hist.modify (value + 1) (· + 1)) hist = hist' := by
  induction input generalizing hist with
  | nil => exact Option.some.inj h
  | cons value input ih =>
    rw [List.foldlM_cons, Option.bind_eq_bind, Option.bind_eq_some_iff] at h
    obtain ⟨next, hnext, h⟩ := h
    rw [List.foldl_cons]
    unfold incrementChecked at hnext
    simp only [Option.bind_eq_bind, Option.bind_eq_some_iff] at hnext
    obtain ⟨count, hcount, count', hadd, hset⟩ := hnext
    have hset' : hist.set (value + 1) count' = next := Option.some.inj hset
    rw [List.modify_eq_set_getElem?, hcount, Option.map_eq_map, Option.map_some, Option.getD_some, Checked.add_eq hadd, hset']
    exact ih h

theorem accumulate_of_checked {hist sums : List (BitVec 16)} {localSum total : BitVec 16}
    (h : accumulateChecked localSum hist = some (sums, total)) : accumulate localSum hist = (sums, total) := by
  induction hist generalizing localSum sums total with
  | nil => exact Option.some.inj h
  | cons value hist ih =>
    unfold accumulateChecked at h
    simp only [Option.bind_eq_bind, Option.bind_eq_some_iff] at h
    obtain ⟨sum, hsum, localSum', hlocal, ⟨rest, total'⟩, hrest, h⟩ := h
    obtain ⟨rfl, rfl⟩ := Prod.mk.inj (Option.some.inj h)
    rw [accumulate, Checked.add_eq hlocal, ih hrest, Checked.add_eq hsum]

theorem normalizeCdfValue_of_checked {cdfValue maxCdfValue z : BitVec 16} {maxBins : ℕ}
    (h : normalizeCdfValueChecked cdfValue maxCdfValue maxBins = some z) :
    normalizeCdfValue cdfValue maxCdfValue maxBins = z := by
  unfold normalizeCdfValueChecked at h
  simp only [Option.bind_eq_bind, Option.bind_eq_some_iff] at h
  obtain ⟨maxUint16Value, hmax, product, hmul, hnarrow⟩ := h
  unfold normalizeCdfValue
  dsimp only
  rw [Checked.sub_eq hmax, Checked.mul_eq hmul, Checked.narrow_eq hnarrow]

theorem mapIdx_of_checked {localSum : BitVec 16} {maxBins i : ℕ} {hist row : List (BitVec 16)}
    (h : normalizeChecked localSum maxBins i hist = some row) :
    (hist.mapIdx fun j value => normalizeCdfValue value localSum maxBins + BitVec.ofNat 16 (i + j)) = row := by
  induction hist generalizing i row with
  | nil => exact Option.some.inj h
  | cons value hist ih =>
    unfold normalizeChecked at h
    simp only [Option.bind_eq_bind, Option.bind_eq_some_iff] at h
    obtain ⟨scaled, hscaled, entry, hentry, rest, hrest, h⟩ := h
    rw [List.mapIdx_cons, normalizeCdfValue_of_checked hscaled, Nat.add_zero, Checked.add_eq hentry]
    have htail := ih hrest
    simp only [Nat.add_right_comm _ 1, Nat.add_assoc] at htail ⊢
    rw [htail]
    exact Option.some.inj h

/-- **Where nothing overflows, the checked kernel is the kernel.** -/
theorem calculateCdfKernel_of_checked {maxBins : ℕ} {input : List ℕ} {row : List (BitVec 16)}
    (h : calculateCdfKernelChecked maxBins input = some row) : calculateCdfKernel maxBins input = row := by
  unfold calculateCdfKernelChecked at h
  rw [Option.bind_eq_bind, Option.bind_eq_some_iff] at h
  obtain ⟨hist, hhist, h⟩ := h
  have hhistogram : histogram maxBins input = hist := foldl_of_checked hhist
  unfold calculateCdfKernel
  rw [hhistogram]
  cases hist with
  | nil => exact Option.some.inj h
  | cons first hist =>
    simp only [Option.bind_eq_bind, Option.bind_eq_some_iff] at h
    obtain ⟨⟨sums, localSum⟩, hsums, hrow⟩ := h
    have hmap := mapIdx_of_checked hrow
    simp only [Nat.zero_add] at hmap
    dsimp only
    rw [accumulate_of_checked hsums]
    exact hmap

/-! ## Nothing overflows -/

namespace KernelInput

variable {maxBins : ℕ}

/-- The histogram of fewer than 2^16 tokens. -/
theorem histogramChecked_eq {input : List ℕ} (hlt : ∀ v ∈ input, v < maxBins) (hlen : input.length < 2 ^ 16) :
    histogramChecked maxBins input =
      some (0 :: (List.range maxBins).map fun i => BitVec.ofNat 16 (input.count i)) := by
  induction input using List.reverseRecOn with
  | nil => rw [← histogram_eq hlt]; rfl
  | append_singleton input v ih =>
    rw [List.length_append, List.length_singleton] at hlen
    have hv : v < maxBins := hlt v (List.mem_append_right _ (List.mem_singleton_self v))
    have hinit := ih (fun w hw => hlt w (List.mem_append_left _ hw)) (by omega)
    -- the count of a symbol is at most the number of tokens read so far
    have hcount : input.count v + 1 < 2 ^ 16 := by
      have := List.count_le_length (a := v) (l := input)
      omega
    have hadd : Checked.add (BitVec.ofNat 16 (input.count v)) 1 = some (BitVec.ofNat 16 (input.count v + 1)) :=
      Checked.add_ofNat hcount
    have hread : (0 :: (List.range maxBins).map fun i => BitVec.ofNat 16 (input.count i))[v + 1]? =
        some (BitVec.ofNat 16 (input.count v)) := by
      rw [List.getElem?_cons_succ, List.getElem?_map, List.getElem?_range hv, Option.map_some]
    have hstep : histogramChecked maxBins (input ++ [v]) = (histogramChecked maxBins input).bind (incrementChecked · v) := by
      unfold histogramChecked
      rw [List.foldlM_append]
      simp
    rw [hstep, hinit, Option.bind_some, incrementChecked, hread]
    simp only [Option.bind_eq_bind, Option.bind_some, hadd]
    rw [List.set_cons_succ]
    congr 2
    apply List.ext_getElem
    · simp
    · intro i h₁ h₂
      rw [List.getElem_set]
      by_cases hi : v = i
      · subst hi
        simp
      · simp [hi]

/-- The running sums of fewer than 2^16 tokens. -/
theorem accumulateChecked_eq {input : List ℕ} (hlen : input.length < 2 ^ 16) (i : ℕ) (hi : i ≤ maxBins) :
    accumulateChecked (BitVec.ofNat 16 (below input i))
        ((List.range' i (maxBins - i)).map fun j => BitVec.ofNat 16 (input.count j)) =
      some ((List.range' i (maxBins - i)).map (fun j => BitVec.ofNat 16 (below input (j + 1))),
        BitVec.ofNat 16 (below input maxBins)) := by
  induction hn : maxBins - i generalizing i with
  | zero =>
    obtain rfl : i = maxBins := by omega
    rfl
  | succ n ih =>
    have hle := below_le_length input (i + 1)
    have hsucc := below_succ input i
    have hsum : Checked.add (BitVec.ofNat 16 (input.count i)) (BitVec.ofNat 16 (below input i)) =
        some (BitVec.ofNat 16 (below input (i + 1))) := by
      rw [Checked.add_ofNat (by omega), Nat.add_comm, ← hsucc]
    have hlocal : Checked.add (BitVec.ofNat 16 (below input i)) (BitVec.ofNat 16 (input.count i)) =
        some (BitVec.ofNat 16 (below input (i + 1))) := by
      rw [Checked.add_ofNat (by omega), ← hsucc]
    have hrest := ih (i + 1) (by omega) (by omega)
    rw [List.range'_succ, List.map_cons, List.map_cons, accumulateChecked]
    simp only [hsum, hlocal, hrest, Option.bind_eq_bind, Option.bind_some]
    rfl

variable (col : KernelInput maxBins)

theorem normalizeCdfValueChecked_below (i : ℕ) :
    normalizeCdfValueChecked (BitVec.ofNat 16 (below col.symbols i)) (BitVec.ofNat 16 col.symbols.length) maxBins =
      some (BitVec.ofNat 16 (col.scaled i)) := by
  have hlt := col.length_lt
  have hle := below_le_length col.symbols i
  have hbins := col.maxBins_lt
  have hscaled := col.scaled_le i
  have hmul : (0xFFFF - maxBins) * below col.symbols i < 2 ^ 32 := by
    have hbound : (0xFFFF - maxBins) * below col.symbols i ≤ 0xFFFF * 2 ^ 16 := Nat.mul_le_mul (by omega) (by omega)
    omega
  have hsub : Checked.sub (0xFFFF : BitVec 32) (BitVec.ofNat 32 maxBins) = some (BitVec.ofNat 32 (0xFFFF - maxBins)) :=
    Checked.sub_ofNat (a := 0xFFFF) (by decide) (by omega)
  unfold normalizeCdfValueChecked
  rw [hsub, Checked.setWidth_ofNat (Nat.lt_of_le_of_lt hle hlt), Checked.setWidth_ofNat hlt]
  simp only [Option.bind_eq_bind, Option.bind_some]
  rw [Checked.mul_ofNat (by omega) (by omega) hmul, Option.bind_some, Checked.div_ofNat hmul (by omega)]
  exact Checked.narrow_ofNat (by decide) (show col.scaled i < 2 ^ 16 by omega)

theorem normalizeChecked_eq {i n : ℕ} (h : i + n ≤ maxBins + 1) :
    normalizeChecked (BitVec.ofNat 16 col.symbols.length) maxBins i
        ((List.range' i n).map fun j => BitVec.ofNat 16 (below col.symbols j)) =
      some ((List.range' i n).map fun j => BitVec.ofNat 16 (col.scaled j + j)) := by
  induction n generalizing i with
  | zero => rfl
  | succ n ih =>
    have hbins := col.maxBins_lt
    have hscaled := col.scaled_le i
    have hentry : Checked.add (BitVec.ofNat 16 (col.scaled i)) (BitVec.ofNat 16 i) =
        some (BitVec.ofNat 16 (col.scaled i + i)) := Checked.add_ofNat (by omega)
    have hrest := ih (i := i + 1) (by omega)
    rw [List.range'_succ, List.map_cons, List.map_cons, normalizeChecked]
    simp only [col.normalizeCdfValueChecked_below, hentry, hrest, Option.bind_eq_bind, Option.bind_some]
    rfl

/-- **Nothing overflows.** -/
theorem calculateCdfKernelChecked_eq :
    calculateCdfKernelChecked maxBins col.symbols =
      some ((List.range (maxBins + 1)).map fun i => BitVec.ofNat 16 (col.scaled i + i)) := by
  have hsums := accumulateChecked_eq col.length_lt 0 (Nat.zero_le maxBins)
  rw [below_zero, below_of_forall_lt col.lt, Nat.sub_zero] at hsums
  have hfirst : (0 : BitVec 16) :: (List.range' 0 maxBins).map (fun j => BitVec.ofNat 16 (below col.symbols (j + 1))) =
      (List.range' 0 (maxBins + 1)).map fun j => BitVec.ofNat 16 (below col.symbols j) := by
    rw [List.range'_succ, List.map_cons, below_zero, Nat.zero_add, List.range'_eq_map_range, List.range'_eq_map_range,
      List.map_map, List.map_map]
    congr 1
    apply List.map_congr_left
    intro j _
    simp [Nat.add_comm]
  have hrow := col.normalizeChecked_eq (i := 0) (n := maxBins + 1) (by omega)
  unfold calculateCdfKernelChecked
  rw [histogramChecked_eq col.lt col.length_lt, List.range_eq_range']
  simp only [Option.bind_eq_bind, Option.bind_some]
  rw [show (0 : BitVec 16) = BitVec.ofNat 16 0 from rfl, hsums, Option.bind_some]
  dsimp only
  rw [← show (0 : BitVec 16) = BitVec.ofNat 16 0 from rfl, hfirst, hrow, List.range_eq_range']

/-- **The kernel writes a valid table.** None of its operations overflows; the row has an entry for each bin and one
more, starts at 0, is strictly increasing and ends at 65535; a symbol that occurs is at least one wide. -/
theorem calculateCdfKernel_row :
    calculateCdfKernelChecked maxBins col.symbols = some (calculateCdfKernel maxBins col.symbols) ∧
      (calculateCdfKernel maxBins col.symbols).length = maxBins + 1 ∧
      (calculateCdfKernel maxBins col.symbols).head? = some 0 ∧
      (calculateCdfKernel maxBins col.symbols).Pairwise (· < ·) ∧
      (calculateCdfKernel maxBins col.symbols).getLast? = some 65535 ∧
      ∀ v ∈ col.symbols, ∃ low high : BitVec 16, (calculateCdfKernel maxBins col.symbols)[v]? = some low ∧
        (calculateCdfKernel maxBins col.symbols)[v + 1]? = some high ∧ low.toNat + 1 ≤ high.toNat := by
  have hchecked := col.calculateCdfKernelChecked_eq
  have heq := calculateCdfKernel_of_checked hchecked
  have hincreasing := col.pairwise_calculateCdfKernel
  refine ⟨by rw [hchecked, heq], ?_, ?_, hincreasing, ?_, ?_⟩
  · rw [heq, List.length_map, List.length_range]
  · rw [heq, List.range_succ_eq_map, List.map_cons, List.head?_cons, scaled_zero]
    rfl
  · have hbins := col.maxBins_lt
    rw [heq, List.range_succ, List.map_append, List.map_singleton, List.getLast?_concat, scaled_maxBins,
      Nat.sub_add_cancel (by omega)]
    rfl
  · intro v hv
    have hlt := col.lt v hv
    have hlen : (calculateCdfKernel maxBins col.symbols).length = maxBins + 1 := by
      rw [heq, List.length_map, List.length_range]
    refine ⟨_, _, List.getElem?_eq_getElem (by omega), List.getElem?_eq_getElem (by omega), ?_⟩
    exact List.pairwise_iff_getElem.mp hincreasing v (v + 1) (by omega) (by omega) (Nat.lt_succ_self v)

end KernelInput

end FairCache.CacheGen
