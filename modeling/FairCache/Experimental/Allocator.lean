import FairCache.Lib.Extents
import FairCache.Lib.Run
import FairCache.Lib.SortedList
import Mathlib.Data.Nat.Bitwise

/-!
# The tensor memory allocator

An explicit list of the free blocks of one buffer, sorted by start.

* `FreeBlock`, `TensorMemoryObj` : a free block, and what `allocate` returns;
* `TensorMemoryAllocator` : the blocks and the counters, with `allocate` (first fit) and `free` (which coalesces);
* `Heap` : an allocator and the objects it ever returned; `step` : one operation on them.
-/

namespace FairCache

open Lib

/-- A `torch.dtype`, of which only `itemsize` matters. -/
structure Dtype where
  itemsize : ℕ
  itemsize_pos : 0 < itemsize

/-- `MemoryFormat`. -/
inductive MemoryFormat
  | undefined
  | kvBlob
  | binary
  | binaryBuffer
  deriving DecidableEq

/-- `FreeBlock` : a start and a size. -/
abbrev FreeBlock := Extent

/-- `FreeBlock.can_be_coalesced`. -/
def FreeBlock.canBeCoalesced (b succ : FreeBlock) : Bool := b.start + b.size == succ.start

/-- `MemoryObjMetadata`. -/
structure MemoryObjMetadata where
  shape : List ℕ
  dtype : Dtype
  address : ℕ
  phySize : ℕ
  refCount : ℤ
  fmt : MemoryFormat

/-- `TensorMemoryObj` : `raw_data` is the slice of the buffer. -/
structure TensorMemoryObj where
  rawData : Extent
  metadata : MemoryObjMetadata
  valid : Bool

/-- `get_physical_size` and the address: the bytes that were taken from the buffer. -/
def TensorMemoryObj.range (o : TensorMemoryObj) : Extent := ⟨o.metadata.address, o.metadata.phySize⟩

/-- `TensorMemoryAllocator`. -/
structure TensorMemoryAllocator where
  /-- `buffer.numel()`. -/
  bufferSize : ℕ
  explicitList : List FreeBlock
  numActiveAllocations : ℕ
  totalAllocatedSize : ℤ

namespace TensorMemoryAllocator

/-- `ALIGN_BYTES`. -/
def alignBytes : ℕ := 512

/-- An allocator over a buffer of `n` bytes. -/
def new (n : ℕ) : TensorMemoryAllocator :=
  { bufferSize := n, explicitList := SortedList.add Extent.start [] ⟨0, n⟩, numActiveAllocations := 0
    totalAllocatedSize := 0 }

/-- `_Compute_raw_size`. -/
def computeRawSize (shape : List ℕ) (dtype : Dtype) : ℕ := shape.prod * dtype.itemsize

/-- `_Compute_aligned_size` : `(raw_size + align - 1) & ~(align - 1)`. -/
def computeAlignedSize (rawSize : ℕ) : ℕ := Nat.ldiff (rawSize + alignBytes - 1) (alignBytes - 1)

/-- `buffer[start:stop]`. -/
def slice (n start stop : ℕ) : Extent := ⟨min start n, min stop n - min start n⟩

/-- `_coalesce` : the list after it, if the block was merged. The neighbours are changed in place. -/
def coalesce (explicitList : List FreeBlock) (curr : FreeBlock) (prev succ : Option FreeBlock) :
    Option (List FreeBlock) :=
  let mergePrev := prev.filter fun p => p.canBeCoalesced curr
  let mergeSucc := succ.filter fun s => curr.canBeCoalesced s
  match mergePrev, mergeSucc with
  | some p, some s => some ((explicitList.replace p { p with size := p.size + (curr.size + s.size) }).erase s)
  | some p, none => some (explicitList.replace p { p with size := p.size + curr.size })
  | none, some s =>
    some (SortedList.add Extent.start (explicitList.erase s) ⟨s.start - curr.size, s.size + curr.size⟩)
  | none, none => none

/-- `allocate`. -/
def allocate (a : TensorMemoryAllocator) (shape : List ℕ) (dtype : Dtype) (fmt : MemoryFormat) :
    Option TensorMemoryObj × TensorMemoryAllocator :=
  let rawSize := computeRawSize shape dtype
  let alignedSize := computeAlignedSize rawSize
  match a.explicitList.find? fun block => alignedSize ≤ block.size with
  | none => (none, a)
  | some block =>
    let rest := a.explicitList.erase block
    let rest :=
      if alignedSize < block.size then
        SortedList.add Extent.start rest ⟨block.start + alignedSize, block.size - alignedSize⟩
      else rest
    (some
      { rawData := slice a.bufferSize block.start (block.start + rawSize)
        metadata := { shape := shape, dtype := dtype, address := block.start, phySize := alignedSize, refCount := 1, fmt := fmt }
        valid := true },
      { a with
        explicitList := rest
        totalAllocatedSize := a.totalAllocatedSize + alignedSize
        numActiveAllocations := a.numActiveAllocations + 1 })

/-- The free list after the block went back to it. -/
def addFreeBlock (explicitList : List FreeBlock) (newFreeBlock : FreeBlock) : List FreeBlock :=
  let index := SortedList.bisectRight Extent.start explicitList newFreeBlock.start
  let prevBlock := if 0 < index then explicitList[index - 1]? else none
  let succBlock := explicitList[index]?
  match coalesce explicitList newFreeBlock prevBlock succBlock with
  | some l => l
  | none => SortedList.add Extent.start explicitList newFreeBlock

/-- `free` : the object is invalid afterwards. -/
def free (a : TensorMemoryAllocator) (o : TensorMemoryObj) : TensorMemoryAllocator × TensorMemoryObj :=
  if o.valid then
    ({ a with
      explicitList := addFreeBlock a.explicitList o.range
      totalAllocatedSize := a.totalAllocatedSize - o.metadata.phySize
      numActiveAllocations := a.numActiveAllocations - 1 },
      { o with valid := false })
  else (a, o)

/-- `ref_count_up`. -/
def refCountUp (o : TensorMemoryObj) : TensorMemoryObj :=
  { o with metadata := { o.metadata with refCount := o.metadata.refCount + 1 } }

/-- `ref_count_down` : the last reference frees. -/
def refCountDown (a : TensorMemoryAllocator) (o : TensorMemoryObj) : TensorMemoryAllocator × TensorMemoryObj :=
  let o := { o with metadata := { o.metadata with refCount := o.metadata.refCount - 1 } }
  if o.metadata.refCount = 0 then a.free o else (a, o)

/-- `memcheck`. -/
def memcheck (a : TensorMemoryAllocator) : Bool :=
  let totalFreeSize := (a.explicitList.map Extent.size).sum
  (totalFreeSize + a.totalAllocatedSize == a.bufferSize) &&
    (a.explicitList.zip a.explicitList.tail).all fun (prev, succ) => !FreeBlock.canBeCoalesced prev succ

/-! ## Sizes -/

theorem computeAlignedSize_eq (n : ℕ) : computeAlignedSize n = (n + 511) / 512 * 512 := by
  unfold computeAlignedSize alignBytes
  have hpow : (512 : ℕ) = 2 ^ 9 := rfl
  apply Nat.eq_of_testBit_eq
  intro i
  rw [Nat.testBit_ldiff, show n + 512 - 1 = n + 511 by omega, hpow, ← Nat.shiftRight_eq_div_pow, ← Nat.shiftLeft_eq,
    Nat.testBit_shiftLeft, Nat.testBit_shiftRight, Nat.testBit_two_pow_sub_one]
  by_cases hi : i < 9
  · simp [hi, not_le.mpr hi]
  · simp [hi, not_lt.mp hi]

theorem le_computeAlignedSize (n : ℕ) : n ≤ computeAlignedSize n := by
  rw [computeAlignedSize_eq]
  omega

theorem computeAlignedSize_pos {n : ℕ} (h : 0 < n) : 0 < computeAlignedSize n :=
  lt_of_lt_of_le h (le_computeAlignedSize n)

end TensorMemoryAllocator

/-! ## Histories -/

/-- An allocator and every object that it ever returned, the live ones and the freed ones. -/
structure Heap where
  allocator : TensorMemoryAllocator
  objs : List TensorMemoryObj

namespace Heap

/-- Nothing is allocated. -/
def new (n : ℕ) : Heap := { allocator := .new n, objs := [] }

/-- An operation; an object is named by the number of the call that returned it. -/
inductive Op
  | allocate (shape : List ℕ) (dtype : Dtype) (fmt : MemoryFormat)
  | free (i : ℕ)
  | refCountUp (i : ℕ)
  | refCountDown (i : ℕ)

/-- One operation, if its object was ever returned. -/
def step (h : Heap) : Op → Except Unit Heap
  | .allocate shape dtype fmt =>
    let (o, a) := h.allocator.allocate shape dtype fmt
    .ok { allocator := a, objs := h.objs ++ o.toList }
  | .free i =>
    match h.objs[i]? with
    | none => .error ()
    | some o =>
      let (a, o) := h.allocator.free o
      .ok { allocator := a, objs := h.objs.set i o }
  | .refCountUp i =>
    match h.objs[i]? with
    | none => .error ()
    | some o => .ok { h with objs := h.objs.set i (TensorMemoryAllocator.refCountUp o) }
  | .refCountDown i =>
    match h.objs[i]? with
    | none => .error ()
    | some o =>
      let (a, o) := h.allocator.refCountDown o
      .ok { allocator := a, objs := h.objs.set i o }

/-- The objects that were not freed. -/
def live (h : Heap) : List TensorMemoryObj := h.objs.filter TensorMemoryObj.valid

end Heap

end FairCache
