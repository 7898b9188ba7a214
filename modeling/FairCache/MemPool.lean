import FairCache.Basic
import Mathlib.Data.Rat.Floor
import Mathlib.Tactic.Ring

/-!
# The memory pool

* `LMCacheMemPoolMetadata` : the shape of a chunk and the configured size; `kvBytes n` is the size in bytes of a KV
  tensor of `n` tokens, `sizePerChunk` that of a whole chunk, `maxBytes` the limit and `maxChunkNum` the slots;
* `LocalPool` : the buffers and the stack of free slots, with `allocate`, `free` and the copy into a slot.

A KV tensor is the list of its token rows: row `i` holds, for every layer, the key and value of token `i`.
-/

namespace FairCache

/-- The chunk shape `(num_layer, 2, chunk_size, num_kv_head, head_size)`, the element size and the configured size
in GB. An empty chunk shape has no pool, since its slot count would divide by zero; a size is not negative. -/
structure LMCacheMemPoolMetadata where
  numLayer : ℕ
  chunkSize : ℕ
  numKvHead : ℕ
  headSize : ℕ
  itemsize : ℕ
  maxLocalCacheSize : ℚ
  shape_pos : 0 < numLayer * 2 * chunkSize * numKvHead * headSize * itemsize
  maxLocalCacheSize_nonneg : 0 ≤ maxLocalCacheSize

namespace LMCacheMemPoolMetadata

variable (md : LMCacheMemPoolMetadata)

/-- The bytes of a KV tensor of `n` tokens: `numel * element_size`. -/
def kvBytes (n : ℕ) : ℕ := md.numLayer * 2 * n * md.numKvHead * md.headSize * md.itemsize

/-- `size_per_chunk = prod(kv_shape) * kv_dtype.itemsize`. -/
def sizePerChunk : ℕ := md.kvBytes md.chunkSize

/-- `int(max_local_cache_size * 1024**3)`. -/
def maxBytes : ℕ := ⌊md.maxLocalCacheSize * 1024 ^ 3⌋₊

/-- `init_max_chunk_num`. -/
def maxChunkNum : ℕ := md.maxBytes / md.sizePerChunk + 1

theorem sizePerChunk_pos : 0 < md.sizePerChunk := md.shape_pos

theorem chunkSize_pos : 0 < md.chunkSize := by
  refine Nat.pos_of_ne_zero fun h => ?_
  have := md.shape_pos
  rw [h] at this
  simp at this

theorem kvBytes_eq (n : ℕ) : md.kvBytes n = md.kvBytes 1 * n := by
  unfold kvBytes; ring

theorem kvBytes_one_pos : 0 < md.kvBytes 1 := by
  have := md.sizePerChunk_pos
  rw [sizePerChunk, kvBytes_eq] at this
  exact Nat.pos_of_mul_pos_right this

theorem kvBytes_le {n : ℕ} (h : n ≤ md.chunkSize) : md.kvBytes n ≤ md.sizePerChunk := by
  rw [sizePerChunk, kvBytes_eq, kvBytes_eq md md.chunkSize]
  exact Nat.mul_le_mul_left _ h

theorem kvBytes_eq_sizePerChunk {n : ℕ} : md.kvBytes n = md.sizePerChunk ↔ n = md.chunkSize := by
  rw [sizePerChunk, kvBytes_eq, kvBytes_eq md md.chunkSize]
  exact Nat.mul_right_inj md.kvBytes_one_pos.ne'

/-- As many chunks as fit the limit leave a slot free. -/
theorem lt_maxChunkNum {n : ℕ} (h : md.sizePerChunk * n ≤ md.maxBytes) : n < md.maxChunkNum := by
  have hdiv : n ≤ md.maxBytes / md.sizePerChunk :=
    (Nat.le_div_iff_mul_le md.sizePerChunk_pos).mpr (by rwa [Nat.mul_comm])
  unfold maxChunkNum
  omega

/-- A pool for runs on concrete inputs: chunks of two tokens, four bytes each, and room for three of them. -/
def threeChunks : LMCacheMemPoolMetadata :=
  { numLayer := 1, chunkSize := 2, numKvHead := 1, headSize := 1, itemsize := 1, maxLocalCacheSize := 12 / 1024 ^ 3
    shape_pos := by decide, maxLocalCacheSize_nonneg := by norm_num }

end LMCacheMemPoolMetadata

/-- A slot of the pool that holds `numTok` token rows; `size` is what `get_size` answers for it. -/
structure KVObj where
  chunkIdx : ℕ
  size : ℕ
  numTok : ℕ
  deriving DecidableEq

/-- The pool: slot `i`'s buffer and the stack of free slots (its last element is the top). -/
structure LocalPool (md : LMCacheMemPoolMetadata) (R : Type) where
  memPool : ℕ → List R
  freePool : List ℕ

namespace LocalPool

variable {md : LMCacheMemPoolMetadata} {R : Type}

/-- A fresh pool: every slot is free. -/
def new (md : LMCacheMemPoolMetadata) (R : Type) : LocalPool md R :=
  { memPool := fun _ => [], freePool := List.range md.maxChunkNum }

/-- Take a slot for a chunk. Its object is charged as a whole chunk, whatever the number of tokens. -/
def allocate (p : LocalPool md R) (kvChunk : List R) : Except PyError (KVObj × LocalPool md R) :=
  if md.chunkSize < kvChunk.length then .error (.assertionError "num_tok <= self.chunk_size")
  else
    match p.freePool.getLast? with
    | none => .error (.exception "Mempool allocation failed")
    | some idx =>
      .ok ({ chunkIdx := idx, size := md.sizePerChunk, numTok := kvChunk.length },
        { p with freePool := p.freePool.dropLast })

/-- Give a slot back. -/
def free (p : LocalPool md R) (kvObj : KVObj) : LocalPool md R :=
  { p with freePool := p.freePool ++ [kvObj.chunkIdx] }

/-- `kv_obj.data` : the first rows of the slot's buffer. -/
def data (p : LocalPool md R) (kvObj : KVObj) : List R := (p.memPool kvObj.chunkIdx).take kvObj.numTok

/-- `kv_obj.data.copy_(kv_chunk)` : overwrite the first rows of the slot's buffer. -/
def copy (p : LocalPool md R) (kvObj : KVObj) (kvChunk : List R) : LocalPool md R :=
  let rows := kvChunk ++ (p.memPool kvObj.chunkIdx).drop kvChunk.length
  { p with memPool := Function.update p.memPool kvObj.chunkIdx rows }

@[simp] theorem freePool_copy (p : LocalPool md R) (o : KVObj) (c : List R) : (p.copy o c).freePool = p.freePool :=
  rfl

@[simp] theorem memPool_free (p : LocalPool md R) (o : KVObj) : (p.free o).memPool = p.memPool := rfl

@[simp] theorem data_free (p : LocalPool md R) (o o' : KVObj) : (p.free o).data o' = p.data o' := rfl

/-- What `allocate` takes: the top free slot, which it removes from the free slots. -/
theorem allocate_ok {p p' : LocalPool md R} {c : List R} {o : KVObj} (h : p.allocate c = .ok (o, p')) :
    c.length ≤ md.chunkSize ∧ o.size = md.sizePerChunk ∧ o.numTok = c.length ∧
      p.freePool = p'.freePool ++ [o.chunkIdx] ∧ p'.memPool = p.memPool := by
  unfold allocate at h
  split_ifs at h with hlen
  cases hl : p.freePool.getLast? with
  | none => rw [hl] at h; cases h
  | some idx =>
    rw [hl] at h
    cases h
    exact ⟨not_lt.mp hlen, rfl, rfl, (List.dropLast_append_getLast? idx hl).symm, rfl⟩

/-- With a free slot and a chunk that fits, `allocate` returns. -/
theorem exists_allocate {p : LocalPool md R} {c : List R} (hc : c.length ≤ md.chunkSize) (hp : p.freePool ≠ []) :
    ∃ o p', p.allocate c = .ok (o, p') := by
  unfold allocate
  rw [if_neg (not_lt.mpr hc), List.getLast?_eq_some_getLast hp]
  exact ⟨_, _, rfl⟩

theorem data_copy_self (p : LocalPool md R) {o : KVObj} {c : List R} (h : o.numTok = c.length) :
    (p.copy o c).data o = c := by
  simp [data, copy, h]

theorem data_copy_ne (p : LocalPool md R) {o o' : KVObj} (c : List R) (h : o'.chunkIdx ≠ o.chunkIdx) :
    (p.copy o c).data o' = p.data o' := by
  simp [data, copy, Function.update_of_ne h]

end LocalPool

end FairCache
