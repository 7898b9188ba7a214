import FairCache.Basic
import FairCache.CacheGen.OutputBuffer
import FairCache.Lib.Chunks
import FairCache.Lib.Packing
import FairCache.Lib.Run

/-!
# The byte streams of the channels

The streams of all layers and channels are sent as one tensor, with their lengths.

* `collectBytes` : the used bytes of the encoder's rows;
* `decodeChunk`, `PrefixKernel` : the kernel that is launched on them, and what its threads read;
* `ChannelStreams` : what the encoder leaves; `ChannelStreams.streams` : the streams themselves;
* `ChannelStreams.collectBytes_eq` : the tensor is the streams, one after the other;
* `ChannelStreams.threadBytes_eq` : each thread reads the stream of its channel.
-/

namespace FairCache.CacheGen

open Lib

/-! ## Packing -/

/-- `collect_bytes`. -/
def collectBytes {nlayers nchannels outputBufferSize : ℕ}
    (outputBuffer : Vector (Vector (Vector UInt8 outputBufferSize) nchannels) nlayers)
    (outputLengths : Vector (Vector ℕ nchannels) nlayers) : Except PyError Bytes :=
  let flattenedLengths := outputLengths.flatten.toList
  let flattenedBuffer := outputBuffer.flatten.flatten.toList
  let summedLength := (cumsum (flattenedLengths.map fun n : ℕ => (outputBufferSize : ℤ) - n)).rotateRight 1
  -- `summed_length[0] = 0`
  if summedLength = [] then .error .indexError
  else
    let indexes := repeatInterleave (summedLength.set 0 0) flattenedLengths
    (addArange 0 indexes).mapM fun i => (tensorGet? flattenedBuffer i).elim (.error .indexError) .ok

/-! ## Unpacking -/

/-- What an `int32_t` holds of an integer. -/
def int32 (x : ℤ) : ℤ := x.bmod (2 ^ 32)

theorem int32_of_lt {x : ℕ} (h : x < 2 ^ 31) : int32 x = x := by
  unfold int32
  rw [Int.bmod_eq_of_le_mul_two] <;> omega

/-- A read outside of a tensor on the device. -/
def illegalAccess : PyError := .runtimeError "CUDA error: an illegal memory access was encountered"

/-- A launch of `decode_prefix_with_accessor_kernel`: of its arguments the tensors that the streams are read from. -/
structure PrefixKernel where
  bytestreams : Bytes
  lengthsPrefix : List (List ℤ)
  blockSize : ℕ
  gridDimY : ℕ

namespace PrefixKernel

/-- `OUTPUT_BUFFER_LENGTH_PER_THREAD` of the decoder, with `MAX_LP = 64`. -/
def outputBufferLengthPerThread : ℕ :=
  if 256 ≤ maxSharedMemoryPerThread - 64 * 2 then 256 else maxSharedMemoryPerThread - 64 * 2

theorem outputBufferLengthPerThread_eq : outputBufferLengthPerThread = 256 := rfl

variable (k : PrefixKernel)

/-- `nchannels`. -/
def nchannels : ℕ := k.gridDimY * k.blockSize

/-- `sum_lengths_shared[i]`. -/
def sumLengthsShared (layerId globalChannelOffset i : ℕ) : Except PyError ℤ :=
  let gid := int32 (layerId * k.nchannels + globalChannelOffset + i - 1)
  if 0 ≤ gid then
    (k.lengthsPrefix[gid.toNat / k.nchannels]?.bind (·[gid.toNat % k.nchannels]?)).elim (.error illegalAccess)
      fun sum => .ok (int32 sum)
  else .ok 0

/-- `bytestreams[index]`. -/
def bytestream (index : ℤ) : Except PyError UInt8 :=
  if 0 ≤ index then k.bytestreams[index.toNat]?.elim (.error illegalAccess) .ok else .error illegalAccess

/-- `bytestreams_shared[i]`. -/
def bytestreamsShared (layerId globalChannelOffset i : ℕ) : Except PyError Bytes := do
  let startOffset ← k.sumLengthsShared layerId globalChannelOffset i
  let endOffset ← k.sumLengthsShared layerId globalChannelOffset (i + 1)
  let length := int32 (endOffset - startOffset)
  (List.range outputBufferLengthPerThread).mapM fun j : ℕ =>
    if (j : ℤ) < length then k.bytestream (int32 (startOffset + j)) else .ok 0

/-- The bytes that a thread decodes: `bytestreams_shared[local_channel_id]`. -/
def threadBytes (blockIdxX blockIdxY threadIdxX : ℕ) : Except PyError Bytes :=
  k.bytestreamsShared blockIdxX (blockIdxY * k.blockSize) threadIdxX

end PrefixKernel

/-- A tensor with more elements than an `int32_t` counts. -/
def numelError : PyError :=
  .runtimeError "numel needs to be smaller than int32_t max; otherwise, please use packed_accessor64"

/-- The check of `packed_accessor32`. -/
def packedAccessor32 (numel : ℕ) : Except PyError Unit :=
  if numel ≤ 2 ^ 31 - 1 then .ok () else .error numelError

/-- `decode_cuda_prefsum` with the block size that it takes, as far as the streams go. -/
def decodeCudaPrefsum (blockSize nlayers nchannels : ℕ) (bytestreams : Bytes) (lengthsPrefsum : List (List ℤ)) :
    Except PyError PrefixKernel := do
  if nchannels % blockSize ≠ 0 then
    throw (.runtimeError "Number of channels should be divisible by block size")
  packedAccessor32 bytestreams.length
  packedAccessor32 (nlayers * nchannels)
  return {
    bytestreams := bytestreams
    lengthsPrefix := lengthsPrefsum
    blockSize := blockSize
    gridDimY := nchannels / blockSize }

/-- `decode_chunk`. -/
def decodeChunk {nlayers nchannels : ℕ} (blockSize : ℕ) (bytesTensor : Bytes)
    (bytestreamLengths : Vector (Vector ℕ nchannels) nlayers) : Except PyError PrefixKernel :=
  let lengthPrefsum := chunks nchannels (cumsum (bytestreamLengths.flatten.toList.map Nat.cast))
  decodeCudaPrefsum blockSize nlayers nchannels bytesTensor lengthPrefsum

/-! ## The streams -/

/-- `output_buffer` and `output_lengths`, as the kernel of the encoder leaves them. -/
structure ChannelStreams (nlayers nchannels bufferSize : ℕ) where
  outputBuffer : Vector (Vector (Vector UInt8 bufferSize) nchannels) nlayers
  outputLengths : Vector (Vector ℕ nchannels) nlayers
  nlayers_pos : 0 < nlayers
  nchannels_pos : 0 < nchannels
  bufferSize_pos : 0 < bufferSize
  bufferSize_le : bufferSize ≤ 256
  length_le : ∀ lengths ∈ outputLengths, ∀ n ∈ lengths, n ≤ bufferSize

namespace ChannelStreams

variable {nlayers nchannels bufferSize : ℕ} (s : ChannelStreams nlayers nchannels bufferSize)

/-- The stream of each layer and channel: the used bytes of its row. -/
def streams : Vector (Vector Bytes nchannels) nlayers :=
  Vector.ofFn fun layer => Vector.ofFn fun channel =>
    (s.outputBuffer[layer][channel]).toList.take s.outputLengths[layer][channel]

/-- The rows with how many of their bytes are used, in the order of the flat tensors. -/
def rows : List (Bytes × ℕ) :=
  List.zip (s.outputBuffer.flatten.toList.map Vector.toList) s.outputLengths.flatten.toList

theorem map_fst_rows : s.rows.map (·.1) = s.outputBuffer.flatten.toList.map Vector.toList := by
  refine List.map_fst_zip ?_
  rw [List.length_map, Vector.length_toList, Vector.length_toList]

theorem map_snd_rows : s.rows.map (·.2) = s.outputLengths.flatten.toList := by
  refine List.map_snd_zip ?_
  rw [List.length_map, Vector.length_toList, Vector.length_toList]

theorem rows_spec : ∀ p ∈ s.rows, p.1.length = bufferSize ∧ p.2 ≤ bufferSize := by
  rintro ⟨row, n⟩ hp
  obtain ⟨hrow, hn⟩ := List.of_mem_zip hp
  obtain ⟨row, -, rfl⟩ := List.mem_map.mp hrow
  obtain ⟨lengths, hlengths, hn⟩ := Vector.mem_flatten.mp (Vector.mem_toList_iff.mp hn)
  exact ⟨row.length_toList, s.length_le lengths hlengths n hn⟩

theorem length_rows : s.rows.length = nlayers * nchannels := by
  rw [rows, List.length_zip, List.length_map, Vector.length_toList, Vector.length_toList, Nat.min_self]

theorem toList_flatten_streams : s.streams.flatten.toList = s.rows.map fun p => p.1.take p.2 := by
  have hlen : s.streams.flatten.toList.length = (s.rows.map fun p => p.1.take p.2).length := by
    rw [Vector.length_toList, List.length_map, length_rows]
  refine List.ext_getElem hlen fun r hr _ => ?_
  simp [streams, rows]

/-- **The collected bytes are the streams, one after the other.** -/
theorem collectBytes_eq : collectBytes s.outputBuffer s.outputLengths = .ok s.streams.flatten.toList.flatten := by
  have hbuffer : s.outputBuffer.flatten.flatten.toList = (s.rows.map (·.1)).flatten := by
    rw [toList_flatten, s.map_fst_rows]
  have hunused : (s.outputLengths.flatten.toList.map fun n : ℕ => (bufferSize : ℤ) - n) =
      s.rows.map fun p => (bufferSize : ℤ) - p.2 := by
    rw [← s.map_snd_rows, List.map_map]
    rfl
  have hne : (s.rows.map fun p => (bufferSize : ℤ) - p.2) ≠ [] := by
    refine List.ne_nil_of_length_pos ?_
    rw [List.length_map, s.length_rows]
    exact Nat.mul_pos s.nlayers_pos s.nchannels_pos
  have hread := map_tensorGet?_rows s.rows_spec [] (Int.add_zero 0)
  unfold collectBytes
  dsimp only
  rw [hunused, hbuffer, if_neg (rotateRight_cumsum_ne_nil hne), set_rotateRight_cumsum hne, ← s.map_snd_rows,
    mapM_ok_iff, s.toList_flatten_streams]
  have hexcept := congrArg (List.map fun x : Option UInt8 => x.elim (.error PyError.indexError) Except.ok) hread
  rw [List.map_map, List.map_map] at hexcept
  exact hexcept

/-! ## What the threads read -/

theorem map_length_streams : s.streams.flatten.toList.map List.length = s.outputLengths.flatten.toList := by
  rw [s.toList_flatten_streams, List.map_map, ← s.map_snd_rows]
  refine List.map_congr_left fun p hp => ?_
  obtain ⟨hlen, hn⟩ := s.rows_spec p hp
  show (p.1.take p.2).length = p.2
  rw [List.length_take, hlen, Nat.min_eq_left hn]

/-- How many bytes the streams before a row have. -/
def start (row : ℕ) : ℕ := ((s.streams.flatten.toList.take row).map List.length).sum

/-- The kernel for the streams. -/
def kernel (blockSize : ℕ) : PrefixKernel where
  bytestreams := s.streams.flatten.toList.flatten
  lengthsPrefix := chunks nchannels (cumsum (s.outputLengths.flatten.toList.map Nat.cast))
  blockSize := blockSize
  gridDimY := nchannels / blockSize

theorem start_le (row : ℕ) : s.start row ≤ s.streams.flatten.toList.flatten.length := by
  rw [List.length_flatten]
  exact ((List.take_sublist row _).map List.length).sum_le_sum fun _ _ => Nat.zero_le _

theorem start_succ {row : ℕ} {stream : Bytes} (h : s.streams.flatten.toList[row]? = some stream) :
    s.start (row + 1) = s.start row + stream.length := by
  unfold start
  rw [List.take_add_one, h, Option.toList_some, List.map_append, List.sum_append, List.map_singleton,
    List.sum_singleton]

theorem length_stream_le {row : ℕ} {stream : Bytes} (h : s.streams.flatten.toList[row]? = some stream) :
    stream.length ≤ 256 := by
  obtain ⟨p, hp, rfl⟩ := List.mem_map.mp (s.toList_flatten_streams ▸ List.mem_of_getElem? h)
  exact ((List.length_take_le _ _).trans (s.rows_spec p hp).2).trans s.bufferSize_le

theorem getElem?_streams (layer : Fin nlayers) (channel : Fin nchannels) :
    s.streams.flatten.toList[layer * nchannels + channel]? = some s.streams[layer][channel] := by
  have hrow : (layer : ℕ) * nchannels + channel < nlayers * nchannels :=
    Nat.lt_of_lt_of_le (Nat.add_lt_add_left channel.isLt _)
      (by rw [← Nat.succ_mul]; exact Nat.mul_le_mul_right _ layer.isLt)
  have hdiv : ((layer : ℕ) * nchannels + channel) / nchannels = layer := by
    rw [Nat.mul_comm, Nat.mul_add_div s.nchannels_pos, Nat.div_eq_of_lt channel.isLt, Nat.add_zero]
  have hmod : ((layer : ℕ) * nchannels + channel) % nchannels = channel := Nat.mul_add_mod_of_lt channel.isLt
  rw [Vector.getElem?_toList, Vector.getElem?_flatten, dif_pos hrow]
  simp only [hdiv, hmod]
  rfl

theorem nchannels_kernel {blockSize : ℕ} (hblock : blockSize ∣ nchannels) :
    (s.kernel blockSize).nchannels = nchannels := Nat.div_mul_cancel hblock

/-- The entries that a block copies, across the layers: how many bytes there are before a row. -/
theorem sumLengthsShared_eq {blockSize : ℕ} (hblock : blockSize ∣ nchannels) (hrows : nlayers * nchannels < 2 ^ 31)
    {layerId globalChannelOffset i row : ℕ} (hrow : layerId * nchannels + globalChannelOffset + i = row)
    (hle : row ≤ nlayers * nchannels) :
    (s.kernel blockSize).sumLengthsShared layerId globalChannelOffset i = .ok (int32 (s.start row)) := by
  have hgid : (layerId * nchannels + globalChannelOffset + i - 1 : ℤ) = row - 1 := by
    rw [← hrow]
    push_cast
    rfl
  unfold PrefixKernel.sumLengthsShared
  rw [s.nchannels_kernel hblock, hgid]
  cases row with
  | zero =>
    have hstart : s.start 0 = 0 := rfl
    rw [hstart]
    rfl
  | succ g =>
    have hg : int32 ((g + 1 : ℕ) - 1 : ℤ) = g := by
      rw [Nat.cast_succ, Int.add_sub_cancel]
      exact int32_of_lt (by omega)
    have hlt : g < s.outputLengths.flatten.toList.length := by
      rw [Vector.length_toList]
      omega
    dsimp only
    rw [hg, if_pos (Int.natCast_nonneg g), Int.toNat_natCast]
    show ((chunks nchannels _)[g / nchannels]?.bind _).elim _ _ = _
    rw [getElem?_chunks_div s.nchannels_pos, getElem?_cumsum_natCast hlt, ← s.map_length_streams, ← List.map_take]
    rfl

section Threads
variable {blockSize : ℕ} (hblock : blockSize ∣ nchannels) (hrows : nlayers * nchannels < 2 ^ 31)
  (hbytes : s.streams.flatten.toList.flatten.length < 2 ^ 31)
include hbytes

theorem int32_start (row : ℕ) : int32 (s.start row) = s.start row :=
  int32_of_lt ((s.start_le row).trans_lt hbytes)

theorem bytestream_eq {row : ℕ} {stream : Bytes} (hstream : s.streams.flatten.toList[row]? = some stream) {j : ℕ}
    (hj : j < stream.length) :
    (s.kernel blockSize).bytestream (int32 ((s.start row : ℤ) + j)) = .ok (stream[j]?.getD 0) := by
  have hend := s.start_le (row + 1)
  rw [s.start_succ hstream] at hend
  have hread : s.streams.flatten.toList.flatten[s.start row + j]? = stream[j]? := getElem?_flatten_take hstream hj
  rw [List.getElem?_eq_getElem hj] at hread
  unfold PrefixKernel.bytestream
  rw [← Nat.cast_add, int32_of_lt (by omega), if_pos (Int.natCast_nonneg _), Int.toNat_natCast]
  show s.streams.flatten.toList.flatten[s.start row + j]?.elim _ _ = _
  rw [hread, List.getElem?_eq_getElem hj]
  rfl

include hblock hrows

theorem bytestreamsShared_eq {layerId globalChannelOffset i row : ℕ}
    (hrow : layerId * nchannels + globalChannelOffset + i = row) {stream : Bytes}
    (hstream : s.streams.flatten.toList[row]? = some stream) :
    (s.kernel blockSize).bytestreamsShared layerId globalChannelOffset i = .ok (stream.rightpad 256 0) := by
  obtain ⟨hlt, hget⟩ := List.getElem?_eq_some_iff.mp hstream
  rw [Vector.length_toList] at hlt
  have hstart := s.sumLengthsShared_eq hblock hrows hrow hlt.le
  have hend : (s.kernel blockSize).sumLengthsShared layerId globalChannelOffset (i + 1) =
      .ok (int32 (s.start (row + 1))) :=
    s.sumLengthsShared_eq hblock hrows (by omega) (Nat.succ_le_of_lt hlt)
  have hlength := s.start_succ hstream
  have hlast := s.start_le (row + 1)
  have hsub : int32 ((s.start (row + 1) : ℤ) - s.start row) = stream.length := by
    rw [hlength, Nat.cast_add, add_sub_cancel_left]
    exact int32_of_lt (by omega)
  have hle : stream.length ≤ 256 := s.length_stream_le hstream
  unfold PrefixKernel.bytestreamsShared
  rw [hstart, hend, s.int32_start hbytes, s.int32_start hbytes]
  dsimp only [bind, Except.bind]
  rw [hsub, mapM_ok_iff, ← map_range_getD 0 hle, List.map_map, PrefixKernel.outputBufferLengthPerThread_eq]
  refine List.map_congr_left fun j _ => ?_
  split_ifs with hj
  · exact s.bytestream_eq hbytes hstream (Nat.cast_lt.mp hj)
  · rw [Function.comp_apply, List.getElem?_eq_none (Nat.not_lt.mp fun h => hj (Nat.cast_lt.mpr h))]
    rfl

/-- **The thread of a channel reads its stream, and zeros after it.** -/
theorem threadBytes_eq (layer : Fin nlayers) (channel : Fin nchannels) :
    (s.kernel blockSize).threadBytes layer (channel / blockSize) (channel % blockSize) =
      .ok (s.streams[layer][channel].rightpad 256 0) := by
  refine s.bytestreamsShared_eq hblock hrows hbytes ?_ (s.getElem?_streams layer channel)
  rw [Nat.add_assoc]
  exact congrArg _ (Nat.div_add_mod' channel blockSize)

end Threads

/-- The kernel is launched unless there are too many bytes or rows for its accessors. -/
theorem decodeChunk_eq {blockSize : ℕ} (hblock : blockSize ∣ nchannels) :
    decodeChunk blockSize s.streams.flatten.toList.flatten s.outputLengths =
      if nlayers * nchannels < 2 ^ 31 ∧ s.streams.flatten.toList.flatten.length < 2 ^ 31 then .ok (s.kernel blockSize)
      else .error numelError := by
  have hmod : ¬ nchannels % blockSize ≠ 0 := not_not.mpr (Nat.mod_eq_zero_of_dvd hblock)
  unfold decodeChunk decodeCudaPrefsum packedAccessor32
  rw [if_neg hmod]
  split_ifs <;> first | rfl | omega

end ChannelStreams

/-- Two layers of four channels with empty rows, also at the ends of a layer. -/
def unevenStreams : ChannelStreams 2 4 3 where
  outputBuffer := #v[#v[#v[1, 2, 3], #v[4, 5, 6], #v[7, 8, 9], #v[10, 11, 12]],
    #v[#v[21, 22, 23], #v[24, 25, 26], #v[27, 28, 29], #v[30, 31, 32]]]
  outputLengths := #v[#v[1, 0, 3, 0], #v[0, 2, 3, 1]]
  nlayers_pos := Nat.two_pos
  nchannels_pos := by decide
  bufferSize_pos := by decide
  bufferSize_le := by decide
  length_le := by decide

/-- Rows that are all in use. -/
def fullStreams : ChannelStreams 64 (2 ^ 18) 256 where
  outputBuffer := Vector.replicate 64 (Vector.replicate (2 ^ 18) (Vector.replicate 256 0))
  outputLengths := Vector.replicate 64 (Vector.replicate (2 ^ 18) 256)
  nlayers_pos := by decide
  nchannels_pos := by decide
  bufferSize_pos := by decide
  bufferSize_le := by decide
  length_le := by
    intro lengths hlengths n hn
    rw [Vector.eq_of_mem_replicate hlengths] at hn
    exact (Vector.eq_of_mem_replicate hn).le

theorem fullStreams_start {row : ℕ} (h : row ≤ 2 ^ 24) : fullStreams.start row = row * 256 := by
  unfold ChannelStreams.start
  rw [List.map_take, fullStreams.map_length_streams]
  show (List.take row (Vector.replicate 64 (Vector.replicate (2 ^ 18) 256)).flatten.toList).sum = _
  rw [toList_flatten, Vector.toList_replicate, List.map_replicate, Vector.toList_replicate,
    List.flatten_replicate_replicate, List.take_replicate, List.sum_replicate, Nat.min_eq_left (by omega), smul_eq_mul]

theorem fullStreams_length : fullStreams.streams.flatten.toList.flatten.length = 2 ^ 32 := by
  have hall := fullStreams_start (Nat.le_refl (2 ^ 24))
  unfold ChannelStreams.start at hall
  rw [List.take_of_length_le (by rw [Vector.length_toList]; omega)] at hall
  rw [List.length_flatten, hall]
  rfl

/-- The bytes before the first row of layer 32 are not counted by an `int32_t`. -/
theorem fullStreams_sumLengthsShared :
    (fullStreams.kernel 128).sumLengthsShared 32 0 0 = .ok (-2 ^ 31) ∧
      (fullStreams.kernel 128).sumLengthsShared 32 0 1 = .ok (-2 ^ 31 + 256) := by
  have hblock : 128 ∣ 2 ^ 18 := by decide
  have hrows : 64 * 2 ^ 18 < 2 ^ 31 := by decide
  have hrow : 32 * 2 ^ 18 + 0 + 0 = 2 ^ 23 := by decide
  have hrow' : 32 * 2 ^ 18 + 0 + 1 = 2 ^ 23 + 1 := by decide
  rw [fullStreams.sumLengthsShared_eq hblock hrows hrow (by decide), fullStreams_start (by decide),
    fullStreams.sumLengthsShared_eq hblock hrows hrow' (by decide), fullStreams_start (by decide)]
  exact ⟨rfl, rfl⟩

end FairCache.CacheGen
