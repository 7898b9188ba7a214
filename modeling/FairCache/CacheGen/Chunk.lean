import FairCache.CacheGen.Bytestream
import FairCache.CacheGen.RoundTrip

/-!
# A batch of tokens, encoded and decoded

* `copyToRow`, `encodeFastNew` : the buffer and the lengths after the encoder's kernel, where the bytes of each channel
  fit its row;
* `PrefixKernel.threadSymbols` : what a thread of the decoder's kernel decodes;
* `threadSymbols_encodeFastNew` : the symbols of every layer and channel are found again, whatever the buffer held
  before.
-/

namespace FairCache.CacheGen

open Lib

/-- The first bytes of a row of `output_buffer` are overwritten. -/
def copyToRow {bufferSize : ℕ} (row : Vector UInt8 bufferSize) (bytes : Bytes) : Vector UInt8 bufferSize :=
  Vector.ofFn fun j => bytes[(j : ℕ)]?.getD (row.get j)

theorem getElem_copyToRow {bufferSize : ℕ} (row : Vector UInt8 bufferSize) (bytes : Bytes) {j : ℕ}
    (hj : j < bufferSize) : (copyToRow row bytes)[j] = bytes[j]?.getD row[j] := by
  unfold copyToRow
  exact Vector.getElem_ofFn _

theorem take_copyToRow {bufferSize : ℕ} (row : Vector UInt8 bufferSize) {bytes : Bytes}
    (h : bytes.length ≤ bufferSize) : (copyToRow row bytes).toList.take bytes.length = bytes := by
  refine List.ext_getElem ?_ fun j hj hj' => ?_
  · rw [List.length_take, Vector.length_toList, Nat.min_eq_left h]
  · rw [List.getElem_take, Vector.getElem_toList, getElem_copyToRow, List.getElem?_eq_getElem hj', Option.getD_some]

section Encoded
variable {nlayers nchannels bufferSize : ℕ}
  (outputBuffer : Vector (Vector (Vector UInt8 bufferSize) nchannels) nlayers)
  (bytes : Vector (Vector Bytes nchannels) nlayers)

/-- `encode_fast_new`, with the bytes that the threads of its kernel write. -/
def encodeFastNew (hlayers : 0 < nlayers) (hchannels : 0 < nchannels) (hsize : 0 < bufferSize) (hmax : bufferSize ≤ 256)
    (hfits : ∀ rows ∈ bytes, ∀ row ∈ rows, row.length ≤ bufferSize) : ChannelStreams nlayers nchannels bufferSize where
  outputBuffer := Vector.ofFn fun layer => Vector.ofFn fun channel =>
    copyToRow outputBuffer[layer][channel] bytes[layer][channel]
  outputLengths := bytes.map fun rows => rows.map List.length
  nlayers_pos := hlayers
  nchannels_pos := hchannels
  bufferSize_pos := hsize
  bufferSize_le := hmax
  length_le := by
    intro lengths hlengths n hn
    obtain ⟨rows, hrows, rfl⟩ := Vector.mem_map.mp hlengths
    obtain ⟨row, hrow, rfl⟩ := Vector.mem_map.mp hn
    exact hfits rows hrows row hrow

theorem streams_encodeFastNew {hlayers : 0 < nlayers} {hchannels : 0 < nchannels} {hsize : 0 < bufferSize}
    {hmax : bufferSize ≤ 256} {hfits : ∀ rows ∈ bytes, ∀ row ∈ rows, row.length ≤ bufferSize} :
    (encodeFastNew outputBuffer bytes hlayers hchannels hsize hmax hfits).streams = bytes := by
  refine Vector.ext fun layer hlayer => Vector.ext fun channel hchannel => ?_
  have hrow := hfits _ (Vector.getElem_mem hlayer) _ (Vector.getElem_mem hchannel)
  simp only [ChannelStreams.streams, encodeFastNew, Vector.getElem_ofFn, Fin.getElem_fin, Vector.getElem_map]
  exact take_copyToRow _ hrow

end Encoded

/-- What a thread decodes; behind its bytes there are others. -/
def PrefixKernel.threadSymbols (k : PrefixKernel) (cdf : Cdf) (fuel ntokens blockIdxX blockIdxY threadIdxX : ℕ)
    (behind : ℕ → UInt8) : Except PyError (Option (List ℕ)) := do
  let bytes ← k.threadBytes blockIdxX blockIdxY threadIdxX
  return decodePrefixWithAccessorKernel cdf (fun j => bytes[j]?.getD (behind j)) fuel ntokens

/-- A thread whose bytes are a code and zeros decodes the symbols. -/
theorem threadSymbols_eq {k : PrefixKernel} {cdf : Cdf} {syms : List ℕ} {fuel : ℕ} {bytes : Bytes}
    {blockIdxX blockIdxY threadIdxX : ℕ} (hsyms : ∀ sym ∈ syms, sym ≤ cdf.maxSymbol) (hfuel : 33 ≤ fuel)
    (hencode : encodeWithAccessorKernel cdf fuel syms = some bytes) (hlen : bytes.length ≤ 256)
    (hbytes : k.threadBytes blockIdxX blockIdxY threadIdxX = .ok (bytes.rightpad 256 0)) (behind : ℕ → UInt8) :
    k.threadSymbols cdf fuel syms.length blockIdxX blockIdxY threadIdxX behind = .ok (some syms) := by
  obtain ⟨σs, r, bytes', hencode', hcoded⟩ := encodeWithAccessorKernel_spec hsyms hfuel
  cases hencode.symm.trans hencode'
  have hstream : ∀ i (hi : i < bytes.length), ((bytes.rightpad 256 0)[i]?.getD (behind i)) = bytes[i] := by
    intro i hi
    rw [getElem?_rightpad 0 (hi.trans_le hlen), List.getElem?_eq_getElem hi]
    rfl
  unfold PrefixKernel.threadSymbols
  rw [hbytes]
  show Except.ok (decodePrefixWithAccessorKernel cdf _ fuel syms.length) = _
  rw [decodePrefix_of_coded hcoded hsyms hstream]

/-- **The symbols of every layer and channel are found again**, whatever the buffer held before. -/
theorem threadSymbols_encodeFastNew {nlayers nchannels bufferSize : ℕ} (hlayers : 0 < nlayers)
    (hchannels : 0 < nchannels) (hsize : 0 < bufferSize) (hmax : bufferSize ≤ 256)
    (outputBuffer : Vector (Vector (Vector UInt8 bufferSize) nchannels) nlayers)
    {cdf : Vector (Vector Cdf nchannels) nlayers} {encodeInput : Vector (Vector (List ℕ) nchannels) nlayers}
    {bytes : Vector (Vector Bytes nchannels) nlayers} {fuel : ℕ} (hfuel : 33 ≤ fuel)
    (hsyms : ∀ (layer : Fin nlayers) (channel : Fin nchannels),
      ∀ sym ∈ encodeInput[layer][channel], sym ≤ cdf[layer][channel].maxSymbol)
    (hencode : ∀ (layer : Fin nlayers) (channel : Fin nchannels),
      encodeWithAccessorKernel cdf[layer][channel] fuel encodeInput[layer][channel] = some bytes[layer][channel])
    (hfits : ∀ rows ∈ bytes, ∀ row ∈ rows, row.length ≤ bufferSize)
    (hrows : nlayers * nchannels < 2 ^ 31) (hbytes : bytes.flatten.toList.flatten.length < 2 ^ 31)
    {blockSize : ℕ} (hblock : blockSize ∣ nchannels) :
    let s := encodeFastNew outputBuffer bytes hlayers hchannels hsize hmax hfits
    ∃ packed k, collectBytes s.outputBuffer s.outputLengths = .ok packed ∧
      decodeChunk blockSize packed s.outputLengths = .ok k ∧
      ∀ (layer : Fin nlayers) (channel : Fin nchannels) (behind : ℕ → UInt8),
        k.threadSymbols cdf[layer][channel] fuel encodeInput[layer][channel].length layer (channel / blockSize)
          (channel % blockSize) behind = .ok (some encodeInput[layer][channel]) := by
  intro s
  have hstreams : s.streams = bytes := streams_encodeFastNew outputBuffer bytes
  have hlength : s.streams.flatten.toList.flatten.length < 2 ^ 31 := by rwa [hstreams]
  refine ⟨_, s.kernel blockSize, s.collectBytes_eq, ?_, fun layer channel behind => ?_⟩
  · rw [s.decodeChunk_eq hblock, if_pos ⟨hrows, hlength⟩]
  · have hread := s.threadBytes_eq hblock hrows hlength layer channel
    rw [hstreams] at hread
    have hrow := hfits _ (Vector.getElem_mem layer.isLt) _ (Vector.getElem_mem channel.isLt)
    exact threadSymbols_eq (hsyms layer channel) hfuel (hencode layer channel) (hrow.trans hmax) hread behind

end FairCache.CacheGen
