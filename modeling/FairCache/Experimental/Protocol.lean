import FairCache.Experimental.Allocator
import FairCache.Key
import FairCache.Wire.Protocol

/-!
# The messages of the experimental cache server

The headers carry the format, the element type and the shape of the memory object as well.

* `TorchDtype`, `dtypeToInt`, `intToDtype` : the element types and their numbers;
* `ClientMetaMessage`, `ServerMetaMessage` : the headers, with `serialize` and `deserialize`.
-/

namespace FairCache.Experimental

open Lib

/-- The element types that have a number, and the rest. -/
inductive TorchDtype
  | float16
  | bfloat16
  | float32
  | float64
  | uint8
  | float8E4m3fn
  | float8E5m2
  | other
  deriving DecidableEq

/-- `DTYPE_TO_INT` : `torch.half` is `torch.float16`, and the later entry counts. -/
def dtypeToInt : Option TorchDtype → Except WireError ℤ
  | none => .ok 0
  | some .float16 => .ok 2
  | some .bfloat16 => .ok 3
  | some .float32 => .ok 4
  | some .float64 => .ok 5
  | some .uint8 => .ok 6
  | some .float8E4m3fn => .ok 7
  | some .float8E5m2 => .ok 8
  | some .other => .error .keyError

/-- `INT_TO_DTYPE`. -/
def intToDtype (n : ℤ) : Except WireError (Option TorchDtype) :=
  if n = 0 then .ok none
  else if n = 1 ∨ n = 2 then .ok (some .float16)
  else if n = 3 then .ok (some .bfloat16)
  else if n = 4 then .ok (some .float32)
  else if n = 5 then .ok (some .float64)
  else if n = 6 then .ok (some .uint8)
  else if n = 7 then .ok (some .float8E4m3fn)
  else if n = 8 then .ok (some .float8E5m2)
  else .error .keyError

theorem intToDtype_dtypeToInt {dtype : Option TorchDtype} {n : ℤ} (h : dtypeToInt dtype = .ok n) :
    intToDtype n = .ok dtype := by
  rcases dtype with _ | d
  · cases h
    rfl
  · cases d <;> cases h <;> rfl

/-- `MemoryFormat.value`. -/
def formatToInt : MemoryFormat → ℤ
  | .undefined => 0
  | .kvBlob => 1
  | .binary => 2
  | .binaryBuffer => 3

/-- `MemoryFormat(n)`. -/
def intToFormat (n : ℤ) : Except WireError MemoryFormat :=
  if n = 0 then .ok .undefined
  else if n = 1 then .ok .kvBlob
  else if n = 2 then .ok .binary
  else if n = 3 then .ok .binaryBuffer
  else .error .valueError

theorem intToFormat_formatToInt (fmt : MemoryFormat) : intToFormat (formatToInt fmt) = .ok fmt := by
  cases fmt <;> rfl

/-- What is packed of a memory object: its length, format, element type and shape. -/
structure ObjMeta where
  length : ℤ
  fmt : MemoryFormat
  dtype : Option TorchDtype
  shape : List ℤ
  deriving DecidableEq

namespace ObjMeta

/-- The integers of a message: a first one, and then those of the object. -/
def toInts (first : ℤ) (o : ObjMeta) : Except WireError (List ℤ) :=
  if o.shape.length = 4 then
    (dtypeToInt o.dtype).map fun dtype => [first, o.length, formatToInt o.fmt, dtype] ++ o.shape
  else .error .assertionError

/-- The object that the integers of a message describe. -/
def ofBytes (s : Bytes) : Except WireError ObjMeta := do
  let fmt ← intToFormat (intAt s 2)
  let dtype ← intToDtype (intAt s 3)
  pure { length := intAt s 1, fmt := fmt, dtype := dtype, shape := [intAt s 4, intAt s 5, intAt s 6, intAt s 7] }

/-- An object whose description fits its fields. -/
structure Fits (o : ObjMeta) : Prop where
  length : Bytes.IsInt32 o.length
  dtype : o.dtype ≠ some .other
  shape : ∀ n ∈ o.shape, Bytes.IsInt32 n
  dims : o.shape.length = 4

instance (o : ObjMeta) : Decidable o.Fits :=
  decidable_of_iff
    (Bytes.IsInt32 o.length ∧ o.dtype ≠ some .other ∧ (∀ n ∈ o.shape, Bytes.IsInt32 n) ∧ o.shape.length = 4)
    ⟨fun ⟨h₁, h₂, h₃, h₄⟩ => ⟨h₁, h₂, h₃, h₄⟩, fun h => ⟨h.length, h.dtype, h.shape, h.dims⟩⟩

theorem isInt32_dtypeToInt {dtype : Option TorchDtype} (h : dtype ≠ some .other) :
    ∃ n, dtypeToInt dtype = .ok n ∧ Bytes.IsInt32 n := by
  rcases dtype with _ | d
  · exact ⟨0, rfl, by decide⟩
  · cases d
    case other => exact absurd rfl h
    all_goals exact ⟨_, rfl, by decide⟩

theorem isInt32_formatToInt (fmt : MemoryFormat) : Bytes.IsInt32 (formatToInt fmt) := by
  cases fmt <;> decide

/-- **What fits is packed, and read back from the bytes.** -/
theorem Fits.ints {o : ObjMeta} (h : o.Fits) {first : ℤ} (hfirst : Bytes.IsInt32 first) :
    ∃ ns, toInts first o = .ok ns ∧ packInts ns = .ok (ns.flatMap Bytes.packInt) ∧ ns.length = 8 ∧
      ∀ rest, intAt (ns.flatMap Bytes.packInt ++ rest) 0 = first ∧
        ofBytes (ns.flatMap Bytes.packInt ++ rest) = .ok o := by
  obtain ⟨length, fmt, dtype, shape⟩ := o
  obtain ⟨hlength, hdtype, hshape, hdims⟩ := h
  dsimp only at hlength hdtype hshape hdims
  obtain ⟨a, b, c, d, rfl⟩ : ∃ a b c d, shape = [a, b, c, d] := by
    match shape, hdims with
    | [a, b, c, d], _ => exact ⟨a, b, c, d, rfl⟩
  obtain ⟨n, hn, hn32⟩ := isInt32_dtypeToInt hdtype
  have hns : ∀ m ∈ [first, length, formatToInt fmt, n, a, b, c, d], Bytes.IsInt32 m := by
    have hfmt := isInt32_formatToInt fmt
    simp only [List.forall_mem_cons] at hshape ⊢
    exact ⟨hfirst, hlength, hfmt, hn32, hshape⟩
  refine ⟨[first, length, formatToInt fmt, n, a, b, c, d], ?_, packInts_of_fit hns, rfl, fun rest => ?_⟩
  · rw [toInts, if_pos hdims, hn]
    rfl
  · have hget : ∀ i (hi : i < 8), intAt ([first, length, formatToInt fmt, n, a, b, c, d].flatMap Bytes.packInt ++ rest) i =
        [first, length, formatToInt fmt, n, a, b, c, d][i] := fun i hi => intAt_packedInts hns rest hi
    refine ⟨hget 0 (by decide), ?_⟩
    rw [ofBytes, hget 1 (by decide), hget 2 (by decide), hget 3 (by decide), hget 4 (by decide), hget 5 (by decide),
      hget 6 (by decide), hget 7 (by decide)]
    show (do
      let fmt ← intToFormat (formatToInt fmt)
      let dtype ← intToDtype n
      pure ({ length := length, fmt := fmt, dtype := dtype, shape := [a, b, c, d] } : ObjMeta)) = _
    rw [intToFormat_formatToInt, intToDtype_dtypeToInt hn]
    rfl

/-- What does not fit is not packed. -/
theorem fits_of_packed {o : ObjMeta} {first : ℤ} {b : Bytes} (h : (toInts first o).bind packInts = .ok b) : o.Fits := by
  obtain ⟨ns, hns, hb⟩ := bind_ok h
  unfold toInts at hns
  split_ifs at hns with hdims
  obtain ⟨n, hn, rfl⟩ := map_ok hns
  unfold packInts at hb
  split_ifs at hb with hfit
  have hdtype : o.dtype ≠ some .other := by
    intro hother
    rw [hother] at hn
    cases hn
  simp only [List.cons_append, List.nil_append, List.forall_mem_cons] at hfit
  exact ⟨hfit.2.1, hdtype, hfit.2.2.2.2, hdims⟩

end ObjMeta

/-- `ClientMetaMessage`. -/
structure ClientMetaMessage where
  command : ℤ
  key : CacheEngineKey
  obj : ObjMeta
  deriving DecidableEq

namespace ClientMetaMessage

/-- `packlength`. -/
def packlength : ℕ := 4 * 8 + Constants.maxKeyLength

/-- `serialize`. -/
def serialize (m : ClientMetaMessage) : Except WireError Bytes :=
  let keyStr := m.key.toString
  if keyStr.length ≤ Constants.maxKeyLength then
    ((ObjMeta.toInts m.command m.obj).bind packInts).map fun ints =>
      ints ++ Bytes.fit Constants.maxKeyLength (Bytes.ljust (Bytes.encode keyStr.toList) Constants.maxKeyLength)
  else .error .assertionError

/-- `deserialize`. -/
def deserialize (s : Bytes) : Except WireError ClientMetaMessage :=
  if s.length = packlength then
    match Bytes.decode (s.drop 32) with
    | none => .error .unicodeDecodeError
    | some key =>
      match CacheEngineKey.fromString (String.ofList (Bytes.strip key)) with
      | none => .error .valueError
      | some key => (ObjMeta.ofBytes s).map fun obj => { command := intAt s 0, key := key, obj := obj }
  else .error .structError

/-- A message that fits its fields, with a key that is read back from its text. -/
structure Fits (m : ClientMetaMessage) : Prop where
  command : Bytes.IsInt32 m.command
  obj : m.obj.Fits
  key : (Bytes.encode m.key.toString.toList).length ≤ Constants.maxKeyLength
  stripped : Bytes.strip m.key.toString.toList = m.key.toString.toList
  parsed : CacheEngineKey.fromString m.key.toString = some m.key

instance (m : ClientMetaMessage) : Decidable m.Fits :=
  decidable_of_iff
    (Bytes.IsInt32 m.command ∧ m.obj.Fits ∧ (Bytes.encode m.key.toString.toList).length ≤ Constants.maxKeyLength ∧
      Bytes.strip m.key.toString.toList = m.key.toString.toList ∧ CacheEngineKey.fromString m.key.toString = some m.key)
    ⟨fun ⟨h₁, h₂, h₃, h₄, h₅⟩ => ⟨h₁, h₂, h₃, h₄, h₅⟩, fun h => ⟨h.command, h.obj, h.key, h.stripped, h.parsed⟩⟩

/-- **A message that fits is packed, and read back.** -/
theorem Fits.packed {m : ClientMetaMessage} (h : m.Fits) :
    ∃ b, m.serialize = .ok b ∧ b.length = packlength ∧ deserialize b = .ok m := by
  obtain ⟨ns, hns, hpack, hlen, hread⟩ := h.obj.ints h.command
  have hints : (ns.flatMap Bytes.packInt).length = 32 := by
    rw [length_packedInts, hlen]
  have hkey := Bytes.decode_field h.key h.stripped
  obtain ⟨key, hdecode, hstrip⟩ := Option.map_eq_some_iff.mp hkey
  set field := Bytes.fit Constants.maxKeyLength (Bytes.ljust (Bytes.encode m.key.toString.toList) Constants.maxKeyLength)
  have hfield : field.length = Constants.maxKeyLength := Bytes.length_fit _ _
  obtain ⟨hcommand, hobj⟩ := hread field
  refine ⟨ns.flatMap Bytes.packInt ++ field, ?_, ?_, ?_⟩
  · have hchars : m.key.toString.length ≤ Constants.maxKeyLength := by
      rw [← String.length_toList]
      exact le_trans (Bytes.length_le_encode _) h.key
    unfold serialize
    rw [if_pos hchars, hns]
    show Except.map _ (packInts ns) = _
    rw [hpack]
    rfl
  · rw [List.length_append, hints, hfield]
    rfl
  · have htotal : (ns.flatMap Bytes.packInt ++ field).length = packlength := by
      rw [List.length_append, hints, hfield]
      rfl
    unfold deserialize
    rw [if_pos htotal, List.drop_left' hints, hdecode]
    dsimp only
    rw [hstrip, String.ofList_toList, h.parsed, hobj, hcommand]
    rfl

end ClientMetaMessage

/-- `ServerMetaMessage`. -/
structure ServerMetaMessage where
  code : ℤ
  obj : ObjMeta
  deriving DecidableEq

namespace ServerMetaMessage

/-- `packlength`. -/
def packlength : ℕ := 4 * 8

/-- `serialize`. -/
def serialize (m : ServerMetaMessage) : Except WireError Bytes := (ObjMeta.toInts m.code m.obj).bind packInts

/-- `deserialize`. -/
def deserialize (s : Bytes) : Except WireError ServerMetaMessage :=
  if s.length = packlength then (ObjMeta.ofBytes s).map fun obj => { code := intAt s 0, obj := obj }
  else .error .structError

theorem serialize_ok_iff {m : ServerMetaMessage} (hcode : Bytes.IsInt32 m.code) :
    (∃ b, m.serialize = .ok b) ↔ m.obj.Fits := by
  constructor
  · rintro ⟨b, hb⟩
    exact ObjMeta.fits_of_packed hb
  · intro h
    obtain ⟨ns, hns, hpack, -⟩ := h.ints hcode
    exact ⟨_, by rw [serialize, hns]; exact hpack⟩

/-- **A message that fits is read back.** -/
theorem deserialize_serialize {m : ServerMetaMessage} (hcode : Bytes.IsInt32 m.code) (h : m.obj.Fits) :
    m.serialize.bind deserialize = .ok m := by
  obtain ⟨ns, hns, hpack, hlen, hread⟩ := h.ints hcode
  obtain ⟨hfirst, hobj⟩ := hread []
  rw [List.append_nil] at hfirst hobj
  have hbytes : (ns.flatMap Bytes.packInt).length = packlength := by
    rw [length_packedInts, hlen]
    rfl
  rw [serialize, hns]
  show (packInts ns).bind deserialize = _
  rw [hpack]
  show deserialize _ = _
  rw [deserialize, if_pos hbytes, hfirst, hobj]
  rfl

end ServerMetaMessage

end FairCache.Experimental
