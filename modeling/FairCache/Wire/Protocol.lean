import FairCache.Basic
import FairCache.Lib.Framing

/-!
# The messages of the cache server

* `Constants` : commands and codes;
* `ClientMetaMessage`, `ServerMetaMessage` : the headers, with `serialize` and `deserialize`;
* `ClientMetaMessage.deserialize_serialize`, `ServerMetaMessage.deserialize_serialize` : what fits is read back.
-/

namespace FairCache

open Lib

/-- What a message cannot be packed into or read from. -/
inductive WireError
  | assertionError
  | structError
  | unicodeDecodeError
  | valueError
  | keyError
  deriving DecidableEq

namespace Constants

/-- `CLIENT_PUT`. -/
def clientPut : ℤ := 1
/-- `CLIENT_GET`. -/
def clientGet : ℤ := 2
/-- `CLIENT_EXIST`. -/
def clientExist : ℤ := 3
/-- `CLIENT_LIST`. -/
def clientList : ℤ := 4
/-- `SERVER_SUCCESS`. -/
def serverSuccess : ℤ := 200
/-- `SERVER_FAIL`. -/
def serverFail : ℤ := 400
/-- `MAX_KEY_LENGTH`. -/
def maxKeyLength : ℕ := 150

end Constants

/-- `struct.pack` of integers: each in four bytes, if all fit. -/
def packInts (ns : List ℤ) : Except WireError Bytes :=
  if ∀ n ∈ ns, Bytes.IsInt32 n then .ok (ns.flatMap Bytes.packInt) else .error .structError

/-- The `i`-th integer of a packed message. -/
def intAt (b : Bytes) (i : ℕ) : ℤ := Bytes.unpackInt ((b.drop (4 * i)).take 4)

theorem packInts_of_fit {ns : List ℤ} (h : ∀ n ∈ ns, Bytes.IsInt32 n) :
    packInts ns = .ok (ns.flatMap Bytes.packInt) := if_pos h

theorem length_packedInts (ns : List ℤ) : (ns.flatMap Bytes.packInt).length = 4 * ns.length := by
  induction ns with
  | nil => rfl
  | cons n ns ih =>
    rw [List.flatMap_cons, List.length_append, ih, Bytes.length_packInt, List.length_cons]
    omega

/-- **Each integer of a packed message is read back.** -/
theorem intAt_packedInts {ns : List ℤ} (h : ∀ n ∈ ns, Bytes.IsInt32 n) (rest : Bytes) {i : ℕ} (hi : i < ns.length) :
    intAt (ns.flatMap Bytes.packInt ++ rest) i = ns[i] := by
  induction ns generalizing i with
  | nil => exact absurd hi (Nat.not_lt_zero i)
  | cons n ns ih =>
    rw [List.forall_mem_cons] at h
    rw [List.flatMap_cons, List.append_assoc]
    cases i with
    | zero =>
      have htake : (Bytes.packInt n ++ (ns.flatMap Bytes.packInt ++ rest)).take 4 = Bytes.packInt n :=
        List.take_left' (Bytes.length_packInt n)
      rw [intAt, Nat.mul_zero, List.drop_zero, htake]
      exact Bytes.unpackInt_packInt h.1
    | succ i =>
      have hdrop : (Bytes.packInt n ++ (ns.flatMap Bytes.packInt ++ rest)).drop (4 * (i + 1)) =
          (ns.flatMap Bytes.packInt ++ rest).drop (4 * i) := by
        rw [List.drop_append, List.drop_of_length_le (by rw [Bytes.length_packInt]; omega), Bytes.length_packInt]
        rfl
      have hrest := ih h.2 (Nat.lt_of_succ_lt_succ hi)
      unfold intAt at hrest ⊢
      rw [hdrop]
      exact hrest

/-- `ClientMetaMessage`. -/
structure ClientMetaMessage where
  command : ℤ
  key : String
  length : ℤ
  deriving DecidableEq

namespace ClientMetaMessage

/-- `packlength`. -/
def packlength : ℕ := 4 * 2 + Constants.maxKeyLength

/-- `serialize`. -/
def serialize (m : ClientMetaMessage) : Except WireError Bytes :=
  if m.key.length ≤ Constants.maxKeyLength then
    (packInts [m.command, m.length]).map fun ints =>
      ints ++ Bytes.fit Constants.maxKeyLength (Bytes.ljust (Bytes.encode m.key.toList) Constants.maxKeyLength)
  else .error .assertionError

/-- `deserialize`. -/
def deserialize (s : Bytes) : Except WireError ClientMetaMessage :=
  if s.length = packlength then
    match Bytes.decode (s.drop 8) with
    | some key => .ok { command := intAt s 0, key := String.ofList (Bytes.strip key), length := intAt s 1 }
    | none => .error .unicodeDecodeError
  else .error .structError

/-- A message that fits its fields, with a key that `strip` leaves alone. -/
structure Fits (m : ClientMetaMessage) : Prop where
  command : Bytes.IsInt32 m.command
  length : Bytes.IsInt32 m.length
  key : (Bytes.encode m.key.toList).length ≤ Constants.maxKeyLength
  stripped : Bytes.strip m.key.toList = m.key.toList

instance (m : ClientMetaMessage) : Decidable m.Fits :=
  decidable_of_iff
    (Bytes.IsInt32 m.command ∧ Bytes.IsInt32 m.length ∧ (Bytes.encode m.key.toList).length ≤ Constants.maxKeyLength ∧
      Bytes.strip m.key.toList = m.key.toList)
    ⟨fun ⟨h₁, h₂, h₃, h₄⟩ => ⟨h₁, h₂, h₃, h₄⟩, fun h => ⟨h.command, h.length, h.key, h.stripped⟩⟩

/-- The bytes of a message that fits. -/
def packed (m : ClientMetaMessage) : Bytes :=
  [m.command, m.length].flatMap Bytes.packInt ++
    Bytes.fit Constants.maxKeyLength (Bytes.ljust (Bytes.encode m.key.toList) Constants.maxKeyLength)

theorem length_packed (m : ClientMetaMessage) : m.packed.length = packlength := by
  rw [packed, List.length_append, length_packedInts, Bytes.length_fit]
  rfl

variable {m : ClientMetaMessage}

theorem Fits.ints (h : m.Fits) : ∀ n ∈ [m.command, m.length], Bytes.IsInt32 n :=
  List.forall_mem_cons.mpr ⟨h.command, List.forall_mem_singleton.mpr h.length⟩

theorem serialize_of_fits (h : m.Fits) : m.serialize = .ok m.packed := by
  have hchars : m.key.length ≤ Constants.maxKeyLength := by
    rw [← String.length_toList]
    exact le_trans (Bytes.length_le_encode _) h.key
  rw [serialize, if_pos hchars, packInts_of_fit h.ints]
  rfl

/-- **A message that fits is read back.** -/
theorem deserialize_packed (h : m.Fits) : deserialize m.packed = .ok m := by
  have hdrop : m.packed.drop 8 =
      Bytes.fit Constants.maxKeyLength (Bytes.ljust (Bytes.encode m.key.toList) Constants.maxKeyLength) :=
    List.drop_left' (length_packedInts [m.command, m.length])
  have hkey := Bytes.decode_field h.key h.stripped
  rw [← hdrop] at hkey
  have hcommand : intAt m.packed 0 = m.command := intAt_packedInts h.ints _ Nat.zero_lt_two
  have hlength : intAt m.packed 1 = m.length := intAt_packedInts h.ints _ Nat.one_lt_two
  obtain ⟨key, hdecode, hstrip⟩ := Option.map_eq_some_iff.mp hkey
  rw [deserialize, if_pos m.length_packed, hdecode]
  dsimp only
  rw [hstrip, hcommand, hlength, String.ofList_toList]

theorem deserialize_serialize (h : m.Fits) : m.serialize.bind deserialize = .ok m := by
  rw [serialize_of_fits h]
  exact deserialize_packed h

end ClientMetaMessage

/-- `ServerMetaMessage`. -/
structure ServerMetaMessage where
  code : ℤ
  length : ℤ
  deriving DecidableEq

namespace ServerMetaMessage

/-- `packlength`. -/
def packlength : ℕ := 8

/-- `serialize`. -/
def serialize (m : ServerMetaMessage) : Except WireError Bytes := packInts [m.code, m.length]

/-- `deserialize`. -/
def deserialize (s : Bytes) : Except WireError ServerMetaMessage :=
  if s.length = packlength then .ok { code := intAt s 0, length := intAt s 1 } else .error .structError

/-- **A message that fits is read back.** -/
theorem deserialize_serialize {m : ServerMetaMessage} (hcode : Bytes.IsInt32 m.code) (hlength : Bytes.IsInt32 m.length) :
    m.serialize.bind deserialize = .ok m := by
  have h : ∀ n ∈ [m.code, m.length], Bytes.IsInt32 n :=
    List.forall_mem_cons.mpr ⟨hcode, List.forall_mem_singleton.mpr hlength⟩
  have hcode' := intAt_packedInts h [] Nat.zero_lt_two
  have hlength' := intAt_packedInts h [] Nat.one_lt_two
  rw [List.append_nil] at hcode' hlength'
  rw [serialize, packInts_of_fit h]
  have hlen : ([m.code, m.length].flatMap Bytes.packInt).length = packlength := length_packedInts _
  show deserialize _ = _
  rw [deserialize, if_pos hlen, hcode', hlength']
  rfl

end ServerMetaMessage

end FairCache
