import Mathlib.Algebra.Group.Int.Defs
import Mathlib.Data.List.Basic
import Mathlib.Data.List.DropRight
import Mathlib.Data.String.Basic

/-!
# Bytes and text

* `packInt`, `unpackInt` : a 32-bit integer in four little-endian bytes; `fit` : a field of fixed width;
* `encode`, `decode` : UTF-8; `decode_encode` : what was encoded is decoded;
* `ljust`, `strip`, `split`, `parseInt` : what `bytes.ljust`, `str.strip`, `str.split` and `int` do;
* `strip_append_spaces` : padding is stripped off again.
-/

namespace FairCache.Lib

/-- A string of bytes. -/
abbrev Bytes := List UInt8

namespace Bytes

/-! ## Integers -/

/-- `k` little-endian bytes. -/
def ofNat : ℕ → ℕ → Bytes
  | 0, _ => []
  | k + 1, n => UInt8.ofNat n :: ofNat k (n / 256)

/-- The number that the little-endian bytes spell. -/
def toNat (b : Bytes) : ℕ := b.foldr (fun x n => x.toNat + 256 * n) 0

@[simp] theorem length_ofNat (k n : ℕ) : (ofNat k n).length = k := by
  induction k generalizing n with
  | zero => rfl
  | succ k ih => rw [ofNat, List.length_cons, ih]

theorem toNat_ofNat (k n : ℕ) : toNat (ofNat k n) = n % 256 ^ k := by
  induction k generalizing n with
  | zero => rw [Nat.pow_zero, Nat.mod_one]; rfl
  | succ k ih =>
    have hcons : toNat (ofNat (k + 1) n) = (UInt8.ofNat n).toNat + 256 * toNat (ofNat k (n / 256)) := rfl
    rw [hcons, ih, UInt8.toNat_ofNat', Nat.pow_succ 256 k, Nat.mul_comm (256 ^ k) 256, Nat.mod_mul]

/-- An integer that a signed field of 32 bits holds. -/
def IsInt32 (n : ℤ) : Prop := -2 ^ 31 ≤ n ∧ n < 2 ^ 31

instance (n : ℤ) : Decidable (IsInt32 n) := inferInstanceAs (Decidable (_ ∧ _))

/-- `struct.pack("i", n)`. -/
def packInt (n : ℤ) : Bytes := ofNat 4 (n % 2 ^ 32).toNat

/-- `struct.unpack("i", b)`. -/
def unpackInt (b : Bytes) : ℤ := if toNat b < 2 ^ 31 then (toNat b : ℤ) else (toNat b : ℤ) - 2 ^ 32

@[simp] theorem length_packInt (n : ℤ) : (packInt n).length = 4 := length_ofNat 4 _

/-- **An integer that fits is read back.** -/
theorem unpackInt_packInt {n : ℤ} (h : IsInt32 n) : unpackInt (packInt n) = n := by
  unfold IsInt32 at h
  unfold unpackInt packInt
  rw [toNat_ofNat]
  omega

/-- A field of `n` bytes: cut, or filled up with zeros. -/
def fit (n : ℕ) (b : Bytes) : Bytes := b.take n ++ List.replicate (n - b.length) 0

@[simp] theorem length_fit (n : ℕ) (b : Bytes) : (fit n b).length = n := by
  rw [fit, List.length_append, List.length_take, List.length_replicate]
  omega

theorem fit_eq {n : ℕ} {b : Bytes} (h : b.length = n) : fit n b = b := by
  rw [fit, h, Nat.sub_self, List.take_of_length_le h.le]
  exact List.append_nil b

/-! ## Text -/

/-- `str.encode`. -/
def encode (s : List Char) : Bytes := s.flatMap String.utf8EncodeChar

/-- `bytes.decode`. -/
def decode (b : Bytes) : Option (List Char) := (ByteArray.mk b.toArray).utf8Decode?.map Array.toList

/-- Each character takes a byte at least. -/
theorem length_le_encode (s : List Char) : s.length ≤ (encode s).length := by
  induction s with
  | nil => exact Nat.le_refl _
  | cons c s ih =>
    have := c.utf8Size_pos
    unfold encode at *
    rw [List.flatMap_cons, List.length_append, String.length_utf8EncodeChar, List.length_cons]
    omega

theorem encode_append (s t : List Char) : encode (s ++ t) = encode s ++ encode t := List.flatMap_append

/-- **What was encoded is decoded.** -/
theorem decode_encode (s : List Char) : decode (encode s) = some s := by
  have hbytes : ByteArray.mk (encode s).toArray = s.utf8Encode := by
    apply ByteArray.ext
    rw [List.utf8Encode, List.data_toByteArray]
    rfl
  rw [decode, hbytes, List.utf8Decode?_utf8Encode]
  rfl

/-- `bytes.ljust(n)`. -/
def ljust (b : Bytes) (n : ℕ) : Bytes := b ++ List.replicate (n - b.length) 32

theorem length_ljust {b : Bytes} {n : ℕ} (h : b.length ≤ n) : (ljust b n).length = n := by
  rw [ljust, List.length_append, List.length_replicate]
  omega

/-- `str.isspace` of one character. -/
def isSpace (c : Char) : Bool :=
  let n := c.toNat
  (9 ≤ n && n ≤ 13) || (28 ≤ n && n ≤ 32) || n == 0x85 || n == 0xA0 || n == 0x1680 || (0x2000 ≤ n && n ≤ 0x200A) ||
    n == 0x2028 || n == 0x2029 || n == 0x202F || n == 0x205F || n == 0x3000

/-- `str.strip`. -/
def strip (s : List Char) : List Char := (s.dropWhile isSpace).rdropWhile isSpace

/-- **Padding is stripped off again.** -/
theorem strip_append_spaces (s : List Char) (n : ℕ) : strip (s ++ List.replicate n ' ') = strip s := by
  have hspace : ∀ c ∈ List.replicate n ' ', isSpace c = true := fun c hc => by
    rw [List.eq_of_mem_replicate hc]
    decide
  have hright : ∀ l : List Char, (l ++ List.replicate n ' ').rdropWhile isSpace = l.rdropWhile isSpace := by
    intro l
    unfold List.rdropWhile
    rw [List.reverse_append, List.dropWhile_append_of_pos]
    intro c hc
    exact hspace c (List.mem_reverse.mp hc)
  unfold strip
  rw [List.dropWhile_append]
  split_ifs with h
  · rw [List.isEmpty_iff] at h
    rw [h, List.dropWhile_eq_nil_iff.mpr hspace]
  · exact hright _

/-- Padding the bytes pads the text. -/
theorem ljust_encode (s : List Char) (n : ℕ) :
    ljust (encode s) n = encode (s ++ List.replicate (n - (encode s).length) ' ') := by
  have hspaces : ∀ k, encode (List.replicate k ' ') = List.replicate k 32 := by
    intro k
    induction k with
    | zero => rfl
    | succ k ih =>
      rw [List.replicate_succ, List.replicate_succ, ← ih]
      rfl
  rw [encode_append, hspaces]
  rfl

/-- The text in a field that is wide enough. -/
theorem decode_fit_ljust {s : List Char} {n : ℕ} (h : (encode s).length ≤ n) :
    decode (fit n (ljust (encode s) n)) = some (s ++ List.replicate (n - (encode s).length) ' ') := by
  rw [fit_eq (length_ljust h), ljust_encode, decode_encode]

/-- A text that fits its field is read back from it. -/
theorem decode_field {s : List Char} {n : ℕ} (h : (encode s).length ≤ n) (hstrip : strip s = s) :
    (decode (fit n (ljust (encode s) n))).map strip = some s := by
  rw [decode_fit_ljust h, Option.map_some, strip_append_spaces, hstrip]

/-- `str.split` at one character. -/
def split (sep : Char) (s : List Char) : List (List Char) := s.splitOn sep

/-- The zeros of the blocks of ten decimal digits. -/
def decimalZeros : List ℕ :=
  [0x0030, 0x0660, 0x06F0, 0x07C0, 0x0966, 0x09E6, 0x0A66, 0x0AE6, 0x0B66, 0x0BE6, 0x0C66, 0x0CE6, 0x0D66, 0x0DE6, 0x0E50,
    0x0ED0, 0x0F20, 0x1040, 0x1090, 0x17E0, 0x1810, 0x1946, 0x19D0, 0x1A80, 0x1A90, 0x1B50, 0x1BB0, 0x1C40, 0x1C50, 0xA620,
    0xA8D0, 0xA900, 0xA9D0, 0xA9F0, 0xAA50, 0xABF0, 0xFF10, 0x104A0, 0x10D30, 0x11066, 0x110F0, 0x11136, 0x111D0, 0x112F0,
    0x11450, 0x114D0, 0x11650, 0x116C0, 0x11730, 0x118E0, 0x11950, 0x11C50, 0x11D50, 0x11DA0, 0x11F50, 0x16A60, 0x16AC0,
    0x16B50, 0x1D7CE, 0x1D7D8, 0x1D7E2, 0x1D7EC, 0x1D7F6, 0x1E140, 0x1E2F0, 0x1E4F0, 0x1E950, 0x1FBF0]

/-- `unicodedata.decimal`. -/
def digitValue (c : Char) : Option ℕ :=
  (decimalZeros.find? fun z => z ≤ c.toNat && c.toNat < z + 10).map fun z => c.toNat - z

/-- The digits after the first, with single underscores between them. -/
def parseDigits (n : ℕ) : List Char → Option ℕ
  | [] => some n
  | '_' :: c :: s => (digitValue c).bind fun d => parseDigits (10 * n + d) s
  | c :: s => (digitValue c).bind fun d => parseDigits (10 * n + d) s

/-- An unsigned decimal numeral. -/
def parseNat : List Char → Option ℕ
  | [] => none
  | c :: s => (digitValue c).bind fun d => parseDigits d s

/-- `int(s)`. -/
def parseInt (s : List Char) : Option ℤ :=
  match strip s with
  | '+' :: s => (parseNat s).map fun n => (n : ℤ)
  | '-' :: s => (parseNat s).map fun n => -(n : ℤ)
  | s => (parseNat s).map fun n => (n : ℤ)

end Bytes

end FairCache.Lib
