import FairCache.Lib.Bytes
import Mathlib.Tactic.Ring

/-!
# Bits, the most significant one first

* `Bits.toNat`, `Bits.ofNat n` : the number that bits write, and the `n` low bits of a number;
* `Bits.ofBytes` : the bits of bytes; `Bits.ofStream` : those of a stream of bytes;
* `Bits.window f n` : the number that the first `n` bits of a stream write.
-/

namespace FairCache.Lib.Bits

/-! ## Numbers -/

/-- The number that the bits write. -/
def toNat (bs : List Bool) : ℕ := bs.foldl (fun n b => 2 * n + b.toNat) 0

/-- The `n` low bits of a number. -/
def ofNat : ℕ → ℕ → List Bool
  | 0, _ => []
  | n + 1, x => ofNat n (x / 2) ++ [x.testBit 0]

@[simp] theorem toNat_nil : toNat [] = 0 := rfl

theorem toNat_concat (bs : List Bool) (b : Bool) : toNat (bs ++ [b]) = 2 * toNat bs + b.toNat := by
  unfold toNat
  rw [List.foldl_append]
  rfl

theorem toNat_append (as bs : List Bool) : toNat (as ++ bs) = toNat as * 2 ^ bs.length + toNat bs := by
  induction bs using List.reverseRecOn with
  | nil => simp
  | append_singleton bs b ih =>
    rw [← List.append_assoc, toNat_concat, toNat_concat, ih, List.length_append, List.length_singleton, pow_succ]
    ring

theorem toNat_cons (b : Bool) (bs : List Bool) : toNat (b :: bs) = b.toNat * 2 ^ bs.length + toNat bs := by
  have hb : toNat [b] = b.toNat := by cases b <;> rfl
  have happ := toNat_append [b] bs
  rw [hb] at happ
  exact happ

theorem toNat_lt (bs : List Bool) : toNat bs < 2 ^ bs.length := by
  induction bs using List.reverseRecOn with
  | nil => decide
  | append_singleton bs b ih =>
    have hb : b.toNat ≤ 1 := b.toNat_le
    rw [toNat_concat, List.length_append, List.length_singleton, pow_succ]
    omega

@[simp] theorem toNat_replicate_false (n : ℕ) : toNat (List.replicate n false) = 0 := by
  induction n with
  | zero => rfl
  | succ n ih =>
    rw [List.replicate_succ', toNat_concat, ih]
    rfl

@[simp] theorem toNat_replicate_true (n : ℕ) : toNat (List.replicate n true) = 2 ^ n - 1 := by
  induction n with
  | zero => rfl
  | succ n ih =>
    have := Nat.two_pow_pos n
    rw [List.replicate_succ', toNat_concat, ih, pow_succ]
    show 2 * (2 ^ n - 1) + 1 = _
    omega

@[simp] theorem length_ofNat (n x : ℕ) : (ofNat n x).length = n := by
  induction n generalizing x with
  | zero => rfl
  | succ n ih => rw [ofNat, List.length_append, ih, List.length_singleton]

theorem getElem_ofNat (n x i : ℕ) (hi : i < (ofNat n x).length) : (ofNat n x)[i] = x.testBit (n - 1 - i) := by
  induction n generalizing x i with
  | zero => exact absurd hi (Nat.not_lt_zero i)
  | succ n ih =>
    rw [length_ofNat] at hi
    rcases Nat.lt_or_eq_of_le (Nat.le_of_lt_succ hi) with hlt | rfl
    · have hinit : i < (ofNat n (x / 2)).length := by
        rw [length_ofNat]
        exact hlt
      have hexp : n + 1 - 1 - i = n - 1 - i + 1 := by omega
      simp only [ofNat]
      rw [List.getElem_append_left hinit, ih (x / 2) i hinit, hexp, Nat.testBit_succ]
    · simp only [ofNat]
      rw [List.getElem_append_right (by rw [length_ofNat])]
      simp

/-- The low bits are determined bit by bit. -/
theorem ofNat_eq_iff {n x : ℕ} {bs : List Bool} (h : bs.length = n) :
    ofNat n x = bs ↔ ∀ i (hi : i < bs.length), x.testBit (n - 1 - i) = bs[i] := by
  constructor
  · rintro rfl i hi
    exact (getElem_ofNat n x i hi).symm
  · intro hbits
    apply List.ext_getElem
    · rw [length_ofNat, h]
    · intro i hi hi'
      rw [getElem_ofNat, hbits i hi']

theorem ofNat_add (m n x : ℕ) : ofNat (m + n) x = ofNat m (x / 2 ^ n) ++ ofNat n x := by
  induction n generalizing x with
  | zero => rw [Nat.add_zero, pow_zero, Nat.div_one, ofNat, List.append_nil]
  | succ n ih =>
    rw [← Nat.add_assoc, ofNat, ih, ofNat, List.append_assoc, Nat.div_div_eq_div_mul, ← pow_succ']

theorem ofNat_mod {n k : ℕ} (x : ℕ) (h : n ≤ k) : ofNat n (x % 2 ^ k) = ofNat n x := by
  rw [ofNat_eq_iff (length_ofNat n x)]
  intro i hi
  rw [getElem_ofNat, Nat.testBit_mod_two_pow]
  rw [length_ofNat] at hi
  rw [decide_eq_true (by omega), Bool.true_and]

theorem toNat_ofNat (n x : ℕ) : toNat (ofNat n x) = x % 2 ^ n := by
  induction n generalizing x with
  | zero => rw [pow_zero, Nat.mod_one]; rfl
  | succ n ih =>
    rw [ofNat, toNat_concat, ih, Nat.toNat_testBit, pow_zero, Nat.div_one, pow_succ', Nat.mod_mul]
    omega

/-! ## Bytes -/

/-- The bits of bytes. -/
def ofBytes (b : Bytes) : List Bool := b.flatMap fun x => ofNat 8 x.toNat

@[simp] theorem ofBytes_append (a b : Bytes) : ofBytes (a ++ b) = ofBytes a ++ ofBytes b := List.flatMap_append

theorem length_ofBytes (b : Bytes) : (ofBytes b).length = 8 * b.length := by
  induction b with
  | nil => rfl
  | cons x b ih =>
    show (ofNat 8 x.toNat ++ ofBytes b).length = _
    rw [List.length_append, length_ofNat, ih, List.length_cons]
    omega

/-! ## Streams -/

/-- The number that the first `n` bits of the stream write. -/
def window (f : ℕ → Bool) : ℕ → ℕ
  | 0 => 0
  | n + 1 => 2 * window f n + (f n).toNat

variable {f : ℕ → Bool}

/-- **A longer window, cut to its first bits, is the shorter one.** -/
theorem window_add_div (f : ℕ → Bool) (m n : ℕ) : window f (m + n) / 2 ^ n = window f m := by
  induction n with
  | zero => rw [Nat.add_zero, pow_zero, Nat.div_one]
  | succ n ih =>
    have hb : (f (m + n)).toNat ≤ 1 := (f (m + n)).toNat_le
    have hhalf : (2 * window f (m + n) + (f (m + n)).toNat) / 2 = window f (m + n) := by omega
    rw [← Nat.add_assoc, window, pow_succ', ← Nat.div_div_eq_div_mul, hhalf, ih]

/-- A stream that starts with some bits. -/
theorem window_of_prefix {bs : List Bool} (h : ∀ i (hi : i < bs.length), f i = bs[i]) : window f bs.length = toNat bs := by
  induction bs using List.reverseRecOn with
  | nil => rfl
  | append_singleton bs b ih =>
    have hlen : bs.length < (bs ++ [b]).length := by
      rw [List.length_append, List.length_singleton]
      omega
    have hlast := h bs.length hlen
    rw [List.getElem_concat_length rfl] at hlast
    have hinit : window f bs.length = toNat bs := by
      apply ih
      intro i hi
      rw [h i (hi.trans hlen), List.getElem_append_left hi]
    rw [List.length_append, List.length_singleton, window, hinit, hlast, toNat_concat]

/-- The bits of a stream of bytes. -/
def ofStream (stream : ℕ → UInt8) (i : ℕ) : Bool := (stream (i / 8)).toNat.testBit (7 - i % 8)

/-- **A stream that starts with some bytes starts with their bits.** -/
theorem ofStream_of_prefix {stream : ℕ → UInt8} {b : Bytes} (h : ∀ i (hi : i < b.length), stream i = b[i]) (i : ℕ)
    (hi : i < (ofBytes b).length) : ofStream stream i = (ofBytes b)[i] := by
  induction b generalizing stream i with
  | nil => exact absurd hi (Nat.not_lt_zero i)
  | cons x b ih =>
    have hsplit : ofBytes (x :: b) = ofNat 8 x.toNat ++ ofBytes b := rfl
    have hfirst : stream 0 = x := h 0 (Nat.zero_lt_succ _)
    simp only [hsplit]
    rcases Nat.lt_or_ge i 8 with hlt | hge
    · have hi' : i < (ofNat 8 x.toNat).length := by
        rw [length_ofNat]
        exact hlt
      rw [List.getElem_append_left hi', getElem_ofNat, ofStream, Nat.div_eq_of_lt hlt, Nat.mod_eq_of_lt hlt, hfirst]
    · have hi' : i - 8 < (ofBytes b).length := by
        rw [hsplit, List.length_append, length_ofNat] at hi
        omega
      have hrest : ofStream (fun i => stream (i + 1)) (i - 8) = (ofBytes b)[i - 8] :=
        ih (fun j hj => h (j + 1) (Nat.succ_lt_succ hj)) (i - 8) hi'
      rw [List.getElem_append_right (by rw [length_ofNat]; exact hge)]
      simp only [length_ofNat]
      rw [← hrest]
      show (stream (i / 8)).toNat.testBit (7 - i % 8) = (stream ((i - 8) / 8 + 1)).toNat.testBit (7 - (i - 8) % 8)
      have hdiv : (i - 8) / 8 + 1 = i / 8 := by omega
      have hmod : (i - 8) % 8 = i % 8 := by omega
      rw [hdiv, hmod]

end FairCache.Lib.Bits
