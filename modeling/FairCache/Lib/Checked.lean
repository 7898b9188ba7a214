import Mathlib.Algebra.Ring.Nat

/-!
# Machine arithmetic that reports an overflow

`Checked.add`, `Checked.sub`, `Checked.mul`, `Checked.narrow` : the operation on machine integers, or nothing where
the exact result does not fit. What they return is what the wrapping operation returns (`add_eq`, ..), and they return
it when the numbers are small enough (`add_ofNat`, ..).
-/

namespace FairCache.Lib.Checked

variable {w : ℕ}

def add (x y : BitVec w) : Option (BitVec w) := if x.toNat + y.toNat < 2 ^ w then some (x + y) else none

def sub (x y : BitVec w) : Option (BitVec w) := if y.toNat ≤ x.toNat then some (x - y) else none

def mul (x y : BitVec w) : Option (BitVec w) := if x.toNat * y.toNat < 2 ^ w then some (x * y) else none

/-- A conversion to a narrower type. -/
def narrow (v : ℕ) (x : BitVec w) : Option (BitVec v) := if x.toNat < 2 ^ v then some (x.setWidth v) else none

/-! ## The wrapping operations -/

theorem add_eq {x y z : BitVec w} (h : add x y = some z) : x + y = z := by
  unfold add at h
  split at h
  · exact Option.some.inj h
  · cases h

theorem sub_eq {x y z : BitVec w} (h : sub x y = some z) : x - y = z := by
  unfold sub at h
  split at h
  · exact Option.some.inj h
  · cases h

theorem mul_eq {x y z : BitVec w} (h : mul x y = some z) : x * y = z := by
  unfold mul at h
  split at h
  · exact Option.some.inj h
  · cases h

theorem narrow_eq {v : ℕ} {x : BitVec w} {z : BitVec v} (h : narrow v x = some z) : x.setWidth v = z := by
  unfold narrow at h
  split at h
  · exact Option.some.inj h
  · cases h

/-! ## Numbers that fit -/

theorem toNat_ofNat_of_lt {a : ℕ} (h : a < 2 ^ w) : (BitVec.ofNat w a).toNat = a := by
  rw [BitVec.toNat_ofNat, Nat.mod_eq_of_lt h]

theorem add_ofNat {a b : ℕ} (h : a + b < 2 ^ w) :
    add (BitVec.ofNat w a) (BitVec.ofNat w b) = some (BitVec.ofNat w (a + b)) := by
  have ha := toNat_ofNat_of_lt (show a < 2 ^ w by omega)
  have hb := toNat_ofNat_of_lt (show b < 2 ^ w by omega)
  rw [add, ha, hb, if_pos h, BitVec.ofNat_add]

theorem sub_ofNat {a b : ℕ} (ha : a < 2 ^ w) (h : b ≤ a) :
    sub (BitVec.ofNat w a) (BitVec.ofNat w b) = some (BitVec.ofNat w (a - b)) := by
  have hb := toNat_ofNat_of_lt (show b < 2 ^ w by omega)
  rw [sub, toNat_ofNat_of_lt ha, hb, if_pos h, BitVec.ofNat_sub_ofNat_of_le a b (by omega) h]

theorem mul_ofNat {a b : ℕ} (ha : a < 2 ^ w) (hb : b < 2 ^ w) (h : a * b < 2 ^ w) :
    mul (BitVec.ofNat w a) (BitVec.ofNat w b) = some (BitVec.ofNat w (a * b)) := by
  rw [mul, toNat_ofNat_of_lt ha, toNat_ofNat_of_lt hb, if_pos h, BitVec.ofNat_mul]

theorem narrow_ofNat {v a : ℕ} (hv : v ≤ w) (h : a < 2 ^ v) :
    narrow v (BitVec.ofNat w a) = some (BitVec.ofNat v a) := by
  have ha := toNat_ofNat_of_lt (Nat.lt_of_lt_of_le h (Nat.pow_le_pow_right (by omega) hv))
  rw [narrow, ha, if_pos h]
  congr 1
  apply BitVec.eq_of_toNat_eq
  rw [BitVec.toNat_setWidth, ha, BitVec.toNat_ofNat]

/-- A conversion to a wider type. -/
theorem setWidth_ofNat {v a : ℕ} (h : a < 2 ^ v) : (BitVec.ofNat v a).setWidth w = BitVec.ofNat w a := by
  apply BitVec.eq_of_toNat_eq
  rw [BitVec.toNat_setWidth, toNat_ofNat_of_lt h, BitVec.toNat_ofNat]

theorem div_ofNat {a b : ℕ} (ha : a < 2 ^ w) (hb : b < 2 ^ w) :
    BitVec.ofNat w a / BitVec.ofNat w b = BitVec.ofNat w (a / b) := by
  apply BitVec.eq_of_toNat_eq
  rw [BitVec.toNat_udiv, toNat_ofNat_of_lt ha, toNat_ofNat_of_lt hb,
    toNat_ofNat_of_lt (Nat.lt_of_le_of_lt (Nat.div_le_self a b) ha)]

end FairCache.Lib.Checked
