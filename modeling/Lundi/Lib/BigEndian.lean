import Mathlib.Algebra.Order.Ring.Nat
import Mathlib.Data.List.Induction
import Mathlib.Tactic.Ring

/-!
# Big-endian numbers

`bigEndian k n` is the `k`-byte big-endian representation of `n`, and `fromBigEndian` reads a byte
string back. `fromBigEndian_bigEndian` is the round trip for numbers that fit.
-/

namespace BigEndian

/-- The last `k` base-256 digits of `n`, most significant first. -/
def bigEndian : ℕ → ℕ → List UInt8
  | 0, _ => []
  | k + 1, n => bigEndian k (n / 256) ++ [UInt8.ofNat (n % 256)]

/-- The number a byte string represents. -/
def fromBigEndian (bytes : List UInt8) : ℕ := bytes.foldl (fun n b => n * 256 + b.toNat) 0

@[simp]
theorem length_bigEndian (k n : ℕ) : (bigEndian k n).length = k := by
  induction k generalizing n with
  | zero => rfl
  | succ k ih => simp [bigEndian, ih]

@[simp]
theorem fromBigEndian_append_singleton (bytes : List UInt8) (b : UInt8) :
    fromBigEndian (bytes ++ [b]) = fromBigEndian bytes * 256 + b.toNat := by
  simp [fromBigEndian]

/-- Each byte adds eight bits. -/
theorem fromBigEndian_lt (bytes : List UInt8) : fromBigEndian bytes < 256 ^ bytes.length := by
  induction bytes using List.reverseRecOn with
  | nil => decide
  | append_singleton bytes b ih =>
    have hb := b.toNat_lt
    rw [fromBigEndian_append_singleton, List.length_append, List.length_singleton, pow_succ]
    omega

/-- Reading back gives the number modulo the range of the representation. -/
theorem fromBigEndian_bigEndian_mod (k n : ℕ) :
    fromBigEndian (bigEndian k n) = n % 256 ^ k := by
  induction k generalizing n with
  | zero => rw [pow_zero, Nat.mod_one]; rfl
  | succ k ih =>
    have hlast : (UInt8.ofNat (n % 256)).toNat = n % 256 := by
      rw [UInt8.toNat_ofNat']
      omega
    rw [bigEndian, fromBigEndian_append_singleton, ih, hlast, pow_succ', Nat.mod_mul]
    ring

/-- A number that fits is read back. -/
theorem fromBigEndian_bigEndian {k n : ℕ} (h : n < 256 ^ k) :
    fromBigEndian (bigEndian k n) = n := by
  rw [fromBigEndian_bigEndian_mod, Nat.mod_eq_of_lt h]

end BigEndian
