import Mathlib.Algebra.Group.Nat.Defs
import Mathlib.Data.Nat.Basic

/-!
# The set bits of a word, one by one

A loop over the set bits of a word takes the position of the lowest one with `BitVec.ctz` and clears
it by `x &&& (x - 1)`.

* `getLsbD_and_sub_one`: exactly the lowest set bit is cleared;
* `toNat_and_sub_one_lt`: the word gets smaller, so that the loop ends;
* `ctz_le_of_getLsbD`: no set bit is below the lowest one.
-/

namespace LowestBit

variable {w : ℕ} {x : BitVec w}

theorem ctz_le_of_getLsbD {i : ℕ} (h : x.getLsbD i = true) : x.ctz.toNat ≤ i := by
  by_contra hlt
  rw [BitVec.getLsbD_false_of_lt_ctz (Nat.not_le.mp hlt)] at h
  exact absurd h Bool.false_ne_true

/-- A word is cut behind its lowest set bit. -/
theorem toNat_eq (hx : x ≠ 0#w) :
    x.toNat = 2 ^ (x.ctz.toNat + 1) * (x.toNat / 2 ^ (x.ctz.toNat + 1)) + 2 ^ x.ctz.toNat := by
  have hmod : x.toNat % 2 ^ (x.ctz.toNat + 1) = 2 ^ x.ctz.toNat := by
    apply Nat.eq_of_testBit_eq
    intro i
    rw [Nat.testBit_mod_two_pow, Nat.testBit_two_pow, BitVec.testBit_toNat]
    rcases Nat.lt_trichotomy i x.ctz.toNat with hlt | rfl | hgt
    · rw [BitVec.getLsbD_false_of_lt_ctz hlt, Bool.and_false, eq_comm, decide_eq_false_iff_not]
      omega
    · rw [BitVec.getLsbD_true_ctz_of_ne_zero hx]
      simp
    · have hge : ¬ i < x.ctz.toNat + 1 := by omega
      have hne : x.ctz.toNat ≠ i := by omega
      simp [hge, hne]
  have hdiv := Nat.div_add_mod x.toNat (2 ^ (x.ctz.toNat + 1))
  rw [hmod] at hdiv
  exact hdiv.symm

theorem toNat_pos (hx : x ≠ 0#w) : 0 < x.toNat :=
  Nat.pos_of_ne_zero fun h => hx (BitVec.eq_of_toNat_eq (by simpa using h))

theorem toNat_sub_one (hx : x ≠ 0#w) : (x - 1#w).toNat = x.toNat - 1 := by
  have hpos := toNat_pos hx
  have hone : (1#w).toNat = 1 := by
    have hlt := x.isLt
    rw [BitVec.toNat_ofNat, Nat.mod_eq_of_lt (by omega)]
  rw [BitVec.toNat_sub_of_le (by rw [BitVec.le_def, hone]; exact hpos), hone]

/-- Exactly the lowest set bit is cleared. -/
theorem getLsbD_and_sub_one (hx : x ≠ 0#w) (i : ℕ) :
    (x &&& (x - 1#w)).getLsbD i = (x.getLsbD i && decide (i ≠ x.ctz.toNat)) := by
  have hcut := toNat_eq hx
  have hpos : 0 < 2 ^ x.ctz.toNat := Nat.two_pow_pos _
  -- One less has all bits below the lowest one set, and the same bits above it.
  have hless : (x - 1#w).toNat =
      2 ^ (x.ctz.toNat + 1) * (x.toNat / 2 ^ (x.ctz.toNat + 1)) + (2 ^ x.ctz.toNat - 1) := by
    rw [toNat_sub_one hx]
    omega
  rw [BitVec.getLsbD_and, ← BitVec.testBit_toNat (x := x - 1#w), hless,
    Nat.testBit_two_pow_mul_add _ (by rw [Nat.pow_succ]; omega)]
  rcases Nat.lt_trichotomy i x.ctz.toNat with hi | rfl | hi
  · rw [BitVec.getLsbD_false_of_lt_ctz hi, Bool.false_and, Bool.false_and]
  · simp [Nat.testBit_two_pow_sub_one]
  · have hge : ¬ i < x.ctz.toNat + 1 := by omega
    have hne : i ≠ x.ctz.toNat := by omega
    have hsame : x.getLsbD i =
        (x.toNat / 2 ^ (x.ctz.toNat + 1)).testBit (i - (x.ctz.toNat + 1)) := by
      rw [Nat.testBit_div_two_pow, Nat.sub_add_cancel (by omega), BitVec.testBit_toNat]
    rw [if_neg hge, ← hsame, Bool.and_self, decide_eq_true hne, Bool.and_true]

/-- The word gets smaller. -/
theorem toNat_and_sub_one_lt (hx : x ≠ 0#w) : (x &&& (x - 1#w)).toNat < x.toNat := by
  have hpos := toNat_pos hx
  have hle : (x &&& (x - 1#w)).toNat ≤ (x - 1#w).toNat := by
    rw [BitVec.toNat_and]
    exact Nat.and_le_right
  rw [toNat_sub_one hx] at hle
  omega

end LowestBit
