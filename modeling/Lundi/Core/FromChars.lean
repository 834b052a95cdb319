import Lundi.Core.Bytes
import Lundi.Lib.Decimal
import Mathlib.Data.Int.Notation
import Mathlib.Data.List.TakeWhile

/-!
# `std::from_chars`

The integer parser reads the longest prefix that is a decimal number, without skipping blanks and
without accepting a plus sign. It reports `errc::invalid_argument` when there is no such prefix
and `errc::result_out_of_range` when the number does not fit the type; otherwise it returns the
value and the number of characters it consumed, which the caller may or may not compare with the
length of the input.
-/

namespace Lundi

open Decimal

/-- The errors `std::from_chars` reports. -/
inductive Errc
  | invalidArgument
  | resultOutOfRange
  deriving DecidableEq

/-- `std::from_chars` into a `size_t`: the value and the number of characters consumed. -/
def fromCharsSize (s : Bytes) : Except Errc (ℕ × ℕ) :=
  let digits := s.takeWhile isDigit
  if digits = [] then .error .invalidArgument
  else if value digits < 2 ^ 64 then .ok (value digits, digits.length)
  else .error .resultOutOfRange

/-- `std::from_chars` into an `int`: the value and the number of characters consumed. -/
def fromCharsInt (s : Bytes) : Except Errc (ℤ × ℕ) :=
  let negative := s.head? = some 45
  let digits := (if negative then s.drop 1 else s).takeWhile isDigit
  let magnitude : ℤ := value digits
  let val := if negative then -magnitude else magnitude
  if digits = [] then .error .invalidArgument
  else if -2 ^ 31 ≤ val ∧ val < 2 ^ 31 then
    .ok (val, digits.length + if negative then 1 else 0)
  else .error .resultOutOfRange

/-- Without a leading digit nothing is read. -/
theorem fromCharsSize_of_not_digit {s : Bytes} (h : ∀ b ∈ s.head?, isDigit b = false) :
    fromCharsSize s = .error .invalidArgument := by
  have htake : s.takeWhile isDigit = [] := by
    cases s with
    | nil => rfl
    | cons b s => simp [h b (by simp)]
  simp [fromCharsSize, htake]

/-- A value made of digits only. -/
def IsNumeral (val : Bytes) : Prop := val ≠ [] ∧ ∀ b ∈ val, isDigit b = true

instance (val : Bytes) : Decidable (IsNumeral val) :=
  decidable_of_iff (val ≠ [] ∧ val.all isDigit = true) (by simp [IsNumeral])

theorem isNumeral_decimal (n : ℕ) : IsNumeral (decimal n) :=
  ⟨decimal_ne_nil n, fun _ hb => isDigit_of_mem_decimal hb⟩

/-- A numeral is read as a whole. -/
theorem fromCharsSize_of_isNumeral {val : Bytes} (h : IsNumeral val) :
    fromCharsSize val =
      if value val < 2 ^ 64 then .ok (value val, val.length) else .error .resultOutOfRange := by
  -- The longest prefix of digits is the whole value.
  have htake : val.takeWhile isDigit = val := by
    have hnil : ∀ b ∈ ([] : Bytes).head?, isDigit b = false := by simp
    have hwhole := takeWhile_isDigit_append h.2 hnil
    rwa [List.append_nil] at hwhole
  rw [fromCharsSize]
  simp only [htake, h.1, if_false]

/-- The decimal form of an `int`: digits, behind a minus sign or not, for a value of 32 bits. -/
def IsIntNumeral (val : Bytes) (n : ℤ) : Prop :=
  (IsNumeral val ∧ n = value val ∨ ∃ digits, val = 45 :: digits ∧ IsNumeral digits ∧
    n = -value digits) ∧ -2 ^ 31 ≤ n ∧ n < 2 ^ 31

/-- The numerals are the texts whose longest prefix of digits is not empty and reaches their
end. -/
theorem isNumeral_iff_takeWhile {s : Bytes} :
    IsNumeral s ↔ s.takeWhile isDigit ≠ [] ∧ (s.takeWhile isDigit).length = s.length := by
  constructor
  · rintro ⟨hne, hdigits⟩
    rw [List.takeWhile_eq_self_iff.mpr hdigits]
    exact ⟨hne, rfl⟩
  · rintro ⟨hne, hlen⟩
    have heq := (List.takeWhile_prefix isDigit).eq_of_length hlen
    rw [heq] at hne
    exact ⟨hne, List.takeWhile_eq_self_iff.mp heq⟩

/-- What is read when `digits` is the digit prefix behind a sign of length `sign`, and `val` the
value that the two stand for. -/
theorem readInt_eq_ok_iff {digits : Bytes} {val n : ℤ} {sign size : ℕ} :
    (if digits = [] then .error .invalidArgument
      else if -2 ^ 31 ≤ val ∧ val < 2 ^ 31 then .ok (val, digits.length + sign)
      else .error .resultOutOfRange : Except Errc (ℤ × ℕ)) = .ok (n, size) ↔
      digits ≠ [] ∧ n = val ∧ (-2 ^ 31 ≤ n ∧ n < 2 ^ 31) ∧ digits.length + sign = size := by
  by_cases hne : digits = []
  · simp [hne]
  · rw [if_neg hne]
    by_cases hrange : -2 ^ 31 ≤ val ∧ val < 2 ^ 31
    · rw [if_pos hrange, Except.ok.injEq, Prod.mk.injEq]
      constructor
      · rintro ⟨rfl, hsize⟩
        exact ⟨hne, rfl, hrange, hsize⟩
      · rintro ⟨-, rfl, -, hsize⟩
        exact ⟨rfl, hsize⟩
    · rw [if_neg hrange]
      refine iff_of_false (by simp) ?_
      rintro ⟨-, rfl, h, -⟩
      exact hrange h

/-- The parser reads a text to its end exactly when it is the decimal form of the value. -/
theorem fromCharsInt_eq_ok_iff {val : Bytes} {n : ℤ} :
    fromCharsInt val = .ok (n, val.length) ↔ IsIntNumeral val n := by
  by_cases hneg : val.head? = some 45
  · -- Behind the minus sign stands a number, and in front of it none.
    obtain ⟨digits, rfl⟩ := List.head?_eq_some_iff.mp hneg
    have hnot : ¬ IsNumeral (45 :: digits) := fun h =>
      absurd (h.2 45 List.mem_cons_self) (by decide)
    simp only [fromCharsInt, List.head?_cons, if_true, List.drop_succ_cons, List.drop_zero,
      readInt_eq_ok_iff, List.length_cons, Nat.add_right_cancel_iff]
    constructor
    · rintro ⟨hne, hval, hrange, hlen⟩
      have hnum : IsNumeral digits := isNumeral_iff_takeWhile.mpr ⟨hne, hlen⟩
      rw [List.takeWhile_eq_self_iff.mpr hnum.2] at hval
      exact ⟨Or.inr ⟨digits, rfl, hnum, hval⟩, hrange⟩
    · rintro ⟨⟨hnum, -⟩ | ⟨d, heq, hnum, hval⟩, hrange⟩
      · exact absurd hnum hnot
      · obtain rfl := (List.cons.inj heq).2
        obtain ⟨hne, hlen⟩ := isNumeral_iff_takeWhile.mp hnum
        refine ⟨hne, ?_, hrange, hlen⟩
        rw [hval, List.takeWhile_eq_self_iff.mpr hnum.2]
  · -- Without the sign the whole text is the number.
    have hnot : ∀ digits, val ≠ 45 :: digits := by
      rintro digits rfl
      exact hneg rfl
    simp only [fromCharsInt, hneg, if_false]
    rw [readInt_eq_ok_iff, Nat.add_zero]
    constructor
    · rintro ⟨hne, hval, hrange, hlen⟩
      have hnum : IsNumeral val := isNumeral_iff_takeWhile.mpr ⟨hne, hlen⟩
      rw [List.takeWhile_eq_self_iff.mpr hnum.2] at hval
      exact ⟨Or.inl ⟨hnum, hval⟩, hrange⟩
    · rintro ⟨⟨hnum, hval⟩ | ⟨d, heq, -⟩, hrange⟩
      · obtain ⟨hne, hlen⟩ := isNumeral_iff_takeWhile.mp hnum
        refine ⟨hne, ?_, hrange, hlen⟩
        rw [hval, List.takeWhile_eq_self_iff.mpr hnum.2]
      · exact absurd heq (hnot d)

end Lundi
