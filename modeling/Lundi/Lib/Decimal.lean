import Mathlib.Data.List.Basic
import Mathlib.Tactic.IntervalCases

/-!
# Decimal numerals as byte strings

`decimal n` is the numeral of `n` in ASCII digits without leading zeros, and `value` reads a
string of ASCII digits back. `value_decimal` is the round trip, and `takeWhile_isDigit_append`
says that a reader that takes the longest digit prefix sees exactly the numeral when a
non-digit, or nothing, follows it.
-/

namespace Decimal

/-- An ASCII decimal digit. -/
def isDigit (b : UInt8) : Bool := 48 ≤ b && b ≤ 57

/-- The number written by a string of digits, read behind the digits of `acc`. -/
def valueFrom (acc : ℕ) (ds : List UInt8) : ℕ :=
  ds.foldl (fun n d => n * 10 + (d.toNat - 48)) acc

/-- The number written by a string of digits. -/
def value (ds : List UInt8) : ℕ := valueFrom 0 ds

/-- The numeral of `n`, without leading zeros. -/
def decimal (n : ℕ) : List UInt8 :=
  (Nat.toDigits 10 n).map fun c => c.toNat.toUInt8

/-- The numeral of an integer, with a minus sign when it is negative. -/
def signedDecimal (n : ℤ) : List UInt8 :=
  if n < 0 then 45 :: decimal n.natAbs else decimal n.natAbs

theorem value_append_singleton (ds : List UInt8) (d : UInt8) :
    value (ds ++ [d]) = value ds * 10 + (d.toNat - 48) := by
  simp [value, valueFrom]

/-- The byte of a digit character is a digit with that value. -/
theorem digitChar_toUInt8 {d : ℕ} (hd : d < 10) :
    isDigit d.digitChar.toNat.toUInt8 = true ∧ d.digitChar.toNat.toUInt8.toNat - 48 = d := by
  interval_cases d <;> decide

/-- Reading a numeral gives the number it was made from. -/
@[simp]
theorem value_decimal (n : ℕ) : value (decimal n) = n := by
  induction n using Nat.strong_induction_on with
  | _ n ih =>
    rw [decimal, Nat.toDigits_eq_if (by omega)]
    split
    next hn => simpa [value, valueFrom] using (digitChar_toUInt8 hn).2
    next hn =>
      -- The last digit stands behind the numeral of the quotient.
      have hdiv : value (decimal (n / 10)) = n / 10 := ih _ (by omega)
      rw [List.map_append, List.map_cons, List.map_nil, value_append_singleton,
        (digitChar_toUInt8 (Nat.mod_lt n (by omega))).2]
      rw [decimal] at hdiv
      rw [hdiv]
      omega

/-- A numeral consists of digits. -/
theorem isDigit_of_mem_decimal {n : ℕ} {b : UInt8} (h : b ∈ decimal n) : isDigit b = true := by
  induction n using Nat.strong_induction_on with
  | _ n ih =>
    rw [decimal, Nat.toDigits_eq_if (by omega)] at h
    split at h
    next hn =>
      obtain rfl : b = n.digitChar.toNat.toUInt8 := by simpa using h
      exact (digitChar_toUInt8 hn).1
    next hn =>
      rw [List.map_append, List.mem_append] at h
      rcases h with h | h
      · exact ih (n / 10) (by omega) h
      · obtain rfl : b = (n % 10).digitChar.toNat.toUInt8 := by simpa using h
        exact (digitChar_toUInt8 (Nat.mod_lt n (by omega))).1

/-- A numeral of several digits has one more than that of the quotient. -/
theorem length_decimal {n : ℕ} :
    (decimal n).length = if n < 10 then 1 else (decimal (n / 10)).length + 1 := by
  rw [decimal, Nat.toDigits_eq_if (by omega)]
  split
  · rfl
  · simp [decimal]

/-- A numeral is not empty. -/
theorem decimal_ne_nil (n : ℕ) : decimal n ≠ [] := by
  rw [decimal, Nat.toDigits_eq_if (by omega)]
  split <;> simp

/-- Only the numeral of zero begins with a zero. -/
theorem head?_decimal_ne {n : ℕ} (h : n ≠ 0) : (decimal n).head? ≠ some 48 := by
  induction n using Nat.strong_induction_on with
  | _ n ih =>
    rw [decimal, Nat.toDigits_eq_if (by omega)]
    split
    next hn =>
      have hvalue := (digitChar_toUInt8 hn).2
      rw [List.map_cons, List.map_nil, List.head?_cons, Ne, Option.some_inj]
      intro hzero
      rw [hzero] at hvalue
      exact h hvalue.symm
    next hn =>
      -- The first digit is that of the quotient.
      have hdiv : (decimal (n / 10)).head? ≠ some 48 := ih _ (by omega) (by omega)
      have hne := decimal_ne_nil (n / 10)
      rw [decimal] at hdiv hne
      rwa [List.map_append, List.head?_append_of_ne_nil _ hne]

/-- The longest digit prefix of a digit string followed by a non-digit, or by nothing, is the
digit string. -/
theorem takeWhile_isDigit_append {ds rest : List UInt8} (hds : ∀ b ∈ ds, isDigit b = true)
    (hrest : ∀ b ∈ rest.head?, isDigit b = false) :
    (ds ++ rest).takeWhile isDigit = ds := by
  rw [List.takeWhile_append_of_pos hds]
  cases rest with
  | nil => simp
  | cons b rest => simp [hrest b (by simp)]

example : decimal 40 = [52, 48] := by decide

end Decimal
