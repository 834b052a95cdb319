import Mathlib.Algebra.Order.Ring.Int
import Mathlib.Data.List.Basic

/-!
# The Gregorian calendar

Days are numbered from the first of January of the year 0, in both directions, and a `CivilDate` is
a day that exists. `CivilDate.ofDayNumber` gives the day with a number.

* `locate` finds the part of a division into consecutive parts that a number falls into; months
  are located by it;
* `yearOf_spec` says that `yearOf` is the year a day falls into;
* `CivilDate.dayNumber_ofDayNumber` says that the day with a number has that number.
-/

namespace Calendar

/-! ### Consecutive parts -/

/-- The part that a number falls into, when parts of these lengths follow each other, and the place
in it. -/
def locate : List ℕ → ℕ → Option (ℕ × ℕ)
  | [], _ => none
  | l :: ls, n => if n < l then some (0, n) else (locate ls (n - l)).map fun p => (p.1 + 1, p.2)

theorem locate_eq_some_iff {ls : List ℕ} {n i r : ℕ} :
    locate ls n = some (i, r) ↔ (ls.take i).sum + r = n ∧ ∃ l, ls[i]? = some l ∧ r < l := by
  induction ls generalizing n i with
  | nil => simp [locate]
  | cons l ls ih =>
    rw [locate]
    cases i with
    | zero =>
      split
      next hlt =>
        simp only [Option.some.injEq, Prod.mk.injEq, true_and, List.take_zero, List.sum_nil,
          Nat.zero_add, List.getElem?_cons_zero, exists_eq_left']
        omega
      next hge =>
        simp only [Option.map_eq_some_iff, Prod.mk.injEq, Nat.add_eq_zero_iff, one_ne_zero,
          and_false, false_and, exists_false, List.take_zero, List.sum_nil, Nat.zero_add,
          List.getElem?_cons_zero, Option.some.injEq, exists_eq_left', false_iff, not_and]
        omega
    | succ i =>
      rw [List.take_succ_cons, List.sum_cons, List.getElem?_cons_succ]
      split
      next hlt =>
        refine iff_of_false (by simp) fun h => ?_
        have := h.1
        omega
      next hge =>
        -- The place in the rest is the place behind the first part.
        have hrest : (locate ls (n - l)).map (fun p => (p.1 + 1, p.2)) = some (i + 1, r) ↔
            locate ls (n - l) = some (i, r) := by
          simp [Option.map_eq_some_iff]
        rw [hrest, ih]
        refine and_congr_left fun _ => ?_
        omega

theorem isSome_locate {ls : List ℕ} {n : ℕ} (h : n < ls.sum) : (locate ls n).isSome := by
  induction ls generalizing n with
  | nil => simp at h
  | cons l ls ih =>
    rw [locate]
    split
    · rfl
    · rw [List.sum_cons] at h
      rw [Option.isSome_map]
      exact ih (by omega)

/-! ### Years -/

/-- A leap year. -/
def IsLeap (y : ℤ) : Prop := y % 4 = 0 ∧ y % 100 ≠ 0 ∨ y % 400 = 0

instance (y : ℤ) : Decidable (IsLeap y) :=
  inferInstanceAs (Decidable (y % 4 = 0 ∧ y % 100 ≠ 0 ∨ y % 400 = 0))

/-- The number of days in a year. -/
def yearLength (y : ℤ) : ℕ := if IsLeap y then 366 else 365

/-- The number of the first day of a year. -/
def yearStart (y : ℤ) : ℤ := 365 * y + (y + 3) / 4 - (y + 99) / 100 + (y + 399) / 400

theorem yearStart_add_one (y : ℤ) : yearStart (y + 1) = yearStart y + yearLength y := by
  unfold yearStart yearLength
  by_cases hleap : IsLeap y
  · rw [if_pos hleap]
    unfold IsLeap at hleap
    omega
  · rw [if_neg hleap]
    unfold IsLeap at hleap
    omega

/-- The year of a day: an average year has 146097 / 400 days, which is off by at most one year. -/
def yearOf (n : ℤ) : ℤ :=
  let y := 400 * (n - 2) / 146097
  if yearStart (y + 1) ≤ n then y + 1 else y

theorem yearOf_spec (n : ℤ) : yearStart (yearOf n) ≤ n ∧ n < yearStart (yearOf n + 1) := by
  unfold yearOf
  simp only
  split
  next h =>
    refine ⟨h, ?_⟩
    unfold yearStart at h ⊢
    omega
  next h =>
    refine ⟨?_, by omega⟩
    unfold yearStart at h ⊢
    omega

/-! ### Months and days -/

/-- The lengths of the months of a year. -/
def monthLengths (y : ℤ) : List ℕ :=
  [31, if IsLeap y then 29 else 28, 31, 30, 31, 30, 31, 31, 30, 31, 30, 31]

theorem sum_monthLengths (y : ℤ) : (monthLengths y).sum = yearLength y := by
  unfold monthLengths yearLength
  split <;> rfl

/-- No month is longer than 31 days. -/
theorem le_of_mem_monthLengths {y : ℤ} {l : ℕ} (h : l ∈ monthLengths y) : l ≤ 31 := by
  unfold monthLengths at h
  split at h
  · revert l
    decide
  · revert l
    decide

/-- A day that exists. Months are counted from zero, days from one. -/
@[ext]
structure CivilDate where
  year : ℤ
  month : ℕ
  day : ℕ
  pos_day : 1 ≤ day
  day_le : ∃ l, (monthLengths year)[month]? = some l ∧ day ≤ l

namespace CivilDate

theorem month_lt (d : CivilDate) : d.month < 12 := by
  obtain ⟨l, hl, -⟩ := d.day_le
  exact (List.getElem?_eq_some_iff.mp hl).1

theorem day_le_31 (d : CivilDate) : d.day ≤ 31 := by
  obtain ⟨l, hl, hle⟩ := d.day_le
  exact hle.trans (le_of_mem_monthLengths (List.mem_of_getElem? hl))

/-- The number of a day. -/
def dayNumber (d : CivilDate) : ℤ :=
  yearStart d.year + ((monthLengths d.year).take d.month).sum + (d.day - 1)

/-- Every day falls into a month. -/
theorem isSome_locate_dayOfYear (n : ℤ) :
    (locate (monthLengths (yearOf n)) (n - yearStart (yearOf n)).toNat).isSome := by
  obtain ⟨hle, hlt⟩ := yearOf_spec n
  rw [yearStart_add_one] at hlt
  apply isSome_locate
  rw [sum_monthLengths]
  omega

/-- The day with a number. -/
def ofDayNumber (n : ℤ) : CivilDate where
  year := yearOf n
  month := ((locate _ _).get (isSome_locate_dayOfYear n)).1
  day := ((locate _ _).get (isSome_locate_dayOfYear n)).2 + 1
  pos_day := Nat.succ_pos _
  day_le := by
    obtain ⟨-, l, hl, hlt⟩ := locate_eq_some_iff.mp (Option.some_get _).symm
    exact ⟨l, hl, hlt⟩

/-- The month and the day are found in the year. -/
theorem locate_ofDayNumber (n : ℤ) :
    locate (monthLengths (yearOf n)) (n - yearStart (yearOf n)).toNat =
      some ((ofDayNumber n).month, (ofDayNumber n).day - 1) :=
  (Option.some_get (isSome_locate_dayOfYear n)).symm

/-- The day with a number has that number. -/
@[simp]
theorem dayNumber_ofDayNumber (n : ℤ) : (ofDayNumber n).dayNumber = n := by
  obtain ⟨hle, -⟩ := yearOf_spec n
  obtain ⟨hsum, -⟩ := locate_eq_some_iff.mp (locate_ofDayNumber n)
  have hyear : (ofDayNumber n).year = yearOf n := rfl
  have hpos := (ofDayNumber n).pos_day
  rw [dayNumber, hyear]
  omega

end CivilDate

end Calendar
