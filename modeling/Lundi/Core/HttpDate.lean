import Lundi.Core.HeaderFields
import Lundi.Lib.Calendar
import Lundi.Lib.Decimal
import Mathlib.Data.List.DropRight

/-!
# HTTP dates

The functions of the C library that dates are formatted and parsed with, in the C locale and for
the format `%a, %d %b %Y %H:%M:%S GMT`: `gmtime_r` and `strftime` on the one side, `strptime` and
`timegm` on the other. `strptime` is that of the GNU library: it skips blanks, reads names in any
case and in full or abbreviated, and leaves what comes behind the format.

* `length_httpDate`, `unbroken_httpDate`: a date of a year with four digits has 29 bytes and is one
  line;
* `strptime_httpDate_append`: it is read back.
-/

namespace Lundi

open Calendar Decimal

/-- `struct tm`, the year in full and without the fields that nothing reads. -/
structure Tm where
  sec : ℕ
  min : ℕ
  hour : ℕ
  mday : ℕ
  mon : ℕ
  year : ℤ
  wday : ℕ
  deriving DecidableEq

/-- The number of the first of January 1970, a Thursday. -/
def epochDay : ℤ := 719528

/-- `gmtime_r`. -/
def gmtime (t : ℤ) : Tm :=
  let day := t / 86400 + epochDay
  let rest := (t % 86400).toNat
  let date := CivilDate.ofDayNumber day
  { sec := rest % 60
    min := rest / 60 % 60
    hour := rest / 3600
    mday := date.day
    mon := date.month
    year := date.year
    wday := ((day + 6) % 7).toNat }

/-- `timegm`, for a month that exists; the day may be one behind the end of the month. -/
def timegm (tm : Tm) : ℤ :=
  let day := yearStart tm.year + ((monthLengths tm.year).take tm.mon).sum + (tm.mday - 1)
  (day - epochDay) * 86400 + (tm.hour * 3600 + tm.min * 60 + tm.sec : ℕ)

/-- The names of the days, and their abbreviations. -/
def dayNames : List (Bytes × Bytes) :=
  [(ascii "Sunday", ascii "Sun"), (ascii "Monday", ascii "Mon"), (ascii "Tuesday", ascii "Tue"),
    (ascii "Wednesday", ascii "Wed"), (ascii "Thursday", ascii "Thu"),
    (ascii "Friday", ascii "Fri"), (ascii "Saturday", ascii "Sat")]

/-- The names of the months, and their abbreviations. -/
def monthNames : List (Bytes × Bytes) :=
  [(ascii "January", ascii "Jan"), (ascii "February", ascii "Feb"), (ascii "March", ascii "Mar"),
    (ascii "April", ascii "Apr"), (ascii "May", ascii "May"), (ascii "June", ascii "Jun"),
    (ascii "July", ascii "Jul"), (ascii "August", ascii "Aug"),
    (ascii "September", ascii "Sep"), (ascii "October", ascii "Oct"),
    (ascii "November", ascii "Nov"), (ascii "December", ascii "Dec")]

/-- The abbreviation of a name; `?` stands for one that does not exist. -/
def abbreviation (names : List (Bytes × Bytes)) (i : ℕ) : Bytes :=
  match names[i]? with
  | some name => name.2
  | none => ascii "?"

/-- A number below one hundred with two digits. -/
def twoDigits (n : ℕ) : Bytes := [(48 + n / 10).toUInt8, (48 + n % 10).toUInt8]

/-- `strftime` with the format of HTTP dates. -/
def strftime (tm : Tm) : Bytes :=
  abbreviation dayNames tm.wday ++ ascii ", " ++ twoDigits tm.mday ++ ascii " " ++
    abbreviation monthNames tm.mon ++ ascii " " ++ signedDecimal tm.year ++ ascii " " ++
    twoDigits tm.hour ++ ascii ":" ++ twoDigits tm.min ++ ascii ":" ++ twoDigits tm.sec ++
    ascii " GMT"

/-- The HTTP date of a time. -/
def httpDate (t : ℤ) : Bytes := strftime (gmtime t)

/-! ### Parsing -/

/-- `isspace`. -/
def isSpace (b : UInt8) : Bool := b == sp || 9 ≤ b && b ≤ 13

/-- Blanks are skipped. -/
def skipSpaces (s : Bytes) : Bytes := s.dropWhile isSpace

/-- More digits of a number, as long as it may stay below the bound. -/
def moreDigits (most : ℕ) : ℕ → ℕ → Bytes → ℕ × Bytes
  | 0, val, s => (val, s)
  | _ + 1, val, [] => (val, [])
  | n + 1, val, b :: s =>
    if val * 10 ≤ most ∧ isDigit b = true then moreDigits most n (val * 10 + (b.toNat - 48)) s
    else (val, b :: s)

/-- A number within bounds, with at most so many digits. -/
def getNumber (least most digits : ℕ) (s : Bytes) : Option (ℕ × Bytes) :=
  match skipSpaces s with
  | [] => none
  | b :: s =>
    if isDigit b then
      let found := moreDigits most (digits - 1) (b.toNat - 48) s
      if least ≤ found.1 ∧ found.1 ≤ most then some found else none
    else none

/-- A text is expected. -/
def expect (text s : Bytes) : Option Bytes :=
  if text.isPrefixOf s then some (s.drop text.length) else none

/-- A name is expected, in any case. -/
def matchName (name s : Bytes) : Option Bytes :=
  if equalsIgnoreCase (s.take name.length) name then some (s.drop name.length) else none

/-- One of some names is expected, in full or abbreviated. -/
def getName : List (Bytes × Bytes) → Bytes → Option (ℕ × Bytes)
  | [], _ => none
  | name :: names, s =>
    match (matchName name.1 s).or (matchName name.2 s) with
    | some rest => some (0, rest)
    | none => (getName names s).map fun p => (p.1 + 1, p.2)

/-- `strptime` with the format of HTTP dates, and what it leaves. -/
def strptime (s : Bytes) : Option (Tm × Bytes) := do
  let (wday, s) ← getName dayNames s
  let s ← expect (ascii ",") s
  let (mday, s) ← getNumber 1 31 2 (skipSpaces s)
  let (mon, s) ← getName monthNames (skipSpaces s)
  let (year, s) ← getNumber 0 9999 4 (skipSpaces s)
  let (hour, s) ← getNumber 0 23 2 (skipSpaces s)
  let s ← expect (ascii ":") s
  let (min, s) ← getNumber 0 59 2 s
  let s ← expect (ascii ":") s
  let (sec, s) ← getNumber 0 61 2 s
  let s ← expect (ascii "GMT") (skipSpaces s)
  pure (⟨sec, min, hour, mday, mon, year, wday⟩, s)

/-- `parse_http_date` up to the choice of `-1` for a failure: a C string ends at its first zero. -/
def readHttpDate (s : Bytes) : Option ℤ :=
  (strptime (s.takeWhile (· ≠ 0))).map fun p => timegm p.1

example : httpDate 784111777 = ascii "Sun, 06 Nov 1994 08:49:37 GMT" := by decide +kernel

example : readHttpDate (ascii "sunday,  6 november 1994 8:49:37 GMT+1") = some 784111777 := by
  decide +kernel

/-! ### Times and their fields -/

theorem gmtime_bounds (t : ℤ) :
    (gmtime t).sec < 60 ∧ (gmtime t).min < 60 ∧ (gmtime t).hour < 24 ∧ 1 ≤ (gmtime t).mday ∧
      (gmtime t).mday ≤ 31 ∧ (gmtime t).mon < 12 ∧ (gmtime t).wday < 7 := by
  have hmday := (CivilDate.ofDayNumber (t / 86400 + epochDay)).pos_day
  have hmday' := (CivilDate.ofDayNumber (t / 86400 + epochDay)).day_le_31
  have hmon := (CivilDate.ofDayNumber (t / 86400 + epochDay)).month_lt
  refine ⟨?_, ?_, ?_, hmday, hmday', hmon, ?_⟩ <;> simp only [gmtime] <;> omega

/-- A time is the one with its fields. -/
theorem timegm_gmtime (t : ℤ) : timegm (gmtime t) = t := by
  have hnumber := CivilDate.dayNumber_ofDayNumber (t / 86400 + epochDay)
  rw [CivilDate.dayNumber] at hnumber
  simp only [timegm, gmtime, hnumber]
  omega

/-! ### Numbers -/

theorem le_valueFrom (acc : ℕ) (ds : Bytes) : acc ≤ valueFrom acc ds := by
  induction ds generalizing acc with
  | nil => exact le_rfl
  | cons d ds ih =>
    have hle := ih (acc * 10 + (d.toNat - 48))
    rw [show valueFrom acc (d :: ds) = valueFrom (acc * 10 + (d.toNat - 48)) ds from rfl]
    omega

/-- As many digits as there may be are read, if the number they make is not too large. -/
theorem moreDigits_append {most val : ℕ} {ds : Bytes} (hds : ∀ b ∈ ds, isDigit b = true)
    (hle : valueFrom val ds ≤ most) (rest : Bytes) :
    moreDigits most ds.length val (ds ++ rest) = (valueFrom val ds, rest) := by
  induction ds generalizing val with
  | nil => rfl
  | cons d ds ih =>
    obtain ⟨hd, hds⟩ := List.forall_mem_cons.mp hds
    have hstep : valueFrom val (d :: ds) = valueFrom (val * 10 + (d.toNat - 48)) ds := rfl
    rw [hstep] at hle ⊢
    have hfits := le_valueFrom (val * 10 + (d.toNat - 48)) ds
    rw [List.length_cons, List.cons_append, moreDigits, if_pos ⟨by omega, hd⟩]
    exact ih hds hle

theorem isSpace_of_isDigit {b : UInt8} (h : isDigit b = true) : isSpace b = false := by
  rw [isDigit, Bool.and_eq_true, decide_eq_true_iff, UInt8.le_iff_toNat_le] at h
  have hge : 48 ≤ b.toNat := h.1
  have hne : b ≠ sp := by
    rintro rfl
    exact absurd hge (by decide)
  have hlarge : ¬ b ≤ 13 := by
    rw [UInt8.le_iff_toNat_le]
    exact fun hle => absurd (hge.trans hle) (by decide)
  simp [isSpace, hne, hlarge]

/-- A number with all of its digits is read. -/
theorem getNumber_append {least most digits : ℕ} {ds : Bytes} (hne : ds ≠ [])
    (hds : ∀ b ∈ ds, isDigit b = true) (hlen : ds.length = digits) (hleast : least ≤ value ds)
    (hmost : value ds ≤ most) (rest : Bytes) :
    getNumber least most digits (ds ++ rest) = some (value ds, rest) := by
  obtain ⟨d, ds, rfl⟩ := List.exists_cons_of_ne_nil hne
  obtain ⟨hd, hrest⟩ := List.forall_mem_cons.mp hds
  have hvalue : value (d :: ds) = valueFrom (d.toNat - 48) ds := by
    rw [value, valueFrom, List.foldl_cons, Nat.zero_mul, Nat.zero_add]
    rfl
  have hskip : skipSpaces (d :: ds ++ rest) = d :: (ds ++ rest) := by
    rw [skipSpaces, List.cons_append, List.dropWhile_cons_of_neg]
    rw [isSpace_of_isDigit hd]
    exact Bool.false_ne_true
  rw [hvalue] at hleast hmost
  subst hlen
  rw [getNumber, hskip]
  simp only [if_pos hd, List.length_cons, Nat.add_sub_cancel,
    moreDigits_append hrest hmost, hvalue, hleast, hmost, and_self, if_true]

theorem twoDigits_spec {n : ℕ} (h : n < 100) :
    (∀ b ∈ twoDigits n, isDigit b = true) ∧ value (twoDigits n) = n := by
  revert n
  decide +kernel

/-- A number with two digits is read. -/
theorem getNumber_twoDigits {least most n : ℕ} (hleast : least ≤ n) (hmost : n ≤ most)
    (h : n < 100) (rest : Bytes) :
    getNumber least most 2 (twoDigits n ++ rest) = some (n, rest) := by
  obtain ⟨hds, hvalue⟩ := twoDigits_spec h
  have hne : twoDigits n ≠ [] := by simp [twoDigits]
  have hnumber := getNumber_append hne hds rfl (hvalue.symm ▸ hleast) (hvalue.symm ▸ hmost) rest
  rwa [hvalue] at hnumber

/-- A year with four digits. -/
theorem signedDecimal_spec {y : ℤ} (hge : 1000 ≤ y) (hle : y ≤ 9999) :
    (∀ b ∈ signedDecimal y, isDigit b = true) ∧ (signedDecimal y).length = 4 ∧
      (value (signedDecimal y) : ℤ) = y := by
  have hpos : signedDecimal y = decimal y.natAbs := if_neg (by omega)
  rw [hpos, value_decimal]
  refine ⟨fun b hb => isDigit_of_mem_decimal hb, ?_, by omega⟩
  rw [length_decimal, if_neg (by omega), length_decimal, if_neg (by omega), length_decimal,
    if_neg (by omega), length_decimal, if_pos (by omega)]

/-! ### Names -/

/-- Two texts differ within the length of the shorter one, in whatever case. -/
def Differ (name u : Bytes) : Prop :=
  (u.take name.length).map toLower ≠ (name.take u.length).map toLower

instance (name u : Bytes) : Decidable (Differ name u) :=
  inferInstanceAs (Decidable
    ((u.take name.length).map toLower ≠ (name.take u.length).map toLower))

/-- A name that differs from what a text begins with is not matched. -/
theorem matchName_eq_none {name u : Bytes} (h : Differ name u) (rest : Bytes) :
    matchName name (u ++ rest) = none := by
  rw [matchName, if_neg]
  intro heq
  apply h
  rw [equalsIgnoreCase, beq_iff_eq] at heq
  have htake := congrArg (List.take u.length) heq
  rw [← List.map_take, ← List.map_take, List.take_take] at htake
  rw [← htake, Nat.min_comm, ← List.take_take, List.take_left]

theorem matchName_append (name rest : Bytes) : matchName name (name ++ rest) = some rest := by
  rw [matchName, List.take_left, List.drop_left, if_pos]
  exact beq_self_eq_true _

/-- The first name that matches is found. -/
theorem getName_eq_some {names : List (Bytes × Bytes)} {s rest : Bytes} {i : ℕ}
    (hbefore : ∀ j < i, ∀ name ∈ names[j]?, matchName name.1 s = none ∧ matchName name.2 s = none)
    (hat : ∃ name, names[i]? = some name ∧
      (matchName name.1 s).or (matchName name.2 s) = some rest) :
    getName names s = some (i, rest) := by
  induction names generalizing i with
  | nil =>
    obtain ⟨name, hname, -⟩ := hat
    exact absurd hname (by simp)
  | cons first names ih =>
    rw [getName]
    cases i with
    | zero =>
      obtain ⟨name, hname, hmatch⟩ := hat
      obtain rfl := Option.some_inj.mp hname
      rw [hmatch]
    | succ i =>
      obtain ⟨hfull, hshort⟩ := hbefore 0 (Nat.succ_pos i) first rfl
      rw [hfull, hshort]
      have hrest := ih (i := i) (fun j hj name hname => hbefore (j + 1) (by omega) name hname) hat
      simp [hrest]

/-- The abbreviations of some names, followed by this byte, are told apart: no name before one of
them agrees with it, and its own full name does not either, unless it is its own abbreviation. -/
def Distinct (names : List (Bytes × Bytes)) (stop : UInt8) : Prop :=
  ∀ i < names.length, (∀ j < i, ∀ name ∈ names[j]?,
      Differ name.1 (abbreviation names i ++ [stop]) ∧
        Differ name.2 (abbreviation names i ++ [stop])) ∧
    ∀ name ∈ names[i]?, name.1 = name.2 ∨ Differ name.1 (abbreviation names i ++ [stop])

theorem Distinct.getName_abbreviation {names : List (Bytes × Bytes)} {stop : UInt8}
    (h : Distinct names stop) {i : ℕ} (hi : i < names.length) (rest : Bytes) :
    getName names (abbreviation names i ++ stop :: rest) = some (i, stop :: rest) := by
  obtain ⟨hbefore, hat⟩ := h i hi
  have hsplit : abbreviation names i ++ stop :: rest =
      abbreviation names i ++ [stop] ++ rest := by simp
  have hname : names[i]? = some names[i] := List.getElem?_eq_getElem hi
  have habbreviation : abbreviation names i = names[i].2 := by rw [abbreviation, hname]
  refine getName_eq_some (fun j hj name hjname => ?_) ⟨names[i], hname, ?_⟩
  · obtain ⟨hfull, hshort⟩ := hbefore j hj name hjname
    rw [hsplit]
    exact ⟨matchName_eq_none hfull rest, matchName_eq_none hshort rest⟩
  · have hshort : matchName names[i].2 (abbreviation names i ++ stop :: rest) =
        some (stop :: rest) := by
      rw [habbreviation, matchName_append]
    rcases hat _ hname with hsame | hfull
    · rw [hsame, hshort]
      rfl
    · rw [hshort, hsplit, matchName_eq_none hfull, Option.none_or]

instance (names : List (Bytes × Bytes)) (stop : UInt8) : Decidable (Distinct names stop) :=
  inferInstanceAs (Decidable (∀ i < names.length, (∀ j < i, ∀ name ∈ names[j]?,
      Differ name.1 (abbreviation names i ++ [stop]) ∧
        Differ name.2 (abbreviation names i ++ [stop])) ∧
    ∀ name ∈ names[i]?, name.1 = name.2 ∨ Differ name.1 (abbreviation names i ++ [stop])))

theorem distinct_dayNames : Distinct dayNames 44 := by decide +kernel

theorem distinct_monthNames : Distinct monthNames sp := by decide +kernel

/-! ### Dates -/

/-- The year of a time has four digits. -/
def HasFourDigitYear (t : ℤ) : Prop := 1000 ≤ (gmtime t).year ∧ (gmtime t).year ≤ 9999

instance (t : ℤ) : Decidable (HasFourDigitYear t) :=
  inferInstanceAs (Decidable (1000 ≤ (gmtime t).year ∧ (gmtime t).year ≤ 9999))

theorem skipSpaces_sp (s : Bytes) : skipSpaces (sp :: s) = skipSpaces s := rfl

/-- A number is read behind blanks. -/
theorem getNumber_skipSpaces (least most digits : ℕ) (s : Bytes) :
    getNumber least most digits (skipSpaces s) = getNumber least most digits s := by
  have htwice : skipSpaces (skipSpaces s) = skipSpaces s := List.dropWhile_idempotent _ s
  rw [getNumber, getNumber, htwice]

theorem getNumber_sp (least most digits : ℕ) (s : Bytes) :
    getNumber least most digits (sp :: s) = getNumber least most digits s := rfl

/-- An expected text is found. -/
theorem expect_append (text rest : Bytes) : expect text (text ++ rest) = some rest := by
  rw [expect, List.isPrefixOf_iff_prefix.mpr (List.prefix_append _ _), if_pos rfl, List.drop_left]

/-- No abbreviation of a month begins with a blank. -/
theorem skipSpaces_monthNames {i : ℕ} (hi : i < monthNames.length) (rest : Bytes) :
    skipSpaces (abbreviation monthNames i ++ rest) = abbreviation monthNames i ++ rest := by
  have hfirst : ∀ i < monthNames.length,
      ∃ b ∈ (abbreviation monthNames i).head?, isSpace b = false := by
    decide +kernel
  obtain ⟨b, hb, hspace⟩ := hfirst i hi
  obtain ⟨tail, htail⟩ := List.head?_eq_some_iff.mp hb
  rw [htail, skipSpaces, List.cons_append, List.dropWhile_cons_of_neg]
  rw [hspace]
  exact Bool.false_ne_true

/-- A date is read back, whatever comes behind it. -/
theorem strptime_httpDate_append {t : ℤ} (h : HasFourDigitYear t) (rest : Bytes) :
    strptime (httpDate t ++ rest) = some (gmtime t, rest) := by
  obtain ⟨hsec, hmin, hhour, hmday, hmday', hmon, hwday⟩ := gmtime_bounds t
  obtain ⟨hyear, hyear'⟩ := h
  obtain ⟨hdigits, hlen, hvalue⟩ := signedDecimal_spec hyear hyear'
  have hcomma : ascii ", " = ascii "," ++ [sp] := by decide
  have hblank : ascii " " = [sp] := by decide
  have hgmt : ascii " GMT" = sp :: ascii "GMT" := by decide
  have hskip : ∀ s, skipSpaces (ascii "GMT" ++ s) = ascii "GMT" ++ s := fun _ => rfl
  have hstop : ∀ s, ascii "," ++ s = 44 :: s := fun _ => rfl
  have hseparator : ∀ s, expect (ascii ",") (44 :: s) = some s := fun _ => rfl
  -- The fields one by one, with whatever stands behind them.
  have hday := fun s => distinct_dayNames.getName_abbreviation hwday s
  have hmonth := fun s => distinct_monthNames.getName_abbreviation hmon s
  have hmdayRead := getNumber_twoDigits hmday hmday' (by omega)
  have hhourRead := getNumber_twoDigits (Nat.zero_le _) (Nat.le_of_lt_succ hhour) (by omega)
  have hminRead := getNumber_twoDigits (Nat.zero_le _) (Nat.le_of_lt_succ hmin) (by omega)
  have hsecRead := getNumber_twoDigits (Nat.zero_le _) (show (gmtime t).sec ≤ 61 by omega)
    (by omega)
  have hyearRead : ∀ s, getNumber 0 9999 4 (signedDecimal (gmtime t).year ++ s) =
      some ((gmtime t).year.toNat, s) := by
    intro s
    rw [getNumber_append (by intro hnil; simp [hnil] at hlen) hdigits hlen (Nat.zero_le _)
      (by omega)]
    congr
    omega
  rw [httpDate, strftime, strptime, hcomma, hblank, hgmt]
  simp only [List.append_assoc, List.cons_append, List.nil_append, hstop, hday,
    Option.bind_eq_bind, Option.bind_some, hseparator, skipSpaces_sp, getNumber_skipSpaces,
    getNumber_sp, hmdayRead, skipSpaces_monthNames hmon, hmonth, hyearRead, hhourRead,
    expect_append, hminRead,
    hsecRead, hskip]
  rw [Int.toNat_of_nonneg (by omega)]
  rfl

/-- A date of a year with four digits has 29 bytes. -/
theorem length_httpDate {t : ℤ} (h : HasFourDigitYear t) : (httpDate t).length = 29 := by
  obtain ⟨-, -, -, -, -, hmon, hwday⟩ := gmtime_bounds t
  have hlen := (signedDecimal_spec h.1 h.2).2.1
  have hday : ∀ i < 7, (abbreviation dayNames i).length = 3 := by decide
  have hmonth : ∀ i < 12, (abbreviation monthNames i).length = 3 := by decide
  simp only [httpDate, strftime, List.length_append, hday _ hwday, hmonth _ hmon, hlen,
    twoDigits, List.length_cons, List.length_nil]
  decide

/-- A date has no control characters. -/
theorem le_of_mem_httpDate {t : ℤ} {b : UInt8} (h : b ∈ httpDate t) : 32 ≤ b := by
  obtain ⟨hsec, hmin, hhour, hmday, hmday', hmon, hwday⟩ := gmtime_bounds t
  have hday : ∀ i < 7, ∀ b ∈ abbreviation dayNames i, 32 ≤ b := by decide +kernel
  have hmonth : ∀ i < 12, ∀ b ∈ abbreviation monthNames i, 32 ≤ b := by decide +kernel
  have htwo : ∀ n < 100, ∀ b ∈ twoDigits n, 32 ≤ b := by decide +kernel
  have hlit : ∀ s ∈ [ascii ", ", ascii " ", ascii ":", ascii " GMT"], ∀ b ∈ s, 32 ≤ b := by
    decide +kernel
  have hdigits : ∀ n, ∀ b ∈ decimal n, 32 ≤ b := by
    intro n b hb
    have hdigit := isDigit_of_mem_decimal hb
    rw [isDigit, Bool.and_eq_true, decide_eq_true_iff] at hdigit
    exact UInt8.le_trans (by decide) hdigit.1
  have hyear : ∀ b ∈ signedDecimal (gmtime t).year, 32 ≤ b := by
    unfold signedDecimal
    split
    · exact List.forall_mem_cons.mpr ⟨by decide, hdigits _⟩
    · exact hdigits _
  simp only [List.forall_mem_cons, List.not_mem_nil, false_implies, implies_true, and_true] at hlit
  obtain ⟨hcomma, hblank, hcolon, hgmt⟩ := hlit
  simp only [httpDate, strftime, List.append_assoc, List.mem_append] at h
  rcases h with h | h | h | h | h | h | h | h | h | h | h | h | h | h
  · exact hday _ hwday b h
  · exact hcomma b h
  · exact htwo _ (by omega) b h
  · exact hblank b h
  · exact hmonth _ hmon b h
  · exact hblank b h
  · exact hyear b h
  · exact hblank b h
  · exact htwo _ (by omega) b h
  · exact hcolon b h
  · exact htwo _ (by omega) b h
  · exact hcolon b h
  · exact htwo _ (by omega) b h
  · exact hgmt b h

/-- A date is one line. -/
theorem unbroken_httpDate (t : ℤ) : Unbroken (httpDate t) :=
  ⟨fun h => absurd (le_of_mem_httpDate h) (by decide),
    fun h => absurd (le_of_mem_httpDate h) (by decide)⟩

/-- A date is read back to the time it was made from. -/
theorem readHttpDate_httpDate {t : ℤ} (h : HasFourDigitYear t) :
    readHttpDate (httpDate t) = some t := by
  have hwhole : (httpDate t).takeWhile (· ≠ 0) = httpDate t := by
    rw [List.takeWhile_eq_self_iff]
    intro b hb
    rw [decide_eq_true_iff]
    rintro rfl
    exact absurd (le_of_mem_httpDate hb) (by decide)
  have hread := strptime_httpDate_append h []
  rw [List.append_nil] at hread
  rw [readHttpDate, hwhole, hread, Option.map_some, timegm_gmtime]

end Lundi
