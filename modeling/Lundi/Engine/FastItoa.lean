import Lundi.Core.Bytes
import Lundi.Lib.Decimal
import Lundi.Lib.Region
import Lundi.Lib.Runs

/-!
# The integer formatter

`engine::fast_itoa` writes the decimal digits of a 64-bit value from the end of a 21-byte buffer
towards its front, and remembers how many it wrote.

`format` writes with `List.set`, which does nothing outside the buffer; `formatChecked` is the same
function on a checked region, and gives nothing when a write leaves the buffer.

* `formatted_eq`: what is written is the numeral of the value;
* `formatChecked_eq`: no write of a 64-bit value leaves the buffer;
* `format_exact`: a formatter that has been used before writes the numeral of the next value, and a
  NUL behind it.
-/

namespace Lundi

/-- `engine::fast_itoa`. -/
structure FastItoa where
  /-- `buf_`: room for twenty digits and a terminating NUL. -/
  buf : Bytes
  /-- `len_`: the length of the last formatted string. -/
  len : ℕ

namespace FastItoa

/-- A fresh formatter. Its buffer is uninitialized in the source; nothing reads it before
`format` has written it. -/
def init : FastItoa := ⟨List.replicate 21 0, 0⟩

/-- The digit loop: the buffer and the position of the first digit. A 64-bit value has at most
twenty digits, the step budget of the loop. -/
def digitLoop : ℕ → ℕ → ℕ → Bytes → Bytes × ℕ
  | 0, _, p, buf => (buf, p)
  | budget + 1, val, p, buf =>
    if val > 0 then
      digitLoop budget (val / 10) (p - 1) (buf.set (p - 1) (48 + (val % 10).toUInt8))
    else (buf, p)

/-- `format`: the formatter afterwards, and the position of the first character. -/
def format (itoa : FastItoa) (val : ℕ) : FastItoa × ℕ :=
  let buf := itoa.buf.set 20 0
  let (buf, p) := if val = 0 then (buf.set 19 48, 19) else digitLoop 20 val 20 buf
  (⟨buf, 20 - p⟩, p)

/-- The `length()` bytes from the returned pointer on. -/
def formatted (itoa : FastItoa) (val : ℕ) : Bytes :=
  let (after, p) := itoa.format val
  (after.buf.drop p).take after.len

open Decimal

/-- The digits that the loop writes: those of the numeral, and none for zero. -/
def digits (val : ℕ) : Bytes := if val = 0 then [] else decimal val

/-- The last digit of a number stands behind the digits of the quotient. -/
theorem digits_of_pos {val : ℕ} (h : 0 < val) :
    digits val = digits (val / 10) ++ [48 + (val % 10).toUInt8] := by
  have hbyte : (val % 10).digitChar.toNat.toUInt8 = 48 + (val % 10).toUInt8 := by
    have hlt := Nat.mod_lt val (show 10 > 0 by omega)
    interval_cases val % 10 <;> decide
  rw [digits, if_neg (by omega), decimal, Nat.toDigits_eq_if (by omega)]
  split
  next hsmall =>
    -- A single digit: the quotient is zero.
    rw [digits, if_pos (by omega), List.nil_append, List.map_cons, List.map_nil, ← hbyte,
      Nat.mod_eq_of_lt hsmall]
  next hlarge =>
    rw [digits, if_neg (by omega), List.map_append, List.map_cons, List.map_nil, hbyte]
    rfl

/-- The byte of a digit is one. -/
theorem isDigit_ofNat (val : ℕ) : isDigit (48 + (val % 10).toUInt8) = true := by
  have hlt := Nat.mod_lt val (show 10 > 0 by omega)
  interval_cases val % 10 <;> decide

/-- The loop writes digits in front of what stands behind its starting position: all those of the
value, if there are as many steps. The induction is on the number of steps. -/
theorem digitLoop_spec {budget p : ℕ} (val : ℕ) (buf : Bytes) (hp : budget ≤ p)
    (hlen : p ≤ buf.length) :
    ∃ ds : Bytes, (digitLoop budget val p buf).1.drop (digitLoop budget val p buf).2 =
        ds ++ buf.drop p ∧
      (digitLoop budget val p buf).2 + ds.length = p ∧ (∀ b ∈ ds, isDigit b = true) ∧
      (val < 10 ^ budget → ds = digits val) := by
  induction budget generalizing val p buf with
  | zero =>
    refine ⟨[], rfl, rfl, by simp, fun hval => ?_⟩
    obtain rfl : val = 0 := by omega
    rfl
  | succ budget ih =>
    rw [digitLoop]
    split
    next hpos =>
      have hset : (buf.set (p - 1) (48 + (val % 10).toUInt8)).drop (p - 1) =
          (48 + (val % 10).toUInt8) :: buf.drop p := by
        rw [List.drop_eq_getElem_cons (by rw [List.length_set]; omega), List.getElem_set_self,
          List.drop_set_of_lt (by omega), Nat.sub_add_cancel (by omega)]
      have hlen' : p - 1 ≤ (buf.set (p - 1) (48 + (val % 10).toUInt8)).length := by
        rw [List.length_set]
        omega
      obtain ⟨ds, hdrop, hcount, hdigits, hall⟩ := ih _ _ (show budget ≤ p - 1 by omega) hlen'
      -- The last digit is written first, the others in front of it.
      refine ⟨ds ++ [48 + (val % 10).toUInt8], ?_, ?_, ?_, fun hval => ?_⟩
      · rw [hdrop, hset, List.append_assoc, List.singleton_append]
      · rw [List.length_append, List.length_singleton]
        omega
      · rw [List.forall_mem_append]
        exact ⟨hdigits, by simp [isDigit_ofNat]⟩
      · rw [hall (by rw [Nat.pow_succ] at hval; omega), ← digits_of_pos hpos]
    next hzero =>
      refine ⟨[], rfl, rfl, by simp, fun _ => ?_⟩
      obtain rfl : val = 0 := by omega
      rfl

/-- What the loop leaves in front of the rest of the buffer is what is formatted. -/
theorem formatted_of_digitLoop {itoa : FastItoa} {val : ℕ} {ds rest : Bytes} (hval : val ≠ 0)
    (hdrop : (digitLoop 20 val 20 (itoa.buf.set 20 0)).1.drop
      (digitLoop 20 val 20 (itoa.buf.set 20 0)).2 = ds ++ rest)
    (hcount : (digitLoop 20 val 20 (itoa.buf.set 20 0)).2 + ds.length = 20) :
    itoa.formatted val = ds := by
  have hlen : 20 - (digitLoop 20 val 20 (itoa.buf.set 20 0)).2 = ds.length := by omega
  simp only [formatted, format, if_neg hval]
  rw [hdrop, hlen, List.take_left]

/-- The single digit of zero is written apart from the loop. -/
theorem drop_set_zero {buf : Bytes} (hlen : buf.length = 21) :
    ((buf.set 20 0).set 19 48).drop 19 = [48, 0] := by
  rw [List.drop_eq_getElem_cons (by simp [hlen]), List.getElem_set_self,
    List.drop_set_of_lt (by omega), List.drop_eq_getElem_cons (by simp [hlen]),
    List.getElem_set_self, List.drop_eq_nil_of_le (by simp [hlen])]

/-- What is formatted are digits: the twenty places are enough for every 64-bit value, and a larger
one would lose its first digits. -/
theorem formatted_spec (itoa : FastItoa) (val : ℕ) (hlen : itoa.buf.length = 21) :
    (∀ b ∈ itoa.formatted val, isDigit b = true) ∧
      (val < 2 ^ 64 → itoa.formatted val = decimal val) := by
  by_cases hzero : val = 0
  · subst hzero
    have hformatted : itoa.formatted 0 = [48] := by simp [formatted, format, drop_set_zero hlen]
    rw [hformatted]
    exact ⟨List.forall_mem_singleton.mpr (by decide), fun _ => by decide⟩
  · obtain ⟨ds, hdrop, hcount, hdigits, hall⟩ := digitLoop_spec val (itoa.buf.set 20 0)
      (le_refl 20) (by simp [hlen])
    rw [formatted_of_digitLoop hzero hdrop hcount]
    refine ⟨hdigits, fun hval => ?_⟩
    rw [hall (by omega), digits, if_neg hzero]

/-- Only zero is formatted as a single zero. -/
theorem formatted_inj_zero {itoa : FastItoa} (hlen : itoa.buf.length = 21) {val : ℕ}
    (h : itoa.formatted val = itoa.formatted 0) : val = 0 := by
  have hzero : itoa.formatted 0 = decimal 0 := (formatted_spec itoa 0 hlen).2 (by omega)
  by_cases hval : val < 2 ^ 64
  · -- The numeral can be read back.
    rw [hzero, (formatted_spec itoa val hlen).2 hval] at h
    have hvalue := congrArg value h
    rwa [value_decimal, value_decimal] at hvalue
  · -- The loop makes at least two steps for a larger value.
    exfalso
    have hloop : digitLoop 20 val 20 (itoa.buf.set 20 0) = digitLoop 18 (val / 10 / 10) 18
        (((itoa.buf.set 20 0).set 19 (48 + (val % 10).toUInt8)).set 18
          (48 + (val / 10 % 10).toUInt8)) := by
      rw [digitLoop, if_pos (by omega), digitLoop, if_pos (by omega)]
    obtain ⟨ds, -, hcount, -⟩ := digitLoop_spec (val / 10 / 10)
      (((itoa.buf.set 20 0).set 19 (48 + (val % 10).toUInt8)).set 18
        (48 + (val / 10 % 10).toUInt8)) (le_refl 18) (by simp [hlen])
    obtain ⟨ds', hdrop, hcount', -⟩ := digitLoop_spec val (itoa.buf.set 20 0) (le_refl 20)
      (by simp [hlen])
    have hlength := congrArg List.length h
    rw [formatted_of_digitLoop (by omega) hdrop hcount', hzero, length_decimal,
      if_pos (by omega)] at hlength
    rw [hloop] at hcount'
    omega

/-- A 64-bit value is formatted as its numeral. -/
theorem formatted_eq {itoa : FastItoa} (hlen : itoa.buf.length = 21) {val : ℕ}
    (hval : val < 2 ^ 64) : itoa.formatted val = decimal val :=
  (formatted_spec itoa val hlen).2 hval

/-! ### Checked writes -/

open Region Runs

/-- The digit loop with checked writes, from the position `p` down: there is nothing in front of the
buffer. -/
def checkedLoop : ℕ → ℕ → Bytes → Option (Bytes × ℕ)
  | 0, val, buf => if val > 0 then none else some (buf, 0)
  | p + 1, val, buf =>
    if val > 0 then
      (store buf p [48 + (val % 10).toUInt8]).bind fun buf => checkedLoop p (val / 10) buf
    else some (buf, p + 1)

/-- `format` with checked writes: the formatter afterwards, and the position of the first
character. -/
def formatChecked (itoa : FastItoa) (val : ℕ) : Option (FastItoa × ℕ) :=
  (store itoa.buf 20 [0]).bind fun buf =>
    (if val = 0 then (store buf 19 [48]).map fun buf => (buf, 19)
      else checkedLoop 20 val buf).map fun (buf, p) => (⟨buf, 20 - p⟩, p)

/-- Storing a single byte inside is setting it. -/
theorem store_singleton {buf : Bytes} {p : ℕ} (h : p < buf.length) (b : UInt8) :
    store buf p [b] = some (buf.set p b) := by
  rw [store_eq_some h, List.set_eq_take_append_cons_drop, if_pos h, List.append_assoc]
  rfl

/-- The checked loop stays inside as long as there is a place for every digit. -/
theorem checkedLoop_eq {p val : ℕ} {buf : Bytes} (hval : val < 10 ^ p) (hp : p ≤ buf.length) :
    checkedLoop p val buf = some (digitLoop p val p buf) := by
  induction p generalizing val buf with
  | zero =>
    obtain rfl : val = 0 := by omega
    rfl
  | succ p ih =>
    rw [checkedLoop, digitLoop]
    split
    next hpos =>
      rw [store_singleton hp, Option.bind_some, ih (by rw [Nat.pow_succ] at hval; omega)
        (by rw [List.length_set]; omega)]
      rfl
    next => rfl

/-- No write of a 64-bit value leaves the buffer. -/
theorem formatChecked_eq {itoa : FastItoa} (hlen : itoa.buf.length = 21) {val : ℕ}
    (hval : val < 2 ^ 64) : itoa.formatChecked val = some (itoa.format val) := by
  have hset : (itoa.buf.set 20 0).length = 21 := by rw [List.length_set, hlen]
  rw [formatChecked, store_singleton (by omega), Option.bind_some, format]
  split
  next => rw [store_singleton (by omega)]; rfl
  next => rw [checkedLoop_eq (by omega) (by omega)]; rfl

/-- What a 64-bit value leaves in the buffer: its numeral and the NUL, up to the end. -/
theorem format_spec (itoa : FastItoa) (hlen : itoa.buf.length = 21) {val : ℕ}
    (hval : val < 2 ^ 64) :
    (itoa.format val).1.buf.drop (itoa.format val).2 = decimal val ++ [0] ∧
      (itoa.format val).2 + (decimal val).length = 20 ∧
      (itoa.format val).1.len = (decimal val).length := by
  by_cases hzero : val = 0
  · subst hzero
    simp only [format, if_pos]
    rw [drop_set_zero hlen]
    exact ⟨rfl, rfl, rfl⟩
  · obtain ⟨ds, hdrop, hcount, -, hall⟩ := digitLoop_spec val (itoa.buf.set 20 0) (le_refl 20)
      (by simp [hlen])
    obtain rfl : ds = decimal val := by rw [hall (by omega), digits, if_neg hzero]
    -- The NUL has been written first, and is the only byte behind the digits.
    have hnul : (itoa.buf.set 20 0).drop 20 = [0] := by
      rw [List.drop_eq_getElem_cons (by simp [hlen]), List.getElem_set_self,
        List.drop_eq_nil_of_le (by simp [hlen])]
    rw [hnul] at hdrop
    simp only [format, if_neg hzero]
    exact ⟨hdrop, hcount, by omega⟩

/-- A call of `format` that may be followed by others. -/
def use (itoa : FastItoa) (val : ℕ) : Option FastItoa := (itoa.formatChecked val).map Prod.fst

/-- The `length()` bytes from position `p` on are the numeral of the value, without leading zeros,
followed by a NUL inside the buffer. -/
structure Shows (itoa : FastItoa) (p val : ℕ) : Prop where
  size : itoa.buf.length = 21
  numeral : (itoa.buf.drop p).take itoa.len = decimal val
  terminated : itoa.buf[p + itoa.len]? = some 0
  noLeadingZero : val ≠ 0 → ((itoa.buf.drop p).take itoa.len).head? ≠ some 48
  value : value ((itoa.buf.drop p).take itoa.len) = val

/-- A 64-bit value is shown. -/
theorem shows_format {itoa : FastItoa} (hlen : itoa.buf.length = 21) {val : ℕ}
    (hval : val < 2 ^ 64) : (itoa.format val).1.Shows (itoa.format val).2 val := by
  obtain ⟨hdrop, hcount, hlength⟩ := itoa.format_spec hlen hval
  have htext : ((itoa.format val).1.buf.drop (itoa.format val).2).take (itoa.format val).1.len =
      decimal val := by
    rw [hdrop, hlength, List.take_left]
  refine ⟨?_, htext, ?_, fun hzero => ?_, ?_⟩
  · have hsize := congrArg List.length hdrop
    rw [List.length_drop, List.length_append, List.length_singleton] at hsize
    omega
  · rw [← List.getElem?_drop, hdrop, hlength, List.getElem?_append_right (le_refl _),
      Nat.sub_self]
    rfl
  · rw [htext]
    exact head?_decimal_ne hzero
  · rw [htext, value_decimal]

/-- Formatting is exact over the whole range: after any earlier uses of a formatter with an
uninitialized buffer, a value below `2 ^ 64` is written inside the buffer, and shown. -/
theorem format_exact {buf : Bytes} (hbuf : buf.length = 21) {itoa : FastItoa}
    (h : Reach use (fun _ val => val < 2 ^ 64) ⟨buf, 0⟩ itoa) {val : ℕ} (hval : val < 2 ^ 64) :
    ∃ after p, itoa.formatChecked val = some (after, p) ∧ after.Shows p val := by
  have hlen : itoa.buf.length = 21 := by
    -- A use keeps the size of the buffer, whatever it leaves in it.
    refine h.invariant (I := fun s => s.buf.length = 21) hbuf fun s earlier s' hs hok huse => ?_
    rw [use, formatChecked_eq hs hok] at huse
    obtain rfl := Option.some_inj.mp huse
    exact (shows_format hs hok).size
  exact ⟨_, _, formatChecked_eq hlen hval, shows_format hlen hval⟩

/-- A formatter that has shown 100 shows the largest value. -/
theorem format_exact_max :
    ∃ itoa after p, use ⟨List.replicate 21 7, 0⟩ 100 = some itoa ∧
      itoa.formatChecked (2 ^ 64 - 1) = some (after, p) ∧ after.Shows p (2 ^ 64 - 1) := by
  have huse : use ⟨List.replicate 21 7, 0⟩ 100 =
      some ⟨List.replicate 17 7 ++ ascii "100" ++ [0], 3⟩ := rfl
  have hsize : (List.replicate 21 (7 : UInt8)).length = 21 := rfl
  obtain ⟨after, p, hformat, hshows⟩ := format_exact hsize
    (Reach.step 100 .start (by decide) huse) (show 2 ^ 64 - 1 < 2 ^ 64 by decide)
  exact ⟨_, after, p, huse, hformat, hshows⟩

end FastItoa

end Lundi
