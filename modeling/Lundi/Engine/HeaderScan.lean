import Lundi.Core.Bytes
import Lundi.Lib.Search

/-!
# The header terminator scan

`engine::find_header_end` looks for `"\r\n\r\n"` from `scan_start`, backing up three bytes because
the terminator may straddle two socket reads, and returns the position behind it or `0`.

* `findHeaderEnd_zero`: a scan from the start is the first occurrence of the terminator;
* `findHeaderEnd_append`: after a scan that found nothing, a scan of the extended buffer from the
  old length returns what a scan from the start returns.
-/

namespace Lundi

open Search

/-- The header terminator `"\r\n\r\n"`. -/
abbrev headerTerminator : Bytes := [cr, lf, cr, lf]

/-- The scalar loop of `find_header_end`, on the bytes from position `i` to the end. -/
def scanFrom : Bytes → ℕ → ℕ
  | [], _ => 0
  | b :: rest, i => if headerTerminator <+: b :: rest then i + 4 else scanFrom rest (i + 1)

/-- `engine::find_header_end`. -/
def findHeaderEnd (data : Bytes) (scanStart : ℕ) : ℕ :=
  if data.length < 4 then 0
  else
    let i := if scanStart > 3 then scanStart - 3 else 0
    scanFrom (data.drop i) i

/-- The loop returns the position behind the first terminator, or `0`. -/
theorem scanFrom_eq (data : Bytes) (i : ℕ) :
    scanFrom data i = match find headerTerminator data with
      | some k => i + k + 4
      | none => 0 := by
  induction data generalizing i with
  | nil => rfl
  | cons b rest ih =>
    rw [scanFrom, find]
    split
    · rfl
    · rw [ih]
      cases find headerTerminator rest with
      | none => rfl
      | some k =>
        change i + 1 + k + 4 = i + (k + 1) + 4
        omega

/-- The terminator cannot be found in fewer than four bytes. -/
theorem find_headerTerminator_eq_none {data : Bytes} (h : data.length < 4) :
    find headerTerminator data = none := by
  cases hf : find headerTerminator data with
  | none => rfl
  | some k =>
    have := length_le_of_find_eq_some hf
    simp only [List.length_cons, List.length_nil] at this
    omega

/-- `find_header_end` is the first occurrence of the terminator at or behind
`scan_start - 3`. -/
theorem findHeaderEnd_eq (data : Bytes) (scanStart : ℕ) :
    findHeaderEnd data scanStart = match findFrom headerTerminator data (scanStart - 3) with
      | some k => k + 4
      | none => 0 := by
  have hstart : (if scanStart > 3 then scanStart - 3 else 0) = scanStart - 3 := by
    split <;> omega
  unfold findHeaderEnd
  split
  next hlen =>
    -- The early exit agrees with the search.
    rw [findFrom, find_headerTerminator_eq_none (by rw [List.length_drop]; omega)]
    rfl
  next =>
    simp only [hstart, scanFrom_eq, findFrom]
    cases find headerTerminator (data.drop (scanStart - 3)) with
    | none => rfl
    | some k =>
      change scanStart - 3 + k + 4 = k + (scanStart - 3) + 4
      omega

/-- A scan from the start is the first occurrence of the terminator. -/
theorem findHeaderEnd_zero (data : Bytes) :
    findHeaderEnd data 0 = match find headerTerminator data with
      | some k => k + 4
      | none => 0 := by
  rw [findHeaderEnd_eq]
  simp only [findFrom, Nat.zero_sub, List.drop_zero, Nat.add_zero, Option.map_id']

/-- A scan from the start finds nothing exactly when there is no terminator. -/
theorem findHeaderEnd_zero_eq_zero_iff {data : Bytes} :
    findHeaderEnd data 0 = 0 ↔ find headerTerminator data = none := by
  rw [findHeaderEnd_zero]
  cases find headerTerminator data <;> simp

/-- The position a scan returns lies inside the buffer. -/
theorem findHeaderEnd_zero_le (data : Bytes) : findHeaderEnd data 0 ≤ data.length := by
  rw [findHeaderEnd_zero]
  cases hf : find headerTerminator data with
  | none => exact Nat.zero_le _
  | some k =>
    have := length_le_of_find_eq_some hf
    simpa using this

/-- Bytes that arrive behind a complete head do not move its end. -/
theorem findHeaderEnd_append_of_ne_zero {data : Bytes} (h : findHeaderEnd data 0 ≠ 0)
    (rest : Bytes) : findHeaderEnd (data ++ rest) 0 = findHeaderEnd data 0 := by
  rw [Ne, findHeaderEnd_zero_eq_zero_iff] at h
  obtain ⟨k, hk⟩ := Option.ne_none_iff_exists'.mp h
  rw [findHeaderEnd_zero, findHeaderEnd_zero, hk, find_append_of_eq_some hk]

/-- A head that is completed by more bytes ends behind the old ones. -/
theorem length_lt_findHeaderEnd {data rest : Bytes} (hnone : findHeaderEnd data 0 = 0)
    (hsome : findHeaderEnd (data ++ rest) 0 ≠ 0) :
    data.length < findHeaderEnd (data ++ rest) 0 := by
  have hfind := findHeaderEnd_zero_eq_zero_iff.mp hnone
  rw [Ne, findHeaderEnd_zero_eq_zero_iff] at hsome
  obtain ⟨k, hk⟩ := Option.ne_none_iff_exists'.mp hsome
  rw [findHeaderEnd_zero, hk]
  by_contra hle
  -- A terminator inside the old bytes would have been found before.
  have hinside : k + headerTerminator.length ≤ data.length := not_lt.mp hle
  rw [find_of_find_append hk hinside] at hfind
  exact absurd hfind (by simp)

/-- After a scan that found nothing, a scan of the extended buffer that starts at the old length
returns what a scan from the start returns. -/
theorem findHeaderEnd_append {data : Bytes} (h : findHeaderEnd data 0 = 0) (rest : Bytes) :
    findHeaderEnd (data ++ rest) data.length = findHeaderEnd (data ++ rest) 0 := by
  have hnone := findHeaderEnd_zero_eq_zero_iff.mp h
  -- Only the last three old bytes can begin a terminator that the new bytes complete.
  have hskip : ∀ j < data.length - 3, ¬ headerTerminator <+: (data ++ rest).drop j :=
    fun j hj => not_prefix_drop_append_of_find_eq_none hnone rest
      (by simp only [List.length_cons, List.length_nil]; omega)
  rw [findHeaderEnd_eq, findHeaderEnd_zero, find_eq_findFrom hskip]

end Lundi
