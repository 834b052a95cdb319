import Mathlib.Data.List.GetD
import Mathlib.Data.List.Nodup

/-!
# Base64

The base 64 encoding of RFC 4648: groups of three bytes are written as four characters for six
bits each, and a shorter last group is filled with zero bits and padded.

* `decode_encode`: `decode` reads an encoding back, so `encode` is injective;
* `parse_encode`: so does the decoder that accepts nothing but encodings;
* `exists_encode_eq`: characters of the alphabet with the padding at the end, as many as three bytes
  that are full or not need.
-/

namespace Base64

/-- The base 64 alphabet. -/
def alphabet : List UInt8 :=
  (List.range 26).map (fun i => UInt8.ofNat (65 + i)) ++
    (List.range 26).map (fun i => UInt8.ofNat (97 + i)) ++
    (List.range 10).map (fun i => UInt8.ofNat (48 + i)) ++ [43, 47]

/-- The character of a six-bit number. -/
def char (n : ℕ) : UInt8 := alphabet.getD n 0

/-- The padding character. -/
abbrev padding : UInt8 := 61

/-- The encoding of a byte string. -/
def encode : List UInt8 → List UInt8
  | a :: b :: c :: rest =>
    char (a.toNat / 4) :: char (a.toNat % 4 * 16 + b.toNat / 16) ::
      char (b.toNat % 16 * 4 + c.toNat / 64) :: char (c.toNat % 64) :: encode rest
  | [a, b] =>
    [char (a.toNat / 4), char (a.toNat % 4 * 16 + b.toNat / 16), char (b.toNat % 16 * 4), padding]
  | [a] => [char (a.toNat / 4), char (a.toNat % 4 * 16), padding, padding]
  | [] => []

/-- The number of a character. -/
def index (c : UInt8) : ℕ := alphabet.idxOf c

/-- The byte string that an encoding stands for. -/
def decode : List UInt8 → List UInt8
  | w :: x :: y :: z :: rest =>
    let a := UInt8.ofNat (index w * 4 + index x / 16)
    let b := UInt8.ofNat (index x % 16 * 16 + index y / 4)
    let c := UInt8.ofNat (index y % 4 * 64 + index z)
    if y = padding then [a] else if z = padding then [a, b] else a :: b :: c :: decode rest
  | _ => []

/-- The alphabet has no character twice. -/
theorem nodup_alphabet : alphabet.Nodup := by
  have hmap : alphabet.map UInt8.toNat =
      List.range' 65 26 ++ List.range' 97 26 ++ List.range' 48 10 ++ [43, 47] := by decide
  -- The four parts are intervals that do not meet.
  refine List.Nodup.of_map UInt8.toNat ?_
  rw [hmap]
  simp only [List.nodup_append, List.mem_append, List.mem_range'_1, List.mem_cons,
    List.not_mem_nil, or_false]
  refine ⟨⟨⟨List.nodup_range', List.nodup_range', ?_⟩, List.nodup_range', ?_⟩, by simp, ?_⟩ <;>
    omega

theorem padding_notMem_alphabet : padding ∉ alphabet := by decide

/-- The character of a six-bit number is the one at that place of the alphabet. -/
theorem char_eq_getElem {n : ℕ} (h : n < alphabet.length) : char n = alphabet[n] :=
  List.getD_eq_getElem _ _ h

/-- The six bits of a character are a letter, a digit, a plus sign or a slash. -/
theorem char_mem_alphabet {n : ℕ} (h : n < 64) : char n ∈ alphabet := by
  rw [char_eq_getElem h]
  exact List.getElem_mem h

theorem index_char {n : ℕ} (h : n < 64) : index (char n) = n := by
  rw [char_eq_getElem h]
  exact nodup_alphabet.idxOf_getElem n h

theorem char_ne_padding {n : ℕ} (h : n < 64) : char n ≠ padding := by
  intro heq
  have hmem := char_mem_alphabet h
  rw [heq] at hmem
  exact padding_notMem_alphabet hmem

/-- A byte is given back by its quotient and remainder. -/
theorem ofNat_eq {b : UInt8} {n : ℕ} (h : n = b.toNat) : UInt8.ofNat n = b := by
  rw [h, UInt8.ofNat_toNat]

/-- Decoding inverts encoding. -/
@[simp]
theorem decode_encode (bytes : List UInt8) : decode (encode bytes) = bytes := by
  induction bytes using encode.induct with
  | case1 a b c rest ih =>
    have ha := a.toNat_lt
    have hb := b.toNat_lt
    have hc := c.toNat_lt
    rw [encode, decode, if_neg (char_ne_padding (by omega)), if_neg (char_ne_padding (by omega)),
      index_char (by omega), index_char (by omega), index_char (by omega), index_char (by omega),
      ih, ofNat_eq (b := a) (by omega), ofNat_eq (b := b) (by omega),
      ofNat_eq (b := c) (by omega)]
  | case2 a b =>
    -- The padding in the fourth place tells the decoder that the third byte is missing.
    have ha := a.toNat_lt
    have hb := b.toNat_lt
    rw [encode, decode, if_neg (char_ne_padding (by omega)), if_pos rfl,
      index_char (by omega), index_char (by omega), index_char (by omega),
      ofNat_eq (b := a) (by omega), ofNat_eq (b := b) (by omega)]
  | case3 a =>
    have ha := a.toNat_lt
    rw [encode, decode, if_pos rfl, index_char (by omega), index_char (by omega),
      ofNat_eq (b := a) (by omega)]
  | case4 => rfl

theorem encode_injective : Function.Injective encode :=
  Function.LeftInverse.injective decode_encode

/-! ### A decoder that checks -/

/-- The six bits of a character of the alphabet. -/
def sextet (c : UInt8) : Option ℕ := if c ∈ alphabet then some (index c) else none

/-- The decoder of RFC 4648: four characters of the alphabet for each group, and padding in the last
one only, where the bits that belong to no byte are zero. -/
def parse : List UInt8 → Option (List UInt8)
  | [] => some []
  | w :: x :: y :: z :: rest =>
    if rest = [] ∧ y = padding ∧ z = padding then do
      let a ← sextet w
      let b ← sextet x
      if b % 16 = 0 then some [UInt8.ofNat (a * 4 + b / 16)] else none
    else if rest = [] ∧ z = padding then do
      let a ← sextet w
      let b ← sextet x
      let c ← sextet y
      if c % 4 = 0 then some [UInt8.ofNat (a * 4 + b / 16), UInt8.ofNat (b % 16 * 16 + c / 4)]
      else none
    else do
      let a ← sextet w
      let b ← sextet x
      let c ← sextet y
      let d ← sextet z
      let tail ← parse rest
      some (UInt8.ofNat (a * 4 + b / 16) :: UInt8.ofNat (b % 16 * 16 + c / 4) ::
        UInt8.ofNat (c % 4 * 64 + d) :: tail)
  | _ => none

theorem sextet_char {n : ℕ} (h : n < 64) : sextet (char n) = some n := by
  rw [sextet, if_pos (char_mem_alphabet h), index_char h]

/-- An encoding is accepted, and read back. -/
@[simp]
theorem parse_encode (bytes : List UInt8) : parse (encode bytes) = some bytes := by
  induction bytes using encode.induct with
  | case1 a b c rest ih =>
    have ha := a.toNat_lt
    have hb := b.toNat_lt
    have hc := c.toNat_lt
    -- The group is a full one, because its last two characters are no padding.
    have hy := char_ne_padding (show b.toNat % 16 * 4 + c.toNat / 64 < 64 by omega)
    have hz := char_ne_padding (show c.toNat % 64 < 64 by omega)
    rw [encode, parse, if_neg fun h => hy h.2.1, if_neg fun h => hz h.2,
      sextet_char (by omega), sextet_char (by omega), sextet_char (by omega),
      sextet_char (by omega), ih]
    simp only [Option.bind_eq_bind, Option.bind_some]
    rw [ofNat_eq (b := a) (by omega), ofNat_eq (b := b) (by omega), ofNat_eq (b := c) (by omega)]
  | case2 a b =>
    have ha := a.toNat_lt
    have hb := b.toNat_lt
    have hy := char_ne_padding (show b.toNat % 16 * 4 < 64 by omega)
    rw [encode, parse, if_neg fun h => hy h.2.1, if_pos ⟨rfl, rfl⟩, sextet_char (by omega),
      sextet_char (by omega), sextet_char (by omega)]
    simp only [Option.bind_eq_bind, Option.bind_some]
    rw [if_pos (by omega), ofNat_eq (b := a) (by omega), ofNat_eq (b := b) (by omega)]
  | case3 a =>
    have ha := a.toNat_lt
    rw [encode, parse, if_pos ⟨rfl, rfl, rfl⟩, sextet_char (by omega), sextet_char (by omega)]
    simp only [Option.bind_eq_bind, Option.bind_some]
    rw [if_pos (by omega), ofNat_eq (b := a) (by omega)]
  | case4 => rfl

/-- An encoding is a multiple of four characters, one for each three bytes that are begun. -/
theorem length_encode (bytes : List UInt8) :
    (encode bytes).length = 4 * ((bytes.length + 2) / 3) := by
  induction bytes using encode.induct with
  | case1 a b c rest ih =>
    simp only [encode, List.length_cons, ih]
    omega
  | case2 a b => simp [encode]
  | case3 a => simp [encode]
  | case4 => rfl

/-- An encoding consists of characters of the alphabet, and of the padding behind them. -/
theorem exists_encode_eq (bytes : List UInt8) :
    ∃ text, encode bytes = text ++ List.replicate ((3 - bytes.length % 3) % 3) padding ∧
      ∀ c ∈ text, c ∈ alphabet := by
  induction bytes using encode.induct with
  | case1 x y z rest ih =>
    have hx := x.toNat_lt
    have hy := y.toNat_lt
    have hz := z.toNat_lt
    obtain ⟨text, htext, hall⟩ := ih
    have hcount : (x :: y :: z :: rest).length % 3 = rest.length % 3 := by
      simp only [List.length_cons]
      omega
    refine ⟨char (x.toNat / 4) :: char (x.toNat % 4 * 16 + y.toNat / 16) ::
      char (y.toNat % 16 * 4 + z.toNat / 64) :: char (z.toNat % 64) :: text, ?_, ?_⟩
    · rw [encode, htext, hcount]
      rfl
    · simp only [List.forall_mem_cons]
      exact ⟨char_mem_alphabet (by omega), char_mem_alphabet (by omega),
        char_mem_alphabet (by omega), char_mem_alphabet (by omega), hall⟩
  | case2 x y =>
    have hx := x.toNat_lt
    have hy := y.toNat_lt
    refine ⟨[char (x.toNat / 4), char (x.toNat % 4 * 16 + y.toNat / 16),
      char (y.toNat % 16 * 4)], by simp [encode], ?_⟩
    simp only [List.forall_mem_cons]
    exact ⟨char_mem_alphabet (by omega), char_mem_alphabet (by omega),
      char_mem_alphabet (by omega), by simp⟩
  | case3 x =>
    have hx := x.toNat_lt
    refine ⟨[char (x.toNat / 4), char (x.toNat % 4 * 16)], by simp [encode], ?_⟩
    simp only [List.forall_mem_cons]
    exact ⟨char_mem_alphabet (by omega), char_mem_alphabet (by omega), by simp⟩
  | case4 => exact ⟨[], rfl, by simp⟩

/-- An encoding consists of characters of the alphabet and padding. -/
theorem mem_encode {bytes : List UInt8} {c : UInt8} (h : c ∈ encode bytes) :
    c ∈ alphabet ∨ c = padding := by
  obtain ⟨text, htext, hall⟩ := exists_encode_eq bytes
  rw [htext, List.mem_append] at h
  exact h.imp (hall c) List.eq_of_mem_replicate

end Base64
