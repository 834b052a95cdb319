import Lundi.Lib.Base64
import Lundi.WebSocket.Sha1

/-!
# The base 64 encoder

`detail::base64_encode`. `base64Encode` takes the bytes of a turn off the front of the string;
`base64EncodeChecked` is the loop over the index, and gives nothing when it reads outside the
string.

* `base64Encode_eq`: the encoder is the one of RFC 4648;
* `base64EncodeChecked_eq`: the loop reads inside the string, and encodes it;
* `base64_exact`: what it writes has the right length and form, and is read back.
-/

namespace Lundi

open Base64

/-- The table of `base64_encode`. -/
def base64Table : Bytes :=
  ascii "ABCDEFGHIJKLMNOPQRSTUVWXYZabcdefghijklmnopqrstuvwxyz0123456789+/"

/-- `table[ ( n >> shift ) & 0x3F ]`. -/
def base64Char (n : Sha1.Word) (shift : ℕ) : UInt8 :=
  base64Table.getD ((n >>> shift) &&& 0x3F).toNat 0

/-- The loop body of `base64_encode`: the bytes at `i`, `i + 1` and `i + 2`, where there are. -/
def base64Group (first : UInt8) (second third : Option UInt8) : Bytes :=
  let n := word first <<< 16
  let n := match second with
    | some b => n ||| word b <<< 8
    | none => n
  let n := match third with
    | some c => n ||| word c
    | none => n
  [base64Char n 18, base64Char n 12,
    if second.isSome then base64Char n 6 else 61, if third.isSome then base64Char n 0 else 61]

/-- `detail::base64_encode`. -/
def base64Encode : Bytes → Bytes
  | a :: b :: c :: rest => base64Group a b c ++ base64Encode rest
  | [a, b] => base64Group a b none
  | [a] => base64Group a none none
  | [] => []

/-- The 24 bits of a group. -/
theorem toNat_group (a b c : UInt8) :
    (word a <<< 16 ||| word b <<< 8 ||| word c).toNat =
      a.toNat * 65536 + b.toNat * 256 + c.toNat := by
  have ha := a.toNat_lt
  have hb := b.toNat_lt
  have hc := c.toNat_lt
  have hword : ∀ x : UInt8, (word x).toNat = x.toNat := by
    intro x
    have := x.toNat_lt
    simp only [word, BitVec.toNat_setWidth, UInt8.toNat_toBitVec]
    omega
  -- The bytes do not overlap, so that combining them is adding them.
  have hhigh : a.toNat <<< 16 ||| b.toNat <<< 8 = (a.toNat * 256 + b.toNat) <<< 8 := by
    rw [← Nat.shiftLeft_add_eq_or_of_lt (by rw [Nat.shiftLeft_eq]; omega)]
    simp only [Nat.shiftLeft_eq]
    omega
  simp only [BitVec.toNat_or, BitVec.toNat_shiftLeft, hword]
  rw [Nat.mod_eq_of_lt (by rw [Nat.shiftLeft_eq]; omega),
    Nat.mod_eq_of_lt (by rw [Nat.shiftLeft_eq]; omega), hhigh,
    ← Nat.shiftLeft_add_eq_or_of_lt (by omega), Nat.shiftLeft_eq]
  omega

theorem word_zero : word 0 = 0#32 := by decide

/-- A character of a group is the one of its six bits. -/
theorem base64Char_eq {n : Sha1.Word} {shift k : ℕ} (h : n.toNat / 2 ^ shift % 64 = k) :
    base64Char n shift = char k := by
  have htable : base64Table = alphabet := by decide
  -- Shifting and masking is dividing, and taking the remainder by 64.
  have hmask : (((n >>> shift) &&& 0x3F).toNat : ℕ) = n.toNat / 2 ^ shift % 64 := by
    rw [BitVec.toNat_and, BitVec.toNat_ushiftRight, Nat.shiftRight_eq_div_pow]
    exact Nat.and_two_pow_sub_one_eq_mod _ 6
  rw [base64Char, hmask, h, htable, char]

/-- The encoder is the one of RFC 4648. -/
theorem base64Encode_eq (data : Bytes) : base64Encode data = encode data := by
  induction data using encode.induct with
  | case1 a b c rest ih =>
    have ha := a.toNat_lt
    have hb := b.toNat_lt
    have hc := c.toNat_lt
    have hn := toNat_group a b c
    rw [base64Encode, encode, ih]
    simp only [base64Group, Option.isSome_some, if_true]
    rw [base64Char_eq (k := a.toNat / 4) (by rw [hn]; omega),
      base64Char_eq (k := a.toNat % 4 * 16 + b.toNat / 16) (by rw [hn]; omega),
      base64Char_eq (k := b.toNat % 16 * 4 + c.toNat / 64) (by rw [hn]; omega),
      base64Char_eq (k := c.toNat % 64) (by rw [hn]; omega)]
    rfl
  | case2 a b =>
    have ha := a.toNat_lt
    have hb := b.toNat_lt
    -- Two bytes are a group whose third byte is zero.
    have hn : (word a <<< 16 ||| word b <<< 8).toNat = a.toNat * 65536 + b.toNat * 256 := by
      have h := toNat_group a b 0
      rw [word_zero, BitVec.or_zero] at h
      simpa using h
    rw [base64Encode, encode]
    simp only [base64Group, Option.isSome_some, if_true]
    rw [base64Char_eq (k := a.toNat / 4) (by rw [hn]; omega),
      base64Char_eq (k := a.toNat % 4 * 16 + b.toNat / 16) (by rw [hn]; omega),
      base64Char_eq (k := b.toNat % 16 * 4) (by rw [hn]; omega)]
    rfl
  | case3 a =>
    have ha := a.toNat_lt
    -- One byte is a group whose other two are zero.
    have hn : (word a <<< 16).toNat = a.toNat * 65536 := by
      have h := toNat_group a 0 0
      rw [word_zero, BitVec.zero_shiftLeft, BitVec.or_zero, BitVec.or_zero] at h
      simpa using h
    rw [base64Encode, encode]
    simp only [base64Group]
    rw [base64Char_eq (k := a.toNat / 4) (by rw [hn]; omega),
      base64Char_eq (k := a.toNat % 4 * 16) (by rw [hn]; omega)]
    rfl
  | case4 => rfl

/-! ### The loop over the index -/

/-- The turn at `i`, with its reads checked. -/
def base64Turn (data : Bytes) (i : ℕ) : Option Bytes := do
  let first ← data[i]?
  let second ← if i + 1 < data.length then data[i + 1]?.map some else some none
  let third ← if i + 2 < data.length then data[i + 2]?.map some else some none
  some (base64Group first second third)

/-- The loop from `i` on, behind what has been written; nothing when a turn reads outside, or when
the budget of turns is spent. -/
def base64Loop (data : Bytes) : ℕ → ℕ → Bytes → Option Bytes
  | 0, _, _ => none
  | budget + 1, i, out =>
    if i < data.length then
      (base64Turn data i).bind fun group => base64Loop data budget (i + 3) (out ++ group)
    else some out

/-- `detail::base64_encode` with its reads checked. No index reaches `len + 3`, so that natural
numbers are exact. -/
def base64EncodeChecked (data : Bytes) : Option Bytes := base64Loop data (data.length + 1) 0 []

/-- A turn reads the bytes behind the ones of the earlier turns. -/
theorem base64Turn_eq (data : Bytes) (i : ℕ) : base64Turn data i = base64Turn (data.drop i) 0 := by
  have hlt : ∀ k, k < (data.drop i).length ↔ i + k < data.length := by
    intro k
    rw [List.length_drop]
    omega
  simp only [base64Turn, hlt, List.getElem?_drop, Nat.zero_add, Nat.add_zero]

/-- A turn writes the group at the front. -/
theorem base64Encode_of_turn {data : Bytes} (h : data ≠ []) :
    ∃ group, base64Turn data 0 = some group ∧
      base64Encode data = group ++ base64Encode (data.drop 3) := by
  match data with
  | [a] => exact ⟨base64Group a none none, rfl, (List.append_nil _).symm⟩
  | [a, b] => exact ⟨base64Group a b none, rfl, (List.append_nil _).symm⟩
  | a :: b :: c :: rest =>
    refine ⟨base64Group a b c, ?_, by rw [base64Encode]; rfl⟩
    simp [base64Turn]

/-- The loop encodes what is left. The induction is on the budget. -/
theorem base64Loop_eq {data : Bytes} {budget i : ℕ} (h : data.length - i < budget) (out : Bytes) :
    base64Loop data budget i out = some (out ++ base64Encode (data.drop i)) := by
  induction budget generalizing i out with
  | zero => exact absurd h (Nat.not_lt_zero _)
  | succ budget ih =>
    rw [base64Loop]
    split
    next hi =>
      have hne : data.drop i ≠ [] := by
        rw [Ne, List.drop_eq_nil_iff]
        omega
      obtain ⟨group, hturn, hencode⟩ := base64Encode_of_turn hne
      rw [base64Turn_eq, hturn, Option.bind_some, ih (by omega), hencode, List.drop_drop,
        List.append_assoc]
    next hi =>
      rw [List.drop_eq_nil_of_le (by omega), base64Encode, List.append_nil]

/-- The loop reads inside the string, and encodes it. -/
theorem base64EncodeChecked_eq (data : Bytes) :
    base64EncodeChecked data = some (base64Encode data) := by
  rw [base64EncodeChecked, base64Loop_eq (by omega), List.nil_append, List.drop_zero]

/-- The encoder is exact: for every byte string it reads inside the string and writes four
characters for each three bytes that are begun, characters of the alphabet with the padding at the
end, which the decoder of RFC 4648 reads back. -/
theorem base64_exact (data : Bytes) :
    ∃ text padded, base64EncodeChecked data = some (text ++ padded) ∧
      (text ++ padded).length = 4 * ((data.length + 2) / 3) ∧
      (∀ c ∈ text, c ∈ base64Table) ∧ padded = List.replicate ((3 - data.length % 3) % 3) 61 ∧
      parse (text ++ padded) = some data := by
  obtain ⟨text, htext, hall⟩ := exists_encode_eq data
  have htable : base64Table = alphabet := by decide
  refine ⟨text, _, ?_, ?_, ?_, rfl, ?_⟩
  · rw [base64EncodeChecked_eq, base64Encode_eq, htext]
  · rw [← htext, length_encode]
  · rwa [htable]
  · rw [← htext, parse_encode]

example : base64EncodeChecked (ascii "foob") = some (ascii "Zm9vYg==") := by decide

end Lundi
