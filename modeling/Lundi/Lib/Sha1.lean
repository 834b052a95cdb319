import Lundi.Lib.BigEndian
import Mathlib.Data.List.Basic

/-!
# SHA-1

The secure hash algorithm of FIPS 180-4 for messages that are byte strings: the functions and
constants of sections 4.1.1 and 4.2.1, the padding of 5.1.1, and the computation of 6.1.2. The
length field is the bit length modulo `2 ^ 64`, so that the hash is defined for messages of every
length.
-/

namespace Sha1

open BigEndian

/-- A 32-bit word. -/
abbrev Word := BitVec 32

/-- The five words of a hash value, and the five working variables. -/
structure Words where
  a : Word
  b : Word
  c : Word
  d : Word
  e : Word
  deriving DecidableEq

/-- `Ch( x, y, z )`. -/
def ch (x y z : Word) : Word := (x &&& y) ^^^ (~~~x &&& z)

/-- `Parity( x, y, z )`. -/
def parity (x y z : Word) : Word := x ^^^ y ^^^ z

/-- `Maj( x, y, z )`. -/
def maj (x y z : Word) : Word := (x &&& y) ^^^ (x &&& z) ^^^ (y &&& z)

/-- The function of step `t`. -/
def logical (t : ℕ) : Word → Word → Word → Word :=
  if t < 20 then ch else if t < 40 then parity else if t < 60 then maj else parity

/-- The constant of step `t`. -/
def constant (t : ℕ) : Word :=
  if t < 20 then 0x5a827999 else if t < 40 then 0x6ed9eba1
  else if t < 60 then 0x8f1bbcdc else 0xca62c1d6

/-- The initial hash value. -/
def initial : Words := ⟨0x67452301, 0xefcdab89, 0x98badcfe, 0x10325476, 0xc3d2e1f0⟩

/-- The 32-bit word that starts at a byte position: its four bytes, most significant first. -/
def wordAt (bytes : List UInt8) (i : ℕ) : Word :=
  (bytes.getD i 0).toBitVec ++ (bytes.getD (i + 1) 0).toBitVec ++
    (bytes.getD (i + 2) 0).toBitVec ++ (bytes.getD (i + 3) 0).toBitVec

/-- The message schedule of a block. -/
def schedule (block : List UInt8) (t : ℕ) : Word :=
  if h : t < 16 then wordAt block (4 * t)
  else
    (schedule block (t - 3) ^^^ schedule block (t - 8) ^^^ schedule block (t - 14) ^^^
      schedule block (t - 16)).rotateLeft 1

/-- Step `t` on the working variables. -/
def step (block : List UInt8) (v : Words) (t : ℕ) : Words where
  a := v.a.rotateLeft 5 + logical t v.b v.c v.d + v.e + constant t + schedule block t
  b := v.a
  c := v.b.rotateLeft 30
  d := v.c
  e := v.d

/-- Wordwise addition. -/
def Words.add (v w : Words) : Words := ⟨v.a + w.a, v.b + w.b, v.c + w.c, v.d + w.d, v.e + w.e⟩

/-- The hash value after one more block. -/
def compress (h : Words) (block : List UInt8) : Words :=
  h.add ((List.range 80).foldl (step block) h)

/-- The block of a message with this index. -/
def blockAt (message : List UInt8) (i : ℕ) : List UInt8 := (message.drop (64 * i)).take 64

/-- The hash value after the first `n` blocks. -/
def hashBlocks (message : List UInt8) (n : ℕ) : Words :=
  (List.range n).foldl (fun h i => compress h (blockAt message i)) initial

/-- The number of zero bytes of the padding: the smallest one that leaves room for just the length
in the last block. -/
def zeros (length : ℕ) : ℕ := (119 - length % 64) % 64

/-- The padded message: a one bit, zeros and the bit length. -/
def pad (message : List UInt8) : List UInt8 :=
  message ++ 0x80 :: List.replicate (zeros message.length) 0 ++
    bigEndian 8 (message.length * 8 % 2 ^ 64)

/-- The bytes of a hash value. -/
def Words.bytes (h : Words) : List UInt8 :=
  [h.a, h.b, h.c, h.d, h.e].flatMap fun w => bigEndian 4 w.toNat

/-- The digest of a message. -/
def digest (message : List UInt8) : List UInt8 :=
  (hashBlocks (pad message) ((pad message).length / 64)).bytes

/-- Bytes that arrive behind the first `n` blocks do not change their hash. -/
theorem hashBlocks_append {message : List UInt8} {n : ℕ} (h : 64 * n ≤ message.length)
    (more : List UInt8) : hashBlocks (message ++ more) n = hashBlocks message n := by
  apply List.foldl_ext _ _ _
  intro v i hi
  -- The first `n` blocks end before the new bytes.
  have hlt : i < n := List.mem_range.mp hi
  have hblock : blockAt (message ++ more) i = blockAt message i := by
    rw [blockAt, blockAt, List.drop_append_of_le_length (by omega),
      List.take_append_of_le_length (by rw [List.length_drop]; omega)]
  rw [hblock]

theorem hashBlocks_succ (message : List UInt8) (n : ℕ) :
    hashBlocks message (n + 1) = compress (hashBlocks message n) (blockAt message n) := by
  simp [hashBlocks, List.range_succ]

end Sha1
