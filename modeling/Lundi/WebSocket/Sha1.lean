import Lundi.Lib.Sha1
import Lundi.Core.Bytes

/-!
# The SHA-1 of the handshake

`detail::sha1`: a streaming implementation with a partial block buffer. `Absorbed d h` says that
the hash object `h` has been fed the bytes `d`; `absorbed_update` and `absorbed_padLoop` follow it
through the calls, and `finalize_eq_digest` says that the digest of what was fed is the one of
FIPS 180-4, however it was cut into pieces (`finalize_foldl_update`).
-/

namespace Lundi

open Sha1 BigEndian

/-- `sha1`. -/
structure Sha1Context where
  /-- `state`. -/
  state : Words
  /-- `count`, a `uint64_t`. -/
  count : ℕ
  /-- `buffer`. -/
  buffer : Bytes
  /-- The buffer has 64 places. -/
  length_buffer : buffer.length = 64

/-- `sha1::rol`. -/
def rol (v : Word) (bits : ℕ) : Word := (v <<< bits) ||| (v >>> (32 - bits))

/-- `uint32_t( b )`. -/
def word (b : UInt8) : Word := b.toBitVec.setWidth 32

/-- One of the first sixteen words of `w`. -/
def loadWord (block : Bytes) (i : ℕ) : Word :=
  let idx := i * 4
  word (block.getD idx 0) <<< 24 ||| word (block.getD (idx + 1) 0) <<< 16 |||
    word (block.getD (idx + 2) 0) <<< 8 ||| word (block.getD (idx + 3) 0)

/-- The loop that computes the other words of `w`. -/
def expand (w : List Word) (i : ℕ) : List Word :=
  w ++ [rol (w.getD (i - 3) 0 ^^^ w.getD (i - 8) 0 ^^^ w.getD (i - 14) 0 ^^^ w.getD (i - 16) 0) 1]

/-- The array `w`. -/
def expandedWords (block : Bytes) : List Word :=
  (List.range' 16 64).foldl expand ((List.range 16).map (loadWord block))

/-- The body of the main loop of `transform`. -/
def transformRound (w : List Word) (v : Words) (i : ℕ) : Words :=
  let f :=
    if i < 20 then (v.b &&& v.c) ||| (~~~v.b &&& v.d)
    else if i < 40 then v.b ^^^ v.c ^^^ v.d
    else if i < 60 then (v.b &&& v.c) ||| (v.b &&& v.d) ||| (v.c &&& v.d)
    else v.b ^^^ v.c ^^^ v.d
  let k : Word :=
    if i < 20 then 0x5A827999 else if i < 40 then 0x6ED9EBA1
    else if i < 60 then 0x8F1BBCDC else 0xCA62C1D6
  let t := rol v.a 5 + f + v.e + k + w.getD i 0
  ⟨t, v.a, rol v.b 30, v.c, v.d⟩

/-- `sha1::transform`. -/
def transform (state : Words) (block : Bytes) : Words :=
  let v := (List.range 80).foldl (transformRound (expandedWords block)) state
  ⟨state.a + v.a, state.b + v.b, state.c + v.c, state.d + v.d, state.e + v.e⟩

namespace Sha1Context

/-- A fresh hash object. -/
def init : Sha1Context where
  state := ⟨0x67452301, 0xEFCDAB89, 0x98BADCFE, 0x10325476, 0xC3D2E1F0⟩
  count := 0
  buffer := List.replicate 64 0
  length_buffer := rfl

/-- Store a byte in the buffer. -/
def store (h : Sha1Context) (idx : ℕ) (p : UInt8) : Sha1Context where
  state := h.state
  count := h.count
  buffer := h.buffer.set idx p
  length_buffer := by rw [List.length_set, h.length_buffer]

/-- The loop of `update`. -/
def updateLoop : Bytes → ℕ → Sha1Context → Sha1Context
  | [], _, h => h
  | p :: rest, idx, h =>
    let h := h.store idx p
    if idx + 1 = 64 then updateLoop rest 0 { h with state := transform h.state h.buffer }
    else updateLoop rest (idx + 1) h

/-- `sha1::update`. -/
def update (h : Sha1Context) (data : Bytes) : Sha1Context :=
  updateLoop data (h.count % 64) { h with count := (h.count + data.length) % 2 ^ 64 }

/-- The padding loop of `finalize`. It stores at most 63 bytes. -/
def padLoop : ℕ → Sha1Context → Sha1Context
  | 0, h => h
  | budget + 1, h => if h.count % 64 = 56 then h else padLoop budget (h.update [0])

/-- The loop that fills `len_be` from its end. -/
def lenBytes : ℕ → ℕ → Bytes
  | 0, _ => []
  | i + 1, bits => lenBytes i (bits >>> 8) ++ [UInt8.ofNat (bits &&& 0xFF)]

/-- The bytes of a word. -/
def wordBytes (w : Word) : Bytes :=
  [(w >>> 24).toNat, (w >>> 16).toNat, (w >>> 8).toNat, w.toNat].map fun n =>
    UInt8.ofNat (n &&& 0xFF)

/-- `sha1::finalize`. -/
def finalize (h : Sha1Context) : Bytes :=
  let bits := h.count * 8 % 2 ^ 64
  let h := (padLoop 63 (h.update [0x80])).update (lenBytes 8 bits)
  [h.state.a, h.state.b, h.state.c, h.state.d, h.state.e].flatMap wordBytes

end Sha1Context

/-! ### One block -/

theorem rol_eq_rotateLeft (v : Word) {bits : ℕ} (h : bits < 32) :
    rol v bits = v.rotateLeft bits := by
  rw [rol, BitVec.rotateLeft, Nat.mod_eq_of_lt h]
  rfl

theorem loadWord_eq (block : Bytes) (i : ℕ) : loadWord block i = wordAt block (4 * i) := by
  simp only [loadWord, wordAt, word, Nat.mul_comm i 4]
  generalize (block.getD (4 * i) 0).toBitVec = b0
  generalize (block.getD (4 * i + 1) 0).toBitVec = b1
  generalize (block.getD (4 * i + 2) 0).toBitVec = b2
  generalize (block.getD (4 * i + 3) 0).toBitVec = b3
  -- Each bit comes from one of the four bytes.
  ext j hj
  simp only [BitVec.getElem_or, BitVec.getElem_shiftLeft, BitVec.getElem_setWidth]
  grind

/-- The words computed so far are those of the message schedule. -/
theorem foldl_expand (block : Bytes) (k : ℕ) :
    (List.range' 16 k).foldl expand ((List.range 16).map (loadWord block)) =
      (List.range (16 + k)).map (schedule block) := by
  induction k with
  | zero =>
    apply List.map_congr_left
    intro i hi
    rw [schedule, dif_pos (List.mem_range.mp hi), loadWord_eq]
  | succ k ih =>
    -- The next word reads only words that are in the list already.
    have hget : ∀ j < 16 + k, ((List.range (16 + k)).map (schedule block)).getD j 0 =
        schedule block j := by
      intro j hj
      simp [List.getD_eq_getElem?_getD, hj]
    rw [List.range'_concat, List.foldl_append, ih, Nat.one_mul, List.foldl_cons, List.foldl_nil,
      expand, hget _ (by omega), hget _ (by omega), hget _ (by omega), hget _ (by omega),
      rol_eq_rotateLeft _ (by omega), ← Nat.add_assoc, List.range_succ, List.map_append]
    congr 1
    rw [List.map_cons, List.map_nil, schedule.eq_def block (16 + k), dif_neg (by omega)]

theorem or_eq_ch (x y z : Word) : (x &&& y) ||| (~~~x &&& z) = ch x y z := by
  ext i hi
  simp only [ch, BitVec.getElem_or, BitVec.getElem_and, BitVec.getElem_xor, BitVec.getElem_not]
  cases x[i] <;> simp

theorem or_eq_maj (x y z : Word) : (x &&& y) ||| (x &&& z) ||| (y &&& z) = maj x y z := by
  ext i hi
  simp only [maj, BitVec.getElem_or, BitVec.getElem_and, BitVec.getElem_xor]
  cases x[i] <;> cases y[i] <;> cases z[i] <;> rfl

/-- A round of the loop is a step of the standard. -/
theorem transformRound_eq (block : Bytes) (v : Words) {i : ℕ} (hi : i < 80) :
    transformRound (expandedWords block) v i = step block v i := by
  have hw : (expandedWords block).getD i 0 = schedule block i := by
    rw [expandedWords, foldl_expand]
    simp [List.getD_eq_getElem?_getD, hi]
  have hf : (if i < 20 then (v.b &&& v.c) ||| (~~~v.b &&& v.d)
      else if i < 40 then v.b ^^^ v.c ^^^ v.d
      else if i < 60 then (v.b &&& v.c) ||| (v.b &&& v.d) ||| (v.c &&& v.d)
      else v.b ^^^ v.c ^^^ v.d) = logical i v.b v.c v.d := by
    rw [or_eq_ch, or_eq_maj, logical]
    split_ifs <;> rfl
  simp only [transformRound, hf, hw, rol_eq_rotateLeft _ (show 5 < 32 by omega),
    rol_eq_rotateLeft _ (show 30 < 32 by omega)]
  rfl

theorem transform_eq (state : Words) (block : Bytes) :
    transform state block = compress state block := by
  have hloop : (List.range 80).foldl (transformRound (expandedWords block)) state =
      (List.range 80).foldl (step block) state :=
    List.foldl_ext _ _ _ fun v i hi => transformRound_eq block v (List.mem_range.mp hi)
  rw [transform, hloop]
  rfl

/-! ### The byte stream -/

/-- All whole blocks of `d` are in the state, and the rest of `d` is in the buffer. -/
structure Filled (d : Bytes) (h : Sha1Context) : Prop where
  state : h.state = hashBlocks d (d.length / 64)
  buffer : h.buffer.take (d.length % 64) = d.drop (64 * (d.length / 64))

/-- The hash object has been fed `d`. -/
structure Absorbed (d : Bytes) (h : Sha1Context) : Prop extends Filled d h where
  count : h.count = d.length % 2 ^ 64

theorem absorbed_init : Absorbed [] .init := ⟨⟨rfl, rfl⟩, rfl⟩

/-- The stored bytes and the new one stand at the front of the buffer. -/
theorem Filled.take_store {d : Bytes} {h : Sha1Context} (hd : Filled d h) (p : UInt8) :
    (h.store (d.length % 64) p).buffer.take (d.length % 64 + 1) =
      d.drop (64 * (d.length / 64)) ++ [p] := by
  have hlt : d.length % 64 < h.buffer.length := by
    rw [h.length_buffer]
    omega
  have hfront : (h.buffer.take (d.length % 64) ++ [p]).length = d.length % 64 + 1 := by
    rw [List.length_append, List.length_take_of_le hlt.le]
    rfl
  change (h.buffer.set (d.length % 64) p).take _ = _
  rw [List.set_eq_take_append_cons_drop, if_pos hlt, ← List.singleton_append,
    ← List.append_assoc, ← hfront, List.take_left, hd.buffer]

/-- A byte that does not complete a block is stored. -/
theorem Filled.store {d : Bytes} {h : Sha1Context} (hd : Filled d h) (p : UInt8)
    (hlt : d.length % 64 + 1 ≠ 64) : Filled (d ++ [p]) (h.store (d.length % 64) p) := by
  have hdiv : (d ++ [p]).length / 64 = d.length / 64 := by
    rw [List.length_append, List.length_singleton]
    omega
  have hmod : (d ++ [p]).length % 64 = d.length % 64 + 1 := by
    rw [List.length_append, List.length_singleton]
    omega
  constructor
  · rw [hdiv, hashBlocks_append (by omega)]
    exact hd.state
  · rw [hdiv, hmod, hd.take_store, List.drop_append_of_le_length (by omega)]

/-- A byte that completes a block is stored and the block is hashed. -/
theorem Filled.flush {d : Bytes} {h : Sha1Context} (hd : Filled d h) (p : UInt8)
    (heq : d.length % 64 + 1 = 64) :
    Filled (d ++ [p]) { h.store (d.length % 64) p with
      state := transform h.state (h.store (d.length % 64) p).buffer } := by
  have hdiv : (d ++ [p]).length / 64 = d.length / 64 + 1 := by
    rw [List.length_append, List.length_singleton]
    omega
  have hmod : (d ++ [p]).length % 64 = 0 := by
    rw [List.length_append, List.length_singleton]
    omega
  -- The buffer is full and holds the block that ends with the new byte.
  have hblock : (h.store (d.length % 64) p).buffer = blockAt (d ++ [p]) (d.length / 64) := by
    have hfull := hd.take_store p
    rw [heq, List.take_of_length_le (h.store _ p).length_buffer.le] at hfull
    rw [hfull, blockAt, List.drop_append_of_le_length (by omega), List.take_of_length_le]
    rw [List.length_append, List.length_drop, List.length_singleton]
    omega
  constructor
  · rw [hdiv, hashBlocks_succ, hashBlocks_append (by omega), ← hd.state, ← hblock]
    exact transform_eq _ _
  · rw [hmod, hdiv, List.drop_eq_nil_of_le]
    · rfl
    · rw [List.length_append, List.length_singleton]
      omega

/-- The loop of `update` absorbs its bytes, at the position where the last call stopped. -/
theorem filled_updateLoop (data : Bytes) {d : Bytes} {h : Sha1Context} (hd : Filled d h) :
    Filled (d ++ data) (Sha1Context.updateLoop data (d.length % 64) h) := by
  -- The induction keeps the index at the number of bytes of the partial block.
  induction data generalizing d h with
  | nil => simpa [Sha1Context.updateLoop] using hd
  | cons p data ih =>
    rw [Sha1Context.updateLoop, ← List.singleton_append, ← List.append_assoc]
    split
    next heq =>
      have hmod : (d ++ [p]).length % 64 = 0 := by
        rw [List.length_append, List.length_singleton]
        omega
      have hnext := ih (hd.flush p heq)
      rwa [hmod] at hnext
    next hne =>
      have hmod : (d ++ [p]).length % 64 = d.length % 64 + 1 := by
        rw [List.length_append, List.length_singleton]
        omega
      have hnext := ih (hd.store p hne)
      rwa [hmod] at hnext

theorem count_updateLoop (data : Bytes) (idx : ℕ) (h : Sha1Context) :
    (Sha1Context.updateLoop data idx h).count = h.count := by
  induction data generalizing idx h with
  | nil => rfl
  | cons p data ih =>
    rw [Sha1Context.updateLoop]
    split <;> exact ih _ _

/-- A call of `update` absorbs its bytes. The counter wraps, but not its last six bits. -/
theorem absorbed_update {d : Bytes} {h : Sha1Context} (hd : Absorbed d h) (data : Bytes) :
    Absorbed (d ++ data) (h.update data) := by
  have hidx : h.count % 64 = d.length % 64 := by
    rw [hd.count]
    omega
  constructor
  · rw [Sha1Context.update, hidx]
    exact filled_updateLoop data ⟨hd.state, hd.buffer⟩
  · rw [Sha1Context.update, count_updateLoop, List.length_append]
    simp only [hd.count]
    omega

/-- The padding loop stores as many zeros as bring the length to 56 modulo 64. -/
theorem absorbed_padLoop {budget zeros : ℕ} {d : Bytes} {h : Sha1Context} (hd : Absorbed d h)
    (hlt : zeros < 64) (hle : zeros ≤ budget) (hmod : (d.length + zeros) % 64 = 56) :
    Absorbed (d ++ List.replicate zeros 0) (Sha1Context.padLoop budget h) := by
  have hcount : h.count % 64 = d.length % 64 := by
    rw [hd.count]
    omega
  induction budget generalizing zeros d h with
  | zero =>
    obtain rfl : zeros = 0 := by omega
    simpa [Sha1Context.padLoop] using hd
  | succ budget ih =>
    rw [Sha1Context.padLoop, hcount]
    split
    next hdone =>
      -- Fewer than 64 zeros are wanted, so that none is missing here.
      obtain rfl : zeros = 0 := by omega
      simpa using hd
    next hmore =>
      obtain ⟨left, rfl⟩ : ∃ left, zeros = left + 1 := ⟨zeros - 1, by omega⟩
      have hnext := absorbed_update hd [0]
      have hlen : (d ++ [0]).length = d.length + 1 := by simp
      rw [List.replicate_succ, ← List.singleton_append, ← List.append_assoc]
      refine ih hnext (by omega) (by omega) (by rw [hlen]; omega) ?_
      rw [hnext.count]
      omega

theorem lenBytes_eq (k bits : ℕ) : Sha1Context.lenBytes k bits = bigEndian k bits := by
  induction k generalizing bits with
  | zero => rfl
  | succ k ih =>
    rw [Sha1Context.lenBytes, bigEndian, ih, Nat.shiftRight_eq_div_pow,
      show (0xFF : ℕ) = 2 ^ 8 - 1 from rfl, Nat.and_two_pow_sub_one_eq_mod]

theorem wordBytes_eq (w : Word) : Sha1Context.wordBytes w = bigEndian 4 w.toNat := by
  have hand : ∀ n : ℕ, n &&& 0xFF = n % 256 := fun n => Nat.and_two_pow_sub_one_eq_mod n 8
  simp only [Sha1Context.wordBytes, List.map_cons, List.map_nil, bigEndian, List.nil_append,
    List.cons_append, BitVec.toNat_ushiftRight, Nat.shiftRight_eq_div_pow, hand,
    Nat.div_div_eq_div_mul]

/-- The digest of what has been absorbed is the one of the standard. -/
theorem finalize_eq_digest {d : Bytes} {h : Sha1Context} (hd : Absorbed d h) :
    h.finalize = digest d := by
  have hbits : h.count * 8 % 2 ^ 64 = d.length * 8 % 2 ^ 64 := by
    rw [hd.count]
    omega
  -- The object absorbs the three pieces of the padding one after another.
  have hone := absorbed_update hd [0x80]
  have hlt : zeros d.length < 64 := by
    unfold zeros
    omega
  have hmod : ((d ++ [0x80] : Bytes).length + zeros d.length) % 64 = 56 := by
    unfold zeros
    simp only [List.length_append, List.length_singleton]
    omega
  have hzeros := absorbed_padLoop hone hlt (show _ ≤ 63 by omega) hmod
  have hall := absorbed_update hzeros (bigEndian 8 (d.length * 8 % 2 ^ 64))
  have hpad : d ++ [0x80] ++ List.replicate (zeros d.length) 0 ++
      bigEndian 8 (d.length * 8 % 2 ^ 64) = pad d := by
    simp [pad]
  rw [hpad] at hall
  have hbytes : Sha1Context.wordBytes = fun w => bigEndian 4 w.toNat := funext wordBytes_eq
  simp only [Sha1Context.finalize, hbits, lenBytes_eq, hall.state, hbytes]
  rfl

/-- The digest of a byte string, fed in two pieces, is the one of the standard. -/
theorem finalize_update_update (m n : Bytes) :
    ((Sha1Context.init.update m).update n).finalize = digest (m ++ n) :=
  finalize_eq_digest (absorbed_update (absorbed_update absorbed_init m) n)

/-- Calls of `update` absorb their strings one after another. -/
theorem absorbed_foldl_update (strings : List Bytes) {d : Bytes} {h : Sha1Context}
    (hd : Absorbed d h) : Absorbed (d ++ strings.flatten) (strings.foldl .update h) := by
  induction strings generalizing d h with
  | nil => simpa using hd
  | cons data strings ih =>
    have hnext := ih (absorbed_update hd data)
    rwa [List.append_assoc] at hnext

/-- A message may be fed in any pieces, also of no bytes: the digest is the one of the standard for
their concatenation. -/
theorem finalize_foldl_update (strings : List Bytes) :
    (strings.foldl .update Sha1Context.init).finalize = digest strings.flatten :=
  finalize_eq_digest (absorbed_foldl_update strings absorbed_init)

end Lundi
