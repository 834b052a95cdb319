import Lundi.Core.Bytes
import Mathlib.Data.List.Basic

/-!
# The connection buffers

`engine::read_buffer` and `engine::write_buffer`: a `std::vector<char>` whose first `size` bytes
are in use. The vector is modelled with all its bytes, so the stale bytes that `consume` and
`clear` leave behind the used part are there too. Both structures carry the invariant that the
used part lies inside the vector; sizes are natural numbers, which is exact while no sum of sizes
reaches `2 ^ 64`.

A read buffer also counts its reallocations: `generation` names the storage its bytes live in at
present, and every view into an earlier generation points to freed memory.

The byte queue behind a buffer is `contents`, and each operation has one lemma that says what it
does to it.
-/

namespace Lundi

/-- `engine::read_buffer`: bytes received from the socket and not yet consumed. -/
structure ReadBuffer where
  /-- The bytes of the vector, used and unused. -/
  data : Bytes
  /-- The number of used bytes. -/
  size : ℕ
  /-- The number of reallocations so far: the identity of the current storage. -/
  generation : ℕ
  /-- The used part lies inside the vector. -/
  size_le : size ≤ data.length

namespace ReadBuffer

/-- A fresh buffer with the given capacity. -/
def init (initialCapacity : ℕ) : ReadBuffer where
  data := List.replicate initialCapacity 0
  size := 0
  generation := 0
  size_le := Nat.zero_le _

/-- The bytes received and not yet consumed. -/
def contents (b : ReadBuffer) : Bytes := b.data.take b.size

/-- `write_capacity`: the number of bytes that fit behind the used part. -/
def writeCapacity (b : ReadBuffer) : ℕ := b.data.length - b.size

/-- `empty`. -/
def isEmpty (b : ReadBuffer) : Bool := b.size == 0

/-- `ensure_write`: grow the vector, and so move to a new storage, unless `n` bytes fit. -/
def ensureWrite (b : ReadBuffer) (n : ℕ) : ReadBuffer :=
  if b.writeCapacity < n then
    { data := b.data ++ List.replicate (max (b.data.length * 2) (b.size + n) - b.data.length) 0
      size := b.size
      generation := b.generation + 1
      size_le := by
        have := b.size_le
        simp only [List.length_append]
        omega }
  else b

/-- The socket stores `chunk` at `write_pos()`, and `advance_write` counts it. A read never
delivers more than the offered capacity, so no more than that is stored. -/
def receive (b : ReadBuffer) (chunk : Bytes) : ReadBuffer where
  data := b.data.take b.size ++ chunk.take b.writeCapacity ++
    b.data.drop (b.size + (chunk.take b.writeCapacity).length)
  size := b.size + (chunk.take b.writeCapacity).length
  generation := b.generation
  size_le := by
    have := b.size_le
    simp only [List.length_append, List.length_take]
    omega

/-- `consume`: move the bytes behind the first `n` to the front. -/
def consume (b : ReadBuffer) (n : ℕ) : ReadBuffer :=
  if h : n ≥ b.size then
    { b with size := 0, size_le := Nat.zero_le _ }
  else
    -- The places behind the moved bytes keep what they held.
    { data := (b.data.drop n).take (b.size - n) ++ b.data.drop (b.size - n)
      size := b.size - n
      generation := b.generation
      size_le := by
        have := b.size_le
        simp only [List.length_append, List.length_take, List.length_drop]
        omega }

/-- `clear`. -/
def clear (b : ReadBuffer) : ReadBuffer := { b with size := 0, size_le := Nat.zero_le _ }

@[simp]
theorem length_contents (b : ReadBuffer) : b.contents.length = b.size := by
  have := b.size_le
  simp only [contents, List.length_take]
  omega

@[simp]
theorem contents_init (n : ℕ) : (init n).contents = [] := by simp [contents, init]

@[simp]
theorem contents_ensureWrite (b : ReadBuffer) (n : ℕ) :
    (b.ensureWrite n).contents = b.contents := by
  unfold ensureWrite
  split
  · exact List.take_append_of_le_length b.size_le
  · rfl

@[simp]
theorem size_ensureWrite (b : ReadBuffer) (n : ℕ) : (b.ensureWrite n).size = b.size := by
  unfold ensureWrite
  split <;> rfl

/-- After `ensure_write( n )` there is room for `n` bytes. -/
theorem le_writeCapacity_ensureWrite (b : ReadBuffer) (n : ℕ) :
    n ≤ (b.ensureWrite n).writeCapacity := by
  have := b.size_le
  unfold ensureWrite
  split
  · simp only [writeCapacity, List.length_append, List.length_replicate]
    omega
  next h => omega

/-- The storage changes exactly when the requested room is missing. -/
theorem generation_ensureWrite (b : ReadBuffer) (n : ℕ) :
    (b.ensureWrite n).generation = b.generation ↔ n ≤ b.writeCapacity := by
  unfold ensureWrite
  split
  · simp only [Nat.add_eq_left, Nat.one_ne_zero, false_iff]
    omega
  · simp only [true_iff]
    omega

@[simp]
theorem generation_receive (b : ReadBuffer) (chunk : Bytes) :
    (b.receive chunk).generation = b.generation := rfl

/-- A chunk that fits is appended to the byte queue. -/
theorem contents_receive (b : ReadBuffer) {chunk : Bytes} (h : chunk.length ≤ b.writeCapacity) :
    (b.receive chunk).contents = b.contents ++ chunk := by
  -- The chunk stands directly behind the used part.
  have hlen : (b.data.take b.size ++ chunk).length = b.size + chunk.length := by
    have := b.size_le
    simp only [List.length_append, List.length_take]
    omega
  simp only [receive, contents, List.take_of_length_le h]
  rw [← hlen, List.take_left]

@[simp]
theorem contents_clear (b : ReadBuffer) : b.clear.contents = [] := by simp [clear, contents]

@[simp]
theorem contents_consume (b : ReadBuffer) (n : ℕ) :
    (b.consume n).contents = b.contents.drop n := by
  have hsize := b.size_le
  unfold consume
  split
  next h =>
    rw [List.drop_eq_nil_of_le (by simpa using h)]
    simp [contents]
  next h =>
    rw [contents, contents, List.take_append_of_le_length (by
      simp only [List.length_take, List.length_drop]; omega), List.take_take, Nat.min_self,
      List.drop_take]

/-- The used part is what `contents` reads, wherever a view into it starts. -/
theorem take_drop_data (b : ReadBuffer) {offset length : ℕ} (h : offset + length ≤ b.size) :
    (b.data.drop offset).take length = (b.contents.drop offset).take length := by
  rw [contents, List.drop_take, List.take_take, Nat.min_eq_left (by omega)]

end ReadBuffer

/-- `engine::write_buffer`: the serialized response that is about to be written. -/
structure WriteBuffer where
  /-- The bytes of the vector, used and unused. -/
  data : Bytes
  /-- The number of used bytes. -/
  size : ℕ
  /-- The used part lies inside the vector. -/
  size_le : size ≤ data.length

namespace WriteBuffer

/-- A fresh buffer with the given capacity. -/
def init (initialCapacity : ℕ) : WriteBuffer where
  data := List.replicate initialCapacity 0
  size := 0
  size_le := Nat.zero_le _

/-- The serialized bytes. -/
def contents (b : WriteBuffer) : Bytes := b.data.take b.size

/-- `ensure`: grow the vector unless `additional` bytes fit. -/
def ensure (b : WriteBuffer) (additional : ℕ) : WriteBuffer :=
  if b.size + additional > b.data.length then
    { data := b.data ++
        List.replicate (max (b.data.length * 2) (b.size + additional) - b.data.length) 0
      size := b.size
      size_le := by
        have := b.size_le
        simp only [List.length_append]
        omega }
  else b

theorem le_length_ensure (b : WriteBuffer) (n : ℕ) :
    (b.ensure n).size + n ≤ (b.ensure n).data.length := by
  unfold ensure
  split
  · simp only [List.length_append, List.length_replicate]
    omega
  · omega

/-- `append`: make room, then copy the bytes behind the used part. -/
def append (b : WriteBuffer) (bytes : Bytes) : WriteBuffer where
  data := (b.ensure bytes.length).data.take (b.ensure bytes.length).size ++ bytes ++
    (b.ensure bytes.length).data.drop ((b.ensure bytes.length).size + bytes.length)
  size := (b.ensure bytes.length).size + bytes.length
  size_le := by
    have := b.le_length_ensure bytes.length
    simp only [List.length_append, List.length_take, List.length_drop]
    omega

/-- `push`: append a single byte. -/
def push (b : WriteBuffer) (c : UInt8) : WriteBuffer := b.append [c]

/-- `clear`. -/
def clear (b : WriteBuffer) : WriteBuffer := { b with size := 0, size_le := Nat.zero_le _ }

@[simp]
theorem contents_ensure (b : WriteBuffer) (n : ℕ) : (b.ensure n).contents = b.contents := by
  unfold ensure
  split
  · exact List.take_append_of_le_length b.size_le
  · rfl

@[simp]
theorem contents_append (b : WriteBuffer) (bytes : Bytes) :
    (b.append bytes).contents = b.contents ++ bytes := by
  -- There is room for the bytes, so nothing of the used part is overwritten.
  have hlen : ((b.ensure bytes.length).data.take (b.ensure bytes.length).size ++ bytes).length =
      (b.ensure bytes.length).size + bytes.length := by
    have := (b.ensure bytes.length).size_le
    simp only [List.length_append, List.length_take]
    omega
  rw [← b.contents_ensure bytes.length]
  simp only [append, contents]
  rw [← hlen, List.take_left]

@[simp]
theorem contents_push (b : WriteBuffer) (c : UInt8) :
    (b.push c).contents = b.contents ++ [c] := b.contents_append [c]

@[simp]
theorem contents_clear (b : WriteBuffer) : b.clear.contents = [] := by simp [clear, contents]

@[simp]
theorem contents_init (n : ℕ) : (init n).contents = [] := by simp [contents, init]

end WriteBuffer

end Lundi
