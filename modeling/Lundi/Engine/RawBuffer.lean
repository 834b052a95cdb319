import Lundi.Core.Response
import Lundi.Lib.Refinement
import Lundi.Lib.Region

/-!
# The byte buffers as queues

`engine::write_buffer` and `engine::read_buffer` on their bare fields: a vector and a size that
nothing relates to each other, with sums of `size_t` that wrap around. A copy or a move that leaves
the vector gives nothing, so a run that gives a buffer has stayed inside. Memory does not run out.

Both classes refine a byte queue. `Represents` relates a buffer to the queue it stands for,
`writeStep_refines` and `readStep_refines` say what one operation does, and `buffers_refine_queue`
what a run does, with the serializer as one of the callers. The operations on `ReadBuffer` and
`WriteBuffer`, which carry the invariant as a field, are the same functions while no size reaches
`2 ^ 64`.
-/

namespace Lundi

open Refinement Runs

/-- The fields of `engine::write_buffer` and of `engine::read_buffer`. -/
structure RawBuffer where
  /-- `data_`: the bytes of the vector, used and unused. -/
  data : Bytes
  /-- `size_`: the number of used bytes. -/
  size : ℕ
  deriving DecidableEq

namespace RawBuffer

/-- A fresh buffer with the given capacity. -/
def init (initialCapacity : ℕ) : RawBuffer := ⟨List.replicate initialCapacity 0, 0⟩

/-- The bytes `data()[ 0, size() )`. -/
def contents (b : RawBuffer) : Bytes := b.data.take b.size

/-- `clear`, of either buffer. -/
def clear (b : RawBuffer) : RawBuffer := { b with size := 0 }

/-- `consume`, of either buffer. -/
def consume (b : RawBuffer) (n : ℕ) : Option RawBuffer :=
  if n ≥ b.size then some { b with size := 0 }
  else (Region.move b.data n 0 (b.size - n)).map fun data => ⟨data, b.size - n⟩

/-- A caller copies bytes to `write_pos()`, and advances the size by `n`: `advance` of the write
buffer, `advance_write` of the read buffer. -/
def write (b : RawBuffer) (written : Bytes) (n : ℕ) : Option RawBuffer :=
  (Region.store b.data b.size written).map fun data => ⟨data, wrap (b.size + n)⟩

/-- `std::vector::resize`: the bytes that are added are zero. -/
def resize (data : Bytes) (n : ℕ) : Bytes := data.take n ++ List.replicate (n - data.length) 0

/-- The vector of either buffer grows: it doubles, or jumps to the size that is needed. -/
def grow (b : RawBuffer) (n : ℕ) : RawBuffer :=
  { b with data := resize b.data (max (wrap (b.data.length * 2)) (wrap (b.size + n))) }

/-- `write_buffer::ensure`. -/
def ensure (b : RawBuffer) (additional : ℕ) : RawBuffer :=
  if wrap (b.size + additional) > b.data.length then b.grow additional else b

/-- `write_buffer::append`. -/
def append (b : RawBuffer) (bytes : Bytes) : Option RawBuffer :=
  (b.ensure bytes.length).write bytes bytes.length

/-- `write_buffer::push`. -/
def push (b : RawBuffer) (c : UInt8) : Option RawBuffer := (b.ensure 1).write [c] 1

/-- `read_buffer::write_capacity`. -/
def writeCapacity (b : RawBuffer) : ℕ := wrap (b.data.length + 2 ^ 64 - b.size)

/-- `read_buffer::ensure_write`. -/
def ensureWrite (b : RawBuffer) (n : ℕ) : RawBuffer :=
  if b.writeCapacity < n then b.grow n else b

/-- The buffer is well-formed, and its used bytes are the queue. -/
structure Represents (b : RawBuffer) (queue : Bytes) : Prop where
  /-- The used part lies inside the vector. -/
  size_le : b.size ≤ b.data.length
  /-- The size of the vector is a `size_t`. -/
  data_lt : b.data.length < 2 ^ 64
  /-- The used bytes are those of the queue. -/
  contents_eq : b.contents = queue

theorem represents_init {initialCapacity : ℕ} (h : initialCapacity < 2 ^ 64) :
    (init initialCapacity).Represents [] where
  size_le := Nat.zero_le _
  data_lt := by rwa [init, List.length_replicate]
  contents_eq := by rw [contents, init, List.take_zero]

@[simp]
theorem length_resize (data : Bytes) (n : ℕ) : (resize data n).length = n := by
  simp only [resize, List.length_append, List.length_take, List.length_replicate]
  omega

/-- Growing does not touch the bytes in front. -/
theorem take_resize (data : Bytes) {n k : ℕ} (hn : k ≤ n) (hk : k ≤ data.length) :
    (resize data n).take k = data.take k := by
  rw [resize, List.take_append_of_le_length (by rw [List.length_take]; omega), List.take_take,
    Nat.min_eq_left hn]

namespace Represents

variable {b : RawBuffer} {queue : Bytes} {n : ℕ}

theorem size_eq (h : b.Represents queue) : b.size = queue.length := by
  rw [← h.contents_eq, contents, List.length_take_of_le h.size_le]

theorem clear (h : b.Represents queue) : b.clear.Represents [] where
  size_le := Nat.zero_le _
  data_lt := h.data_lt
  contents_eq := List.take_zero

theorem grow (h : b.Represents queue) (hn : queue.length + n < 2 ^ 64) :
    (b.grow n).Represents queue ∧ queue.length + n ≤ (b.grow n).data.length := by
  -- Where the doubled size wraps around, the size that is needed is the larger one.
  have hlen : (b.grow n).data.length = max (wrap (b.data.length * 2)) (queue.length + n) := by
    rw [RawBuffer.grow, length_resize, h.size_eq, wrap_of_lt hn]
  have hdouble : wrap (b.data.length * 2) < 2 ^ 64 := Nat.mod_lt _ (by decide)
  have hle : queue.length + n ≤ (b.grow n).data.length := hlen ▸ Nat.le_max_right _ _
  refine ⟨⟨?_, ?_, ?_⟩, hle⟩
  · rw [show (b.grow n).size = b.size from rfl, h.size_eq]
    omega
  · rw [hlen]
    exact max_lt hdouble hn
  · have hneeded : b.size ≤ max (wrap (b.data.length * 2)) (wrap (b.size + n)) := by
      rw [h.size_eq, wrap_of_lt hn]
      omega
    exact (take_resize b.data hneeded h.size_le).trans h.contents_eq

theorem ensure (h : b.Represents queue) (hn : queue.length + n < 2 ^ 64) :
    (b.ensure n).Represents queue ∧ queue.length + n ≤ (b.ensure n).data.length := by
  rw [RawBuffer.ensure, h.size_eq, wrap_of_lt hn]
  split
  · exact h.grow hn
  · exact ⟨h, by omega⟩

theorem writeCapacity_eq (h : b.Represents queue) :
    b.writeCapacity = b.data.length - queue.length := by
  have hle := h.size_le
  have hlt := h.data_lt
  rw [RawBuffer.writeCapacity, wrap, h.size_eq] at *
  omega

theorem ensureWrite (h : b.Represents queue) (hn : queue.length + n < 2 ^ 64) :
    (b.ensureWrite n).Represents queue ∧ n ≤ (b.ensureWrite n).writeCapacity := by
  rw [RawBuffer.ensureWrite]
  split
  · obtain ⟨hgrow, hle⟩ := h.grow hn
    rw [hgrow.writeCapacity_eq]
    exact ⟨hgrow, by omega⟩
  · exact ⟨h, by omega⟩

/-- What is written inside the vector is added to the queue, as far as the size advances. -/
theorem write (h : b.Represents queue) {written : Bytes} (hn : n ≤ written.length)
    (hroom : queue.length + written.length ≤ b.data.length) :
    ∃ b', b.write written n = some b' ∧ b'.Represents (queue ++ written.take n) := by
  obtain ⟨data, hstore, hsize⟩ := Region.exists_store (h.size_eq.symm ▸ hroom)
  have hwrap : wrap (b.size + n) = b.size + n := by
    have := h.data_lt
    rw [wrap_of_lt]
    rw [h.size_eq]
    omega
  refine ⟨⟨data, b.size + n⟩, ?_, ?_, ?_, ?_⟩
  · rw [RawBuffer.write, hstore, Option.map_some, hwrap]
  · change b.size + n ≤ data.length
    rw [hsize, h.size_eq]
    omega
  · exact hsize.symm ▸ h.data_lt
  · rw [← h.contents_eq]
    exact Region.take_of_store hstore hn

theorem append (h : b.Represents queue) {bytes : Bytes}
    (hfits : queue.length + bytes.length < 2 ^ 64) :
    ∃ b', b.append bytes = some b' ∧ b'.Represents (queue ++ bytes) := by
  obtain ⟨hensure, hroom⟩ := h.ensure hfits
  have := hensure.write (Nat.le_refl bytes.length) hroom
  rwa [List.take_length] at this

theorem push (h : b.Represents queue) (c : UInt8) (hfits : queue.length + 1 < 2 ^ 64) :
    ∃ b', b.push c = some b' ∧ b'.Represents (queue ++ [c]) := by
  obtain ⟨hensure, hroom⟩ := h.ensure hfits
  exact hensure.write (Nat.le_refl 1) hroom

/-- The bytes behind the consumed ones are moved to the front, over the places of others that are
moved too. -/
theorem consume (h : b.Represents queue) (n : ℕ) :
    ∃ b', b.consume n = some b' ∧ b'.Represents (queue.drop n) := by
  have hsize := h.size_le
  rw [RawBuffer.consume]
  split
  next hall =>
    refine ⟨_, rfl, Nat.zero_le _, h.data_lt, ?_⟩
    rw [List.drop_eq_nil_of_le (h.size_eq ▸ hall)]
    exact List.take_zero
  next hpart =>
    have hsrc : n + (b.size - n) ≤ b.data.length := by omega
    have hdst : 0 + (b.size - n) ≤ b.data.length := by omega
    obtain ⟨data, hmove, hlen, htake⟩ := Region.exists_move hsrc hdst
    refine ⟨⟨data, b.size - n⟩, ?_, ?_, ?_, ?_⟩
    · rw [hmove, Option.map_some]
    · change b.size - n ≤ data.length
      omega
    · exact hlen.symm ▸ h.data_lt
    · rw [Nat.zero_add, List.take_zero, List.nil_append] at htake
      rw [contents, htake, ← h.contents_eq, contents, List.drop_take]

end Represents

end RawBuffer

/-- What a user of a write buffer does. -/
inductive WriteOp
  | append (bytes : Bytes)
  | push (c : UInt8)
  | clear
  | consume (n : ℕ)
  /-- `ensure( room )`, then bytes are copied to `write_pos()`, and the size advances by `n`. -/
  | fill (room : ℕ) (written : Bytes) (n : ℕ)
  deriving DecidableEq

namespace WriteOp

/-- What it does to the queue. -/
def apply (queue : Bytes) : WriteOp → Bytes
  | append bytes => queue ++ bytes
  | push c => queue ++ [c]
  | clear => []
  | consume n => queue.drop n
  | fill _ written n => queue ++ written.take n

/-- The sums stay below `2 ^ 64`, no more is written than there has been made room for, and the size
advances over written bytes only. -/
def Allowed (queue : Bytes) : WriteOp → Prop
  | append bytes => queue.length + bytes.length < 2 ^ 64
  | push _ => queue.length + 1 < 2 ^ 64
  | clear => True
  | consume _ => True
  | fill room written n =>
    queue.length + room < 2 ^ 64 ∧ n ≤ written.length ∧ written.length ≤ room

instance (queue : Bytes) : (op : WriteOp) → Decidable (op.Allowed queue)
  | append bytes => inferInstanceAs (Decidable (queue.length + bytes.length < 2 ^ 64))
  | push _ => inferInstanceAs (Decidable (queue.length + 1 < 2 ^ 64))
  | clear => isTrue trivial
  | consume _ => isTrue trivial
  | fill room written n =>
    inferInstanceAs (Decidable
      (queue.length + room < 2 ^ 64 ∧ n ≤ written.length ∧ written.length ≤ room))

end WriteOp

/-- What a user of a read buffer does. -/
inductive ReadOp
  | ensureWrite (n : ℕ)
  /-- Bytes are copied to `write_pos()`, and `advance_write( n )`. -/
  | write (written : Bytes) (n : ℕ)
  | consume (n : ℕ)
  | clear
  deriving DecidableEq

namespace ReadOp

/-- What it does to the queue. -/
def apply (queue : Bytes) : ReadOp → Bytes
  | ensureWrite _ => queue
  | write written n => queue ++ written.take n
  | consume n => queue.drop n
  | clear => []

/-- The sums stay below `2 ^ 64`, no more is written than `write_capacity()`, and the size advances
over written bytes only. -/
def Allowed (b : RawBuffer) (queue : Bytes) : ReadOp → Prop
  | ensureWrite n => queue.length + n < 2 ^ 64
  | write written n => n ≤ written.length ∧ written.length ≤ b.writeCapacity
  | consume _ => True
  | clear => True

instance (b : RawBuffer) (queue : Bytes) : (op : ReadOp) → Decidable (op.Allowed b queue)
  | ensureWrite n => inferInstanceAs (Decidable (queue.length + n < 2 ^ 64))
  | write written n =>
    inferInstanceAs (Decidable (n ≤ written.length ∧ written.length ≤ b.writeCapacity))
  | consume _ => isTrue trivial
  | clear => isTrue trivial

end ReadOp

namespace RawBuffer

/-- An operation on a write buffer. -/
def writeStep (b : RawBuffer) : WriteOp → Option RawBuffer
  | .append bytes => b.append bytes
  | .push c => b.push c
  | .clear => some b.clear
  | .consume n => b.consume n
  | .fill room written n => (b.ensure room).write written n

/-- An operation on a read buffer. -/
def readStep (b : RawBuffer) : ReadOp → Option RawBuffer
  | .ensureWrite n => some (b.ensureWrite n)
  | .write written n => b.write written n
  | .consume n => b.consume n
  | .clear => some b.clear

/-- A write buffer refines the queue. -/
theorem writeStep_refines :
    Refines writeStep WriteOp.apply (fun _ => WriteOp.Allowed) Represents := by
  intro b queue op h hok
  cases op with
  | append bytes => exact h.append hok
  | push c => exact h.push c hok
  | clear => exact ⟨_, rfl, h.clear⟩
  | consume n => exact h.consume n
  | fill room written n =>
    obtain ⟨hroom, hn, hwritten⟩ := hok
    obtain ⟨hensure, hle⟩ := h.ensure hroom
    exact hensure.write hn (by omega)

/-- A read buffer refines the queue. -/
theorem readStep_refines : Refines readStep ReadOp.apply ReadOp.Allowed Represents := by
  intro b queue op h hok
  cases op with
  | ensureWrite n => exact ⟨_, rfl, (h.ensureWrite hok).1⟩
  | write written n =>
    obtain ⟨hn, hwritten⟩ := hok
    have hsize := h.size_le
    rw [h.writeCapacity_eq] at hwritten
    exact h.write hn (by rw [h.size_eq] at hsize; omega)
  | consume n => exact h.consume n
  | clear => exact ⟨_, rfl, h.clear⟩

end RawBuffer

namespace WriteOp

/-- The operation only adds bytes. -/
def Adds : WriteOp → Prop
  | append _ => True
  | push _ => True
  | _ => False

@[simp]
theorem adds_append (bytes : Bytes) : (append bytes).Adds := trivial

@[simp]
theorem adds_push (c : UInt8) : (push c).Adds := trivial

theorem Adds.apply_eq {op : WriteOp} (h : op.Adds) (queue : Bytes) :
    op.apply queue = queue ++ op.apply [] := by
  cases op with
  | append bytes => rfl
  | push c => rfl
  | clear => exact h.elim
  | consume n => exact h.elim
  | fill room written n => exact h.elim

/-- Operations that only add bytes add the same bytes whatever the queue holds. -/
theorem foldl_apply_eq {ops : List WriteOp} (h : ∀ op ∈ ops, op.Adds) (queue : Bytes) :
    ops.foldl apply queue = queue ++ ops.foldl apply [] := by
  induction ops generalizing queue with
  | nil => simp
  | cons op ops ih =>
    obtain ⟨hop, hops⟩ := List.forall_mem_cons.mp h
    rw [List.foldl_cons, List.foldl_cons, ih hops, ih hops (apply [] op), hop.apply_eq,
      List.append_assoc]

/-- They are allowed if all that they add fits. -/
theorem allowedAlong_of_adds {ops : List WriteOp} (h : ∀ op ∈ ops, op.Adds) {b : RawBuffer}
    {queue : Bytes} (hfits : (ops.foldl apply queue).length < 2 ^ 64) :
    AllowedAlong RawBuffer.writeStep apply (fun _ => Allowed) b queue ops := by
  induction ops generalizing b queue with
  | nil => trivial
  | cons op ops ih =>
    obtain ⟨hop, hops⟩ := List.forall_mem_cons.mp h
    refine ⟨?_, fun b' _ => ih hops hfits⟩
    rw [List.foldl_cons, foldl_apply_eq hops, hop.apply_eq, List.length_append,
      List.length_append] at hfits
    cases op with
    | append bytes =>
      rw [apply, List.nil_append] at hfits
      exact Nat.lt_of_le_of_lt (Nat.le_add_right _ _) hfits
    | push c => exact Nat.lt_of_le_of_lt (Nat.le_add_right _ _) hfits
    | clear => exact hop.elim
    | consume n => exact hop.elim
    | fill room written n => exact hop.elim

end WriteOp

namespace Response

open WriteOp

/-- The calls of `serialize_into` for the status line. -/
def statusCalls (r : Response) : List WriteOp :=
  if r.status = 200 then [.append (ascii "HTTP/1.1 200 OK\r\n")]
  else
    [.append (ascii "HTTP/1.1 "), .append (FastItoa.init.formatted (r.status % 2 ^ 64).toNat),
      .push sp, .append (statusText r.status), .append crlf]

/-- The calls for a preset content type. -/
def presetCalls (r : Response) : List WriteOp :=
  match r.presetCt with
  | .text => [.append (ascii "Content-Type: text/plain; charset=utf-8\r\n")]
  | .json => [.append (ascii "Content-Type: application/json; charset=utf-8\r\n")]
  | .html => [.append (ascii "Content-Type: text/html; charset=utf-8\r\n")]
  | .none => []

/-- The calls for a custom header. -/
def headerCalls (h : ResponseHeader) : List WriteOp :=
  [.append h.name, .append (ascii ": "), .append h.value, .append crlf]

/-- The calls for the generated `Content-Length`. -/
def contentLengthCalls (r : Response) : List WriteOp :=
  if r.hasContentLength then []
  else
    [.append (ascii "Content-Length: "), .append (FastItoa.init.formatted r.body.length),
      .append crlf]

/-- The calls for the generated `Connection`. -/
def connectionCalls (r : Response) : List WriteOp :=
  if r.hasConnection then [] else [.append (ascii "Connection: keep-alive\r\n")]

/-- The calls of `serialize_into` on its buffer, one after the other. -/
def serializeCalls (date : Bytes) (r : Response) : List WriteOp :=
  r.statusCalls ++ [.append (ascii "Server: Lundi\r\nDate: "), .append date, .append crlf] ++
    r.presetCalls ++ r.writtenHeaders.flatMap headerCalls ++ r.contentLengthCalls ++
    r.connectionCalls ++ [.append crlf] ++ if r.body = [] then [] else [.append r.body]

theorem adds_serializeCalls (date : Bytes) (r : Response) :
    ∀ op ∈ r.serializeCalls date, op.Adds := by
  have hstatus : ∀ op ∈ r.statusCalls, op.Adds := by
    unfold statusCalls
    split <;> simp
  have hpreset : ∀ op ∈ r.presetCalls, op.Adds := by
    unfold presetCalls
    split <;> simp
  have hheaders : ∀ op ∈ r.writtenHeaders.flatMap headerCalls, op.Adds := by
    intro op hop
    obtain ⟨h, -, hmem⟩ := List.mem_flatMap.mp hop
    have hheader : ∀ op ∈ headerCalls h, op.Adds := by simp [headerCalls]
    exact hheader op hmem
  have hlength : ∀ op ∈ r.contentLengthCalls, op.Adds := by
    unfold contentLengthCalls
    split <;> simp
  have hconnection : ∀ op ∈ r.connectionCalls, op.Adds := by
    unfold connectionCalls
    split <;> simp
  have hbody : ∀ op ∈ (if r.body = [] then [] else [append r.body]), op.Adds := by
    split <;> simp
  simp only [serializeCalls, List.forall_mem_append]
  exact ⟨⟨⟨⟨⟨⟨⟨hstatus, by simp⟩, hpreset⟩, hheaders⟩, hlength⟩, hconnection⟩,
    by simp⟩, hbody⟩

theorem contents_foldl_headerCalls (hs : List ResponseHeader) (buf : WriteBuffer) :
    (hs.foldl appendHeader buf).contents =
      (hs.flatMap headerCalls).foldl WriteOp.apply buf.contents := by
  induction hs generalizing buf with
  | nil => rfl
  | cons h hs ih => simp [ih, appendHeader, headerCalls, WriteOp.apply]

/-- The serializer of the model adds the bytes that the calls add to the queue. -/
theorem contents_serializeInto_eq_foldl (date : Bytes) (r : Response) (buf : WriteBuffer) :
    (r.serializeInto date buf).contents =
      (r.serializeCalls date).foldl WriteOp.apply buf.contents := by
  have hstatus : ∀ b : WriteBuffer,
      (r.appendStatusLine b).contents = r.statusCalls.foldl WriteOp.apply b.contents := by
    intro b
    unfold appendStatusLine statusCalls
    split <;> simp [WriteOp.apply]
  have hpreset : ∀ b : WriteBuffer,
      (r.appendPreset b).contents = r.presetCalls.foldl WriteOp.apply b.contents := by
    intro b
    unfold appendPreset presetCalls
    cases r.presetCt <;> simp [WriteOp.apply]
  have hlength : ∀ b : WriteBuffer,
      (r.appendContentLength b).contents =
        r.contentLengthCalls.foldl WriteOp.apply b.contents := by
    intro b
    unfold appendContentLength contentLengthCalls
    split <;> simp [WriteOp.apply]
  have hconnection : ∀ b : WriteBuffer,
      (r.appendConnection b).contents = r.connectionCalls.foldl WriteOp.apply b.contents := by
    intro b
    unfold appendConnection connectionCalls
    split <;> simp [WriteOp.apply]
  -- An empty body is not appended, which makes no difference.
  have hbody : ∀ queue : Bytes,
      (if r.body = [] then [] else [append r.body]).foldl WriteOp.apply queue =
        queue ++ r.body := by
    intro queue
    split
    next h => simp [h]
    next => rfl
  simp only [serializeCalls, List.foldl_append, hbody, ← hstatus, List.foldl_cons, List.foldl_nil,
    WriteOp.apply, ← WriteBuffer.contents_append, ← hpreset, ← contents_foldl_headerCalls,
    ← hlength, ← hconnection]
  rfl

/-- The calls add the serialized message to the queue. -/
theorem foldl_serializeCalls (date : Bytes) (r : Response) (queue : Bytes) :
    (r.serializeCalls date).foldl WriteOp.apply queue = queue ++ r.serialize date := by
  rw [foldl_apply_eq (r.adds_serializeCalls date), serialize, contents_serializeInto_eq_foldl,
    WriteBuffer.contents_init]

end Response

namespace RawBuffer

/-- Serializing into a buffer adds the serialized message to its queue. -/
theorem Represents.serialize {b : RawBuffer} {queue : Bytes} (h : b.Represents queue)
    (date : Bytes) (r : Response) (hfits : (queue ++ r.serialize date).length < 2 ^ 64) :
    ∃ b', run writeStep b (r.serializeCalls date) = some b' ∧
      b'.Represents (queue ++ r.serialize date) := by
  rw [← r.foldl_serializeCalls date queue] at hfits ⊢
  exact writeStep_refines.run h (WriteOp.allowedAlong_of_adds (r.adds_serializeCalls date) hfits)

/-- Serializing into the cleared buffer and into a fresh one gives the same bytes. -/
def SerializesAsFresh (b : RawBuffer) : Prop :=
  ∀ (date : Bytes) (r : Response) (capacity : ℕ), capacity < 2 ^ 64 →
    (r.serialize date).length < 2 ^ 64 →
    ∃ reused fresh, run writeStep b.clear (r.serializeCalls date) = some reused ∧
      run writeStep (init capacity) (r.serializeCalls date) = some fresh ∧
      reused.contents = fresh.contents ∧ fresh.contents = r.serialize date

theorem Represents.serializesAsFresh {b : RawBuffer} {queue : Bytes} (h : b.Represents queue) :
    b.SerializesAsFresh := by
  intro date r capacity hcapacity hfits
  obtain ⟨reused, hreused, hrepr⟩ := h.clear.serialize date r hfits
  obtain ⟨fresh, hfresh, hrepr'⟩ := (represents_init hcapacity).serialize date r hfits
  exact ⟨reused, fresh, hreused, hfresh, hrepr.contents_eq.trans hrepr'.contents_eq.symm,
    hrepr'.contents_eq⟩

/-- The buffers refine a byte queue, for every initial capacity and along every run of operations
whose sums fit: no operation leaves the vector, the used bytes are those of the queue, and there is
the room that has been asked for. What is serialized does not depend on what the buffer held. -/
theorem buffers_refine_queue {initialCapacity : ℕ} (hcapacity : initialCapacity < 2 ^ 64) :
    (∀ ops : List WriteOp,
      AllowedAlong writeStep WriteOp.apply (fun _ => WriteOp.Allowed) (init initialCapacity) []
        ops →
      ∃ b, run writeStep (init initialCapacity) ops = some b ∧
        b.Represents (ops.foldl WriteOp.apply []) ∧ b.SerializesAsFresh) ∧
    ∀ ops : List ReadOp,
      AllowedAlong readStep ReadOp.apply ReadOp.Allowed (init initialCapacity) [] ops →
      ∃ b, run readStep (init initialCapacity) ops = some b ∧
        b.Represents (ops.foldl ReadOp.apply []) ∧
        ∀ n, b.size + n < 2 ^ 64 → n ≤ (b.ensureWrite n).writeCapacity := by
  have hinit := represents_init hcapacity
  constructor
  · intro ops hok
    obtain ⟨b, hrun, hrepr⟩ := writeStep_refines.run hinit hok
    exact ⟨b, hrun, hrepr, hrepr.serializesAsFresh⟩
  · intro ops hok
    obtain ⟨b, hrun, hrepr⟩ := readStep_refines.run hinit hok
    refine ⟨b, hrun, hrepr, fun n hn => ?_⟩
    rw [hrepr.size_eq] at hn
    exact (hrepr.ensureWrite hn).2

/-- A buffer without any capacity: it grows for the first bytes, and moves the last of them to the
front. -/
theorem buffers_refine_queue_empty :
    (∃ b, run writeStep (init 0) [.append (ascii "abc"), .consume 2, .fill 4 (ascii "de") 1] =
        some b ∧ b.contents = ascii "cd") ∧
      ∃ b, run readStep (init 0) [.ensureWrite 3, .write (ascii "abc") 3, .consume 1] = some b ∧
        b.contents = ascii "bc" := by
  obtain ⟨hwrite, hread⟩ := buffers_refine_queue (show 0 < 2 ^ 64 by decide)
  constructor
  · obtain ⟨b, hrun, hrepr, -⟩ :=
      hwrite [.append (ascii "abc"), .consume 2, .fill 4 (ascii "de") 1]
        (by decide)
    exact ⟨b, hrun, hrepr.contents_eq⟩
  · obtain ⟨b, hrun, hrepr, -⟩ :=
      hread [.ensureWrite 3, .write (ascii "abc") 3, .consume 1] (by decide)
    exact ⟨b, hrun, hrepr.contents_eq⟩

end RawBuffer

/-! ### The buffers of the other modules -/

/-- Where no size reaches `2 ^ 64`, also when it is doubled, growing is appending zeros. -/
theorem RawBuffer.grow_eq {b : RawBuffer} {n : ℕ} (hdouble : b.data.length * 2 < 2 ^ 64)
    (hn : b.size + n < 2 ^ 64) :
    b.grow n =
      ⟨b.data ++ List.replicate (max (b.data.length * 2) (b.size + n) - b.data.length) 0,
        b.size⟩ := by
  have hle : b.data.length ≤ max (b.data.length * 2) (b.size + n) := by omega
  rw [grow, wrap_of_lt hdouble, wrap_of_lt hn, resize, List.take_of_length_le hle]

/-- A write inside the vector, spelled out. -/
theorem RawBuffer.write_eq {b : RawBuffer} {bytes : Bytes}
    (hroom : b.size + bytes.length ≤ b.data.length) (hlt : b.data.length < 2 ^ 64) :
    b.write bytes bytes.length =
      some ⟨b.data.take b.size ++ bytes ++ b.data.drop (b.size + bytes.length),
        b.size + bytes.length⟩ := by
  rw [write, Region.store_eq_some hroom, Option.map_some, wrap_of_lt (by omega)]

namespace ReadBuffer

/-- The fields of a read buffer. -/
def raw (b : ReadBuffer) : RawBuffer := ⟨b.data, b.size⟩

variable {b : ReadBuffer}

theorem represents_raw (hlt : b.data.length < 2 ^ 64) : b.raw.Represents b.contents :=
  ⟨b.size_le, hlt, rfl⟩

theorem raw_ensureWrite (hdouble : b.data.length * 2 < 2 ^ 64) {n : ℕ} (hn : b.size + n < 2 ^ 64) :
    b.raw.ensureWrite n = (b.ensureWrite n).raw := by
  have hcapacity : b.raw.writeCapacity = b.writeCapacity := by
    rw [(represents_raw (by omega)).writeCapacity_eq, length_contents]
    rfl
  rw [RawBuffer.ensureWrite, hcapacity, ensureWrite]
  split
  · exact RawBuffer.grow_eq hdouble hn
  · rfl

theorem raw_receive (hlt : b.data.length < 2 ^ 64) {chunk : Bytes}
    (hchunk : chunk.length ≤ b.writeCapacity) :
    b.raw.write chunk chunk.length = some (b.receive chunk).raw := by
  have hsize := b.size_le
  have hroom : b.raw.size + chunk.length ≤ b.raw.data.length := by
    rw [writeCapacity] at hchunk
    simp only [raw]
    omega
  rw [RawBuffer.write_eq hroom hlt]
  simp only [raw, receive, List.take_of_length_le hchunk]

theorem raw_consume (n : ℕ) : b.raw.consume n = some (b.consume n).raw := by
  have hsize := b.size_le
  rw [RawBuffer.consume, consume]
  by_cases hall : n ≥ b.size
  · rw [dif_pos hall]
    exact if_pos hall
  · rw [dif_neg hall]
    have hsrc : n + (b.size - n) ≤ b.data.length := by omega
    have hlen : ((b.data.drop n).take (b.size - n)).length = b.size - n :=
      List.length_take_of_le (by rw [List.length_drop]; omega)
    have hmove : Region.move b.data n 0 (b.size - n) =
        some ((b.data.drop n).take (b.size - n) ++ b.data.drop (b.size - n)) := by
      rw [Region.move, Region.load_eq_some hsrc, Option.bind_some,
        Region.store_eq_some (by omega), List.take_zero, List.nil_append, Nat.zero_add, hlen]
    exact (if_neg hall).trans (congrArg (Option.map _) hmove)

theorem raw_clear : b.raw.clear = b.clear.raw := rfl

end ReadBuffer

namespace WriteBuffer

/-- The fields of a write buffer. -/
def raw (b : WriteBuffer) : RawBuffer := ⟨b.data, b.size⟩

variable {b : WriteBuffer}

theorem raw_ensure (hdouble : b.data.length * 2 < 2 ^ 64) {n : ℕ} (hn : b.size + n < 2 ^ 64) :
    b.raw.ensure n = (b.ensure n).raw := by
  rw [RawBuffer.ensure, ensure, show b.raw.size = b.size from rfl, wrap_of_lt hn]
  by_cases hgrow : b.size + n > b.data.length
  · rw [if_pos hgrow]
    exact (if_pos hgrow).trans (RawBuffer.grow_eq hdouble hn)
  · rw [if_neg hgrow]
    exact if_neg hgrow

theorem raw_append (hdouble : b.data.length * 2 < 2 ^ 64) {bytes : Bytes}
    (hfits : b.size + bytes.length < 2 ^ 64) :
    b.raw.append bytes = some (b.append bytes).raw := by
  have hroom := b.le_length_ensure bytes.length
  have hlt : (b.ensure bytes.length).data.length < 2 ^ 64 := by
    rw [ensure]
    split
    · simp only [List.length_append, List.length_replicate]
      omega
    · omega
  rw [RawBuffer.append, raw_ensure hdouble hfits]
  exact RawBuffer.write_eq hroom hlt

theorem raw_clear : b.raw.clear = b.clear.raw := rfl

end WriteBuffer

end Lundi
