import Lundi.Engine.Socket
import Lundi.Lib.Hexadecimal
import Lundi.Lib.PrefixCode

/-!
# Chunked bodies

`lundi::chunked_writer`: the chunks that a stream handler writes. A handler gets its writer by
value and may copy it; each copy has a flag of its own. A call that throws may be caught by the
handler, so the calls of a handler are followed one by one with their outcomes.

* `isPrefixCode_chunk`: a text has at most one reading as a sequence of chunks;
* `outgoing_performAll`: what a sequence of calls writes;
* `chunks_eq_complete_iff`: when this is a complete body.
-/

namespace Lundi

/-- `<hex-length>\r\n<data>\r\n`. The numerals of all sizes below `2 ^ 60` fit into `hex_buf`. -/
def chunk (data : Bytes) : Bytes := Hexadecimal.hex data.length ++ crlf ++ data ++ crlf

/-- The terminating zero-length chunk. -/
def terminator : Bytes := ascii "0\r\n\r\n"

/-- `chunked_writer`, without its socket. -/
structure ChunkedWriter where
  /-- `finished_`. -/
  finished : Bool := false
  deriving DecidableEq

namespace ChunkedWriter

variable (net : Network)

/-- `write`. -/
def write (data : Bytes) : Awaitable Unit :=
  if data = [] then pure () else asyncWrite net (chunk data)

/-- `finish`, without the assignment to the flag. -/
def finish (w : ChunkedWriter) : Awaitable Unit :=
  if w.finished then pure () else asyncWrite net terminator

/-- The assignment in `finish`, which comes before the write. -/
def setFinished (_ : ChunkedWriter) : ChunkedWriter := ⟨true⟩

end ChunkedWriter

/-- A call of a handler on one of its writers. -/
inductive ChunkedCall
  | write (data : Bytes)
  | finish (writer : ℕ)
  /-- A copy of a writer, which is a new writer with the same flag. -/
  | copy (writer : ℕ)
  deriving DecidableEq

/-- What comes of a call. -/
inductive ChunkedOutcome
  /-- It returns without a write. -/
  | skipped
  /-- It returns after a write. -/
  | sent
  /-- It throws. -/
  | failed
  deriving DecidableEq

/-- The writers of a handler and the socket. -/
structure StreamState where
  writers : List ChunkedWriter
  socket : Socket

/-- A call with its outcome. -/
abbrev ChunkedTrace := List (ChunkedCall × ChunkedOutcome)

namespace ChunkedCall

/-- The coroutine of a call; a copy is made without one. -/
def coroutine (net : Network) (writers : List ChunkedWriter) : ChunkedCall → Awaitable Unit
  | .write data => ChunkedWriter.write net data
  | .finish w => (writers.getD w ⟨true⟩).finish net
  | .copy _ => pure ()

/-- The call does not reach the socket. -/
def skips (writers : List ChunkedWriter) : ChunkedCall → Bool
  | .write data => data.isEmpty
  | .finish w => (writers.getD w ⟨true⟩).finished
  | .copy _ => true

/-- The writers after a call. -/
def next (writers : List ChunkedWriter) : ChunkedCall → List ChunkedWriter
  | .write _ => writers
  | .finish w => writers.modify w ChunkedWriter.setFinished
  | .copy w => writers ++ (writers[w]?).toList

/-- A call; there is no state behind one that never returns. -/
def perform (net : Network) (c : ChunkedCall) (st : StreamState) :
    Option (ChunkedOutcome × StreamState) :=
  match (c.coroutine net st.writers).run st.socket with
  | (.done (), s) => some (if c.skips st.writers then .skipped else .sent, ⟨c.next st.writers, s⟩)
  | (.raised _, s) => some (.failed, ⟨c.next st.writers, s⟩)
  | (.suspended, _) => none

/-- A sequence of calls, with their outcomes. -/
def performAll (net : Network) : List ChunkedCall → StreamState →
    Option (ChunkedTrace × StreamState)
  | [], st => some ([], st)
  | c :: calls, st =>
    match c.perform net st with
    | none => none
    | some (outcome, st) =>
      (performAll net calls st).map fun r => ((c, outcome) :: r.1, r.2)

/-- The data of the chunk that a call writes; those of the terminator are empty. -/
def data : ChunkedCall → Bytes
  | .write data => data
  | .finish _ | .copy _ => []

end ChunkedCall

/-- The data of the chunks that have been written. -/
def sentChunks (trace : ChunkedTrace) : List Bytes :=
  (trace.filter fun x => x.2 = .sent).map fun x => x.1.data

/-- The data of the non-empty writes. -/
def writtenData (calls : List ChunkedCall) : List Bytes :=
  (calls.map ChunkedCall.data).filter (· ≠ [])

/-- The complete body of a stream: a chunk for each non-empty write, and the terminator. -/
def completeBody (calls : List ChunkedCall) : Bytes :=
  (writtenData calls).flatMap chunk ++ terminator

/-- A call that has written something, or should have. -/
def relevant (x : ChunkedCall × ChunkedOutcome) : Bool := x.2 = .sent || x.1.data ≠ []

/-- Of the calls that have written something or should have, the last one is a `finish`, and the
others are writes; all of them have succeeded. -/
def Terminated (trace : ChunkedTrace) : Prop :=
  ∃ writes writer, trace.filter relevant = writes ++ [(.finish writer, .sent)] ∧
    ∀ x ∈ writes, x.1.data ≠ [] ∧ x.2 = .sent

/-! ### Chunks -/

theorem chunk_nil : chunk [] = terminator := by decide

/-- A text has at most one reading as a sequence of chunks. -/
theorem isPrefixCode_chunk : PrefixCode.IsPrefixCode chunk := by
  -- The numeral and its line break are the header of a chunk: they give the length of the data.
  have hcr : ∀ n : ℕ, cr ∉ Hexadecimal.hex n :=
    fun n hmem => Hexadecimal.forall_mem_hex (p := (· ≠ cr)) (by decide) n cr hmem rfl
  have hlength : ∀ {a b : Bytes}, Hexadecimal.hex a.length ++ crlf =
      Hexadecimal.hex b.length ++ crlf → a.length = b.length :=
    fun h => Hexadecimal.hex_injective (List.append_cancel_right h)
  refine .of_header (fun d => Hexadecimal.hex d.length ++ crlf) (fun d => d ++ crlf)
    (fun d => ?_) (fun d => ?_) ?_ ?_ ?_
  · simp [chunk]
  · simp
  · -- The numeral ends at the first carriage return.
    intro a b s t h
    rw [List.append_assoc, List.append_assoc] at h
    have hhex := PrefixCode.eq_of_append_cons_eq (hcr _) (hcr _) h
    simp only [hhex]
  · intro a b h
    rw [List.length_append, List.length_append, hlength h]
  · intro a b _ h
    exact List.append_cancel_right h

/-! ### What is written -/

namespace ChunkedCall

variable {net : Network}

/-- A call that reaches the socket writes one chunk. -/
theorem coroutine_eq (net : Network) (writers : List ChunkedWriter) (c : ChunkedCall) :
    c.coroutine net writers =
      if c.skips writers then pure () else asyncWrite net (chunk c.data) := by
  cases c with
  | write data =>
    by_cases hdata : data = [] <;>
      simp [coroutine, ChunkedWriter.write, skips, ChunkedCall.data, hdata]
  | finish w =>
    rw [data, chunk_nil]
    rfl
  | copy w => rfl

/-- What comes of a call: it is skipped, or its chunk is written, or nothing is. -/
theorem perform_spec {c : ChunkedCall} {st st' : StreamState} {outcome : ChunkedOutcome}
    (h : c.perform net st = some (outcome, st')) :
    (outcome = .skipped ↔ c.skips st.writers = true) ∧
      st'.socket.outgoing =
        st.socket.outgoing ++ if outcome = .sent then chunk c.data else [] := by
  rw [perform, coroutine_eq] at h
  -- A call that is skipped, a write that completes, and one that does not.
  by_cases hskips : c.skips st.writers = true
  · rw [if_pos hskips, Awaitable.run_pure] at h
    simp only [hskips, if_true, Option.some.injEq, Prod.mk.injEq] at h
    obtain ⟨rfl, rfl⟩ := h
    exact ⟨iff_of_true rfl hskips, (List.append_nil _).symm⟩
  · rw [if_neg hskips] at h
    rcases asyncWrite_cases net (chunk c.data) st.socket with hrun | ⟨result, hresult, hrun⟩
    · rw [hrun] at h
      simp only [hskips, Option.some.injEq, Prod.mk.injEq] at h
      obtain ⟨rfl, rfl⟩ := h
      exact ⟨iff_of_false (by decide) hskips, rfl⟩
    · -- A write that fails leaves nothing on the wire.
      rw [hrun] at h
      cases result with
      | done _ => exact absurd rfl hresult
      | raised e =>
        simp only [Option.some.injEq, Prod.mk.injEq] at h
        obtain ⟨rfl, rfl⟩ := h
        exact ⟨iff_of_false (by decide) hskips, (List.append_nil _).symm⟩
      | suspended => exact absurd h (by simp)

/-- The first call of a sequence, and the others behind it. -/
theorem exists_of_performAll_cons {c : ChunkedCall} {calls : List ChunkedCall}
    {st st' : StreamState} {trace : ChunkedTrace}
    (h : performAll net (c :: calls) st = some (trace, st')) :
    ∃ outcome mid rest, c.perform net st = some (outcome, mid) ∧
      performAll net calls mid = some (rest, st') ∧ trace = (c, outcome) :: rest := by
  rw [performAll] at h
  split at h
  next => exact absurd h (by simp)
  next outcome mid hperform =>
    obtain ⟨⟨rest, last⟩, hrest, heq⟩ := Option.map_eq_some_iff.mp h
    obtain ⟨rfl, rfl⟩ := Prod.mk.inj heq
    exact ⟨outcome, mid, rest, hperform, hrest, rfl⟩

/-- What a sequence of calls writes. -/
theorem outgoing_performAll {calls : List ChunkedCall} {st st' : StreamState}
    {trace : ChunkedTrace} (h : performAll net calls st = some (trace, st')) :
    st'.socket.outgoing = st.socket.outgoing ++ (sentChunks trace).flatMap chunk := by
  induction calls generalizing st trace with
  | nil =>
    obtain ⟨rfl, rfl⟩ := Prod.mk.inj (Option.some_inj.mp h)
    simp [sentChunks]
  | cons c calls ih =>
    obtain ⟨outcome, mid, rest, hperform, hrest, rfl⟩ := exists_of_performAll_cons h
    rw [ih hrest, (perform_spec hperform).2, List.append_assoc, sentChunks, sentChunks]
    by_cases hsent : outcome = .sent <;> simp [hsent]

/-- What the trace says about a call: only a call without data is skipped, and only a `finish`
without data is sent. -/
def Consistent (x : ChunkedCall × ChunkedOutcome) : Prop :=
  (x.2 = .skipped → x.1.data = []) ∧ (x.2 = .sent → x.1.data = [] → ∃ w, x.1 = .finish w)

theorem consistent_of_perform {c : ChunkedCall} {st st' : StreamState}
    {outcome : ChunkedOutcome} (h : c.perform net st = some (outcome, st')) :
    Consistent (c, outcome) := by
  obtain ⟨hskip, -⟩ := perform_spec h
  refine ⟨fun hskipped => ?_, fun hsent hdata => ?_⟩
  · have hskips := hskip.mp hskipped
    cases c with
    | write data => exact List.isEmpty_iff.mp hskips
    | finish w => rfl
    | copy w => rfl
  · -- A call that has written was not skipped, so an empty one is no write.
    have hskips : ¬ c.skips st.writers = true := by
      intro hskips
      rw [hskip.mpr hskips] at hsent
      exact absurd (show ChunkedOutcome.skipped = .sent from hsent) (by decide)
    cases c with
    | write data => exact absurd (List.isEmpty_iff.mpr hdata) hskips
    | finish w => exact ⟨w, rfl⟩
    | copy w => exact absurd rfl hskips

/-- The trace names the calls. -/
theorem map_fst_of_performAll {calls : List ChunkedCall} {st st' : StreamState}
    {trace : ChunkedTrace} (h : performAll net calls st = some (trace, st')) :
    trace.map Prod.fst = calls := by
  induction calls generalizing st trace with
  | nil =>
    obtain ⟨rfl, rfl⟩ := Prod.mk.inj (Option.some_inj.mp h)
    rfl
  | cons c calls ih =>
    obtain ⟨outcome, mid, rest, -, hrest, rfl⟩ := exists_of_performAll_cons h
    rw [List.map_cons, ih hrest]

theorem consistent_of_performAll {calls : List ChunkedCall} {st st' : StreamState}
    {trace : ChunkedTrace} (h : performAll net calls st = some (trace, st')) :
    ∀ x ∈ trace, Consistent x := by
  induction calls generalizing st trace with
  | nil =>
    obtain ⟨rfl, rfl⟩ := Prod.mk.inj (Option.some_inj.mp h)
    exact fun x hx => absurd hx List.not_mem_nil
  | cons c calls ih =>
    obtain ⟨outcome, mid, rest, hperform, hrest, rfl⟩ := exists_of_performAll_cons h
    exact List.forall_mem_cons.mpr ⟨consistent_of_perform hperform, ih hrest⟩

end ChunkedCall

/-! ### Complete bodies -/

/-- Only the relevant calls write chunks. -/
theorem sentChunks_filter_relevant (trace : ChunkedTrace) :
    sentChunks (trace.filter relevant) = sentChunks trace := by
  rw [sentChunks, sentChunks, List.filter_filter]
  congr 2
  funext x
  by_cases h : x.2 = .sent <;> simp [relevant, h]

/-- Only the relevant calls have data. -/
theorem writtenData_filter_relevant (trace : ChunkedTrace) :
    writtenData ((trace.filter relevant).map Prod.fst) = writtenData (trace.map Prod.fst) := by
  induction trace with
  | nil => rfl
  | cons x trace ih =>
    by_cases hx : relevant x = true
    · rw [List.filter_cons_of_pos hx]
      by_cases hdata : x.1.data = [] <;> simpa [writtenData, hdata] using ih
    · have hdata : x.1.data = [] := by
        rw [relevant, Bool.or_eq_true, not_or] at hx
        simpa using hx.2
      rw [List.filter_cons_of_neg hx, ih]
      simp [writtenData, hdata]

theorem writtenData_map_fst (trace : ChunkedTrace) :
    writtenData (trace.map Prod.fst) = (trace.map fun x => x.1.data).filter (· ≠ []) := by
  rw [writtenData, List.map_map]
  rfl

/-- Failed writes have no chunk. -/
theorem sentChunks_filter_sublist (trace : ChunkedTrace) :
    ((sentChunks trace).filter (· ≠ [])).Sublist (writtenData (trace.map Prod.fst)) := by
  rw [writtenData_map_fst]
  exact ((List.filter_sublist).map _).filter _

/-- A relevant call writes a chunk or has data. -/
theorem eq_nil_of_sentChunks_eq_nil {trace : ChunkedTrace}
    (hrelevant : ∀ x ∈ trace, relevant x = true) (hchunks : sentChunks trace = [])
    (hdata : writtenData (trace.map Prod.fst) = []) : trace = [] := by
  rcases trace with _ | ⟨x, rest⟩
  · rfl
  · have hx := hrelevant x List.mem_cons_self
    by_cases hxdata : x.1.data = []
    · have hsent : x.2 = .sent := by simpa [relevant, hxdata] using hx
      exact absurd hchunks (by simp [sentChunks, hsent])
    · exact absurd hdata (by simp [writtenData, hxdata])

/-- Behind an empty chunk at the front, the list of chunks can only be empty. -/
theorem writtenData_eq_nil_of_cons {calls : List ChunkedCall} {chunks : List Bytes}
    (h : [] :: chunks = writtenData calls ++ [[]]) : writtenData calls = [] := by
  rcases hwritten : writtenData calls with _ | ⟨d, ds⟩
  · rfl
  · rw [hwritten, List.cons_append] at h
    have hmem : [] ∈ writtenData calls := by
      rw [hwritten, (List.cons.inj h).1]
      exact List.mem_cons_self
    exact absurd (List.of_mem_filter hmem) (by simp)

/-- A list of chunks that ends with the only empty one. -/
theorem terminated_of_sentChunks_eq {trace : ChunkedTrace}
    (hrelevant : ∀ x ∈ trace, relevant x = true)
    (hconsistent : ∀ x ∈ trace, ChunkedCall.Consistent x)
    (h : sentChunks trace = writtenData (trace.map Prod.fst) ++ [[]]) :
    ∃ writes writer, trace = writes ++ [(.finish writer, .sent)] ∧
      ∀ x ∈ writes, x.1.data ≠ [] ∧ x.2 = .sent := by
  induction trace with
  | nil => exact absurd h (by simp [sentChunks, writtenData])
  | cons x trace ih =>
    obtain ⟨hx, hrest⟩ := List.forall_mem_cons.mp hrelevant
    obtain ⟨hxc, hrestc⟩ := List.forall_mem_cons.mp hconsistent
    by_cases hdata : x.1.data = []
    · -- A chunk without data is the terminator, and nothing relevant comes after it.
      have hsent : x.2 = .sent := by simpa [relevant, hdata] using hx
      obtain ⟨w, hw⟩ := hxc.2 hsent hdata
      have hchunks : [] :: sentChunks trace = writtenData (trace.map Prod.fst) ++ [[]] := by
        simpa [sentChunks, writtenData, hsent, hdata] using h
      have hnone := writtenData_eq_nil_of_cons hchunks
      have hnoChunks : sentChunks trace = [] := by
        rw [hnone] at hchunks
        exact (List.cons.inj hchunks).2
      have htrace := eq_nil_of_sentChunks_eq_nil hrest hnoChunks hnone
      refine ⟨[], w, ?_, fun y hy => absurd hy List.not_mem_nil⟩
      rw [htrace, List.nil_append, ← hw, ← hsent]
    · by_cases hsent : x.2 = .sent
      · have hchunks : sentChunks trace = writtenData (trace.map Prod.fst) ++ [[]] := by
          simpa [sentChunks, writtenData, hsent, hdata] using h
        obtain ⟨writes, w, rfl, hwrites⟩ := ih hrest hrestc hchunks
        exact ⟨x :: writes, w, rfl, List.forall_mem_cons.mpr ⟨⟨hdata, hsent⟩, hwrites⟩⟩
      · -- The chunk of a failed write is missing.
        have hchunks : sentChunks trace =
            x.1.data :: (writtenData (trace.map Prod.fst) ++ [[]]) := by
          simpa [sentChunks, writtenData, hsent, hdata] using h
        have hlen := (sentChunks_filter_sublist trace).length_le
        have hall : (writtenData (trace.map Prod.fst)).filter (· ≠ []) =
            writtenData (trace.map Prod.fst) := by
          rw [writtenData, List.filter_filter]
          simp
        rw [hchunks, List.filter_cons_of_pos (by simpa using hdata), List.filter_append,
          hall] at hlen
        simp at hlen

/-- The calls that reach the socket write a complete body exactly if the relevant ones are
successful writes and then one `finish`. -/
theorem chunks_eq_complete_iff {trace : ChunkedTrace}
    (hconsistent : ∀ x ∈ trace, ChunkedCall.Consistent x) :
    (sentChunks trace).flatMap chunk = completeBody (trace.map Prod.fst) ↔ Terminated trace := by
  have hcomplete : completeBody (trace.map Prod.fst) =
      (writtenData (trace.map Prod.fst) ++ [[]]).flatMap chunk := by
    simp [completeBody, chunk_nil]
  rw [hcomplete, isPrefixCode_chunk.flatMap_injective.eq_iff, ← sentChunks_filter_relevant,
    ← writtenData_filter_relevant]
  constructor
  · intro h
    refine terminated_of_sentChunks_eq (fun x hx => List.of_mem_filter hx) (fun x hx => ?_) h
    exact hconsistent x (List.mem_of_mem_filter hx)
  · rintro ⟨writes, w, htrace, hwrites⟩
    -- The writes have written their data, and the `finish` the terminator.
    have hsent : writes.filter (fun x => x.2 = .sent) = writes :=
      List.filter_eq_self.mpr fun x hx => by simpa using (hwrites x hx).2
    have hdata : (writes.map fun x => x.1.data).filter (· ≠ []) = writes.map fun x => x.1.data := by
      apply List.filter_eq_self.mpr
      intro d hd
      obtain ⟨x, hx, rfl⟩ := List.mem_map.mp hd
      simpa using (hwrites x hx).1
    rw [htrace, sentChunks, writtenData_map_fst, List.filter_append, hsent, List.map_append,
      List.map_append, List.filter_append, hdata]
    simp [ChunkedCall.data]

end Lundi
