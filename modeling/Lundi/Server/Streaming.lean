import Lundi.Chunked.Writer
import Lundi.Server.ContentLength

/-!
# Streaming responses

The streaming branch of `handle_connection`: the head of the response is written, the handler gets
a `chunked_writer`, and when it returns the connection is closed. The server does not call
`finish`, so the body is complete exactly if the handler has terminated it.

* `MakesCalls`: a handler that returns after a sequence of calls on its writer and its copies;
* `receiveRequest_stream`: what the branch does with such a handler;
* `stream_body_complete_iff`: when the bytes behind the head are a complete body.
-/

namespace Lundi

/-- A handler that is started with the socket `s` makes these calls on its writer and on copies of
it, and returns. -/
def MakesCalls (net : Network) (handler : Awaitable Unit) (s : Socket)
    (calls : List ChunkedCall) (trace : ChunkedTrace) (s' : Socket) : Prop :=
  handler.run s = (.done (), s') ∧
    ∃ writers, ChunkedCall.performAll net calls ⟨[{}], s⟩ = some (trace, ⟨writers, s'⟩)

variable {σ : Type} {env : Env} {opts : ServerOptions} {app : App σ} {c : ConnState σ}

/-- The streaming branch writes the head and leaves the rest to the handler. -/
theorem receiveRequest_stream (opts : ServerOptions) {headerEnd : ℕ} {preamble : Bytes}
    {handler : Awaitable Unit}
    (hmethod : (parseHeaders (headView c.buffer headerEnd)).method.bytes ≠ [])
    (htake : app.takeover env.net (env.date c.socket.now)
      ⟨c.user, parseHeaders (headView c.buffer headerEnd)⟩ = some ⟨.stream, preamble, handler⟩)
    {s s' : Socket} (hwrite : (asyncWrite env.net preamble).run c.socket = (.done (), s))
    (hreturns : handler.run s = (.done (), s')) :
    ∃ x, receiveRequest env opts app c headerEnd = .stop .handedOver (some x) s' := by
  -- Whatever the handler writes is on the socket only; the log says that it was started.
  refine ⟨⟨(headView c.buffer headerEnd).bytes, parseHeaders (headView c.buffer headerEnd),
    [.wrote preamble, .during (.startHandler .stream)]⟩, ?_⟩
  unfold receiveRequest
  simp only
  rw [if_neg hmethod, htake]
  simp only [handOver, hwrite, hreturns]

/-- The bytes behind the head of a streaming response are a complete body, a chunk for each
non-empty write and the terminator, exactly if of the calls of the handler that write something,
or should have, the last one is a `finish` and the others are writes, and all have succeeded. -/
theorem stream_body_complete_iff {headerEnd : ℕ} {preamble : Bytes} {handler : Awaitable Unit}
    (hmethod : (parseHeaders (headView c.buffer headerEnd)).method.bytes ≠ [])
    (htake : app.takeover env.net (env.date c.socket.now)
      ⟨c.user, parseHeaders (headView c.buffer headerEnd)⟩ = some ⟨.stream, preamble, handler⟩)
    {s s' : Socket} (hwrite : (asyncWrite env.net preamble).run c.socket = (.done (), s))
    {calls : List ChunkedCall} {trace : ChunkedTrace}
    (hcalls : MakesCalls env.net handler s calls trace s') :
    ∃ x body, receiveRequest env opts app c headerEnd = .stop .handedOver (some x) s' ∧
      s'.outgoing = c.socket.outgoing ++ preamble ++ body ∧
      (body = completeBody calls ↔ Terminated trace) := by
  obtain ⟨hreturns, writers, htrace⟩ := hcalls
  obtain ⟨x, hstop⟩ := receiveRequest_stream opts hmethod htake hwrite hreturns
  -- Behind the head stand the chunks of the calls that have succeeded.
  refine ⟨x, (sentChunks trace).flatMap chunk, hstop, ?_, ?_⟩
  · rw [ChunkedCall.outgoing_performAll htrace, asyncWrite_sound hwrite]
  · rw [← ChunkedCall.map_fst_of_performAll htrace]
    exact chunks_eq_complete_iff (ChunkedCall.consistent_of_performAll htrace)

/-! ### A concrete connection -/

/-- An application with one stream route. -/
def streamApp (handler : Network → Awaitable Unit) : App Unit :=
  App.empty.stream (ascii "/s") fun net _ => handler net

/-- A connection on which the head of a request for it has been read. -/
def streamConn : ConnState Unit :=
  { ConnState.init () [] with
    buffer := (ReadBuffer.init 8192).receive (ascii "GET /s HTTP/1.1\r\n\r\n") }

/-- The head of a streaming response. -/
def streamHead : Bytes := chunkedInitialHeaders [] (ascii "application/octet-stream")

theorem takeover_streamApp (net : Network) (handler : Network → Awaitable Unit) :
    (streamApp handler).takeover net []
      ⟨(), parseHeaders (headView streamConn.buffer 19)⟩ =
        some ⟨.stream, streamHead, handler net⟩ := by
  have hpath : (parseHeaders (headView streamConn.buffer 19)).path = ascii "/s" := by
    decide +kernel
  have hlookup : (streamApp handler).streamRoutes.lookup (ascii "/s") =
      some ⟨fun net _ => handler net, ascii "application/octet-stream"⟩ := rfl
  rw [App.takeover, show (streamApp handler).wsTakeover net _ = none from rfl]
  simp only
  rw [show (streamApp handler).sseTakeover net [] _ = none from rfl]
  simp only [App.streamTakeover]
  rw [hpath, hlookup]
  rfl

attribute [irreducible] streamHead

/-- The head is written. -/
theorem asyncWrite_streamHead :
    (asyncWrite sampleNetwork streamHead).run streamConn.socket =
      (.done (), ⟨[], streamHead, 1⟩) := by
  have hcalm : sampleNetwork.Calm := fun _ => ⟨4096, rfl⟩
  rw [run_asyncWrite hcalm]
  exact congrArg (fun bytes => (IoResult.done (), (⟨[], bytes, 1⟩ : Socket))) (List.nil_append _)

/-- A handler that returns without a call. The body stays without its terminator. -/
theorem stream_body_incomplete :
    ¬ ∀ (env : Env) (opts : ServerOptions) (app : App Unit) (c : ConnState Unit) (headerEnd : ℕ)
        (preamble : Bytes) (handler : Awaitable Unit) (s s' : Socket) (calls : List ChunkedCall)
        (trace : ChunkedTrace),
      (parseHeaders (headView c.buffer headerEnd)).method.bytes ≠ [] →
      app.takeover env.net (env.date c.socket.now)
        ⟨c.user, parseHeaders (headView c.buffer headerEnd)⟩ = some ⟨.stream, preamble, handler⟩ →
      (asyncWrite env.net preamble).run c.socket = (.done (), s) →
      MakesCalls env.net handler s calls trace s' →
      ∃ x, receiveRequest env opts app c headerEnd = .stop .handedOver (some x) s' ∧
        s'.outgoing = c.socket.outgoing ++ preamble ++ completeBody calls := by
  intro h
  let env : Env := { sampleEnv sampleFiles with date := fun _ => [] }
  obtain ⟨x, -, hbody⟩ := h env {} (streamApp fun _ => pure ()) streamConn 19 streamHead (pure ())
    ⟨[], streamHead, 1⟩ ⟨[], streamHead, 1⟩ [] [] (by decide +kernel)
    (takeover_streamApp env.net fun _ => pure ()) asyncWrite_streamHead ⟨rfl, _, rfl⟩
  -- The terminator is missing, so the lengths differ.
  have hlen : streamHead.length =
      (streamConn.socket.outgoing ++ streamHead ++ completeBody []).length :=
    congrArg List.length hbody
  rw [List.length_append, List.length_append] at hlen
  have hterminator : (completeBody []).length = 5 := rfl
  omega

/-- A handler that writes a chunk and finishes. -/
def sayHello (net : Network) : Awaitable Unit := do
  ChunkedWriter.write net (ascii "hello")
  ChunkedWriter.finish net {}

theorem makesCalls_sayHello (out : Bytes) :
    MakesCalls sampleNetwork (sayHello sampleNetwork) ⟨[], out, 1⟩
      [.write (ascii "hello"), .finish 0] [(.write (ascii "hello"), .sent), (.finish 0, .sent)]
      ⟨[], out ++ chunk (ascii "hello") ++ terminator, 3⟩ := ⟨rfl, _, rfl⟩

/-- The body of this handler. -/
theorem stream_body_hello :
    let calls : List ChunkedCall := [.write (ascii "hello"), .finish 0]
    let trace : ChunkedTrace := [(.write (ascii "hello"), .sent), (.finish 0, .sent)]
    let env : Env := { sampleEnv sampleFiles with date := fun _ => [] }
    ∃ x body, receiveRequest env {} (streamApp sayHello) streamConn 19 =
          .stop .handedOver (some x) ⟨[], streamHead ++ chunk (ascii "hello") ++ terminator, 3⟩ ∧
      streamHead ++ chunk (ascii "hello") ++ terminator = [] ++ streamHead ++ body ∧
      (body = completeBody calls ↔ Terminated trace) := by
  intro calls trace env
  have htake : (streamApp sayHello).takeover env.net (env.date streamConn.socket.now)
      ⟨streamConn.user, parseHeaders (headView streamConn.buffer 19)⟩ =
        some ⟨.stream, streamHead, sayHello sampleNetwork⟩ :=
    takeover_streamApp sampleNetwork sayHello
  exact stream_body_complete_iff (by decide +kernel) htake asyncWrite_streamHead
    (makesCalls_sayHello streamHead)

end Lundi
