import Lundi.Core.FromChars
import Lundi.Core.ParseHeaders
import Lundi.Server.App
import Lundi.Server.ReadHeaders

/-!
# Connections

`app::handle_connection`: one iteration of its loop (`step`) and the loop itself. An iteration
receives a request and responds to it. A run leaves a log with one entry for each request whose
head was accepted, with everything that happened while it was processed.

An iteration takes at least four bytes from the pending ones, so a run is a recursion with the
number of pending bytes as its budget; `runFor_budget` says that a larger budget makes no
difference. The number of requests on a connection is a natural number, which is exact while it
fits an `int`; memory allocation does not fail.
-/

namespace Lundi

/-- What a connection depends on besides the application: the network, the shutdown flag, the
cached date, and the file system with the clocks. Time is counted in socket operations. -/
structure Env where
  net : Network
  shuttingDown : ℕ → Bool
  date : ℕ → Bytes
  world : ℕ → World

/-- The local variables of `handle_connection` at the top of its loop. -/
structure ConnState (σ : Type) where
  socket : Socket
  buffer : ReadBuffer
  outBuf : WriteBuffer
  keepAlive : Bool
  requestCount : ℕ
  /-- The state of the user code. -/
  user : σ

/-- What happens on a connection because of a request. -/
inductive ConnEvent
  /-- The request is handed to the global chain, or to `dispatch` when there is none. -/
  | dispatched (req : Request)
  /-- Something happens in user code or in the static lookup. -/
  | during (e : Event)
  /-- A write to the socket has completed. -/
  | wrote (bytes : Bytes)
  /-- A write to the socket fails or hangs. -/
  | writeFailed

/-- A request whose head was accepted, and what happened because of it. -/
structure Exchange where
  head : Bytes
  request : Request
  events : List ConnEvent

/-- How a connection ends. -/
inductive Exit
  /-- The loop ended or a standard exception was caught; the socket is shut down and closed. -/
  | closed
  /-- An endpoint took over the connection and has returned. -/
  | handedOver
  /-- An operation hangs forever. -/
  | suspended
  /-- An exception that is not a standard one left the coroutine. -/
  | escaped
  /-- The behaviour is undefined. -/
  | undefined
  deriving DecidableEq

/-- What an iteration leads to. -/
inductive Step (σ : Type)
  | next (c : ConnState σ) (x : Exchange)
  | stop (exit : Exit) (x : Option Exchange) (s : Socket)

/-- A request that has been received and is about to be dispatched. In `conn` its head and its
body are in the buffer, and `keepAlive` says whether the loop goes on after it. -/
structure Dispatch (σ : Type) where
  conn : ConnState σ
  head : Bytes
  request : Request
  headerEnd : ℕ
  contentLength : ℕ

/-- What the first half of an iteration leads to: a request to dispatch, or an end. -/
inductive Phase (σ : Type)
  | dispatch (d : Dispatch σ)
  | stop (exit : Exit) (x : Option Exchange) (s : Socket)

/-- The body length that the head of a request declares. -/
inductive Declared
  | absent
  | length (n : ℕ)
  | refused
  deriving DecidableEq

/-- The `Content-Length` decision: the first stored field is read by `from_chars`, which need not
consume its whole value. -/
def declared (opts : ServerOptions) (req : Request) : Declared :=
  match req.findHeader (ascii "content-length") with
  | none => .absent
  | some val =>
    match fromCharsSize val.bytes with
    | .ok (n, _) => if n > opts.maxBodySize then .refused else .length n
    | .error _ => .refused

/-- The part of the body that has not been received is read, next to a timer. -/
def readBody (net : Network) (buffer : ReadBuffer) (headerEnd contentLength : ℕ) :
    Awaitable (Option ReadBuffer) :=
  let bodyAlready := buffer.size - headerEnd
  let bodyRemaining := if contentLength > bodyAlready then contentLength - bodyAlready else 0
  if bodyRemaining > 0 then do
    let buffer := buffer.ensureWrite bodyRemaining
    let bytes ← orTimeout (asyncRead net bodyRemaining)
    pure (bytes.map buffer.receive)
  else pure (some buffer)

/-- `req.body`: a view of a temporary string. -/
def bodyView (buffer : ReadBuffer) (headerEnd contentLength : ℕ) : StringView :=
  ⟨.temporary, 0, (buffer.data.drop headerEnd).take contentLength⟩

/-- The bytes of a response that refuses a request. -/
def errorData (date body : Bytes) (status : ℤ) : Bytes :=
  ((Response.text body status).setHeader (ascii "Connection") (ascii "close")).serialize date

/-- The view of the head in the read buffer. -/
def headView (buffer : ReadBuffer) (headerEnd : ℕ) : StringView :=
  ⟨.readBuffer buffer.generation, 0, buffer.contents.take headerEnd⟩

variable {σ : Type}

namespace ConnState

/-- A fresh connection. -/
def init (user : σ) (incoming : Bytes) : ConnState σ where
  socket := ⟨incoming, [], 0⟩
  buffer := .init 8192
  outBuf := .init 4096
  keepAlive := true
  requestCount := 0
  user := user

/-- The bytes that have not been consumed. -/
def unread (c : ConnState σ) : Bytes := pending c.buffer c.socket

end ConnState

/-- Reading the head: only the first request of a connection has a timer. -/
def readHead (net : Network) (opts : ServerOptions) (c : ConnState σ) :
    Awaitable (ℕ × ReadBuffer) :=
  if c.requestCount = 0 then readHeadersWithTimeout net opts.maxHeaderSize c.buffer
  else readHeaders net opts.maxHeaderSize c.buffer

/-- A refusal is written and the connection is closed. -/
def refuse (env : Env) (head : Bytes) (req : Request) (body : Bytes) (status : ℤ) (s : Socket) :
    Phase σ :=
  let data := errorData (env.date s.now) body status
  match (asyncWrite env.net data).run s with
  | (.done _, s) => .stop .closed (some ⟨head, req, [.wrote data]⟩) s
  | (.raised _, s) => .stop .closed (some ⟨head, req, [.writeFailed]⟩) s
  | (.suspended, s) => .stop .suspended (some ⟨head, req, [.writeFailed]⟩) s

/-- An endpoint takes over the connection. -/
def handOver (env : Env) (head : Bytes) (req : Request) (t : Takeover) (s : Socket) : Phase σ :=
  let started : List ConnEvent := [.wrote t.preamble, .during (.startHandler t.endpoint)]
  match (asyncWrite env.net t.preamble).run s with
  | (.done _, s) =>
    match t.handler.run s with
    | (.done _, s) => .stop .handedOver (some ⟨head, req, started⟩) s
    -- An exception of a stream handler leaves the loop instead of the function.
    | (.raised e, s) =>
      .stop (if t.endpoint = .stream then .closed else .handedOver)
        (some ⟨head, req, started ++ [.during (.raised e)]⟩) s
    | (.suspended, s) => .stop .suspended (some ⟨head, req, started⟩) s
  | (.raised _, s) => .stop .closed (some ⟨head, req, [.writeFailed]⟩) s
  | (.suspended, s) => .stop .suspended (some ⟨head, req, [.writeFailed]⟩) s

/-- The connection is to be closed after this request. -/
def closing (env : Env) (opts : ServerOptions) (c : ConnState σ) (req : Request) : Bool :=
  let clientWantsClose := req.headerEquals (ascii "connection") (ascii "close")
  let hitLimit := opts.maxKeepaliveRequests > 0 ∧ opts.maxKeepaliveRequests ≤ c.requestCount
  clientWantsClose || hitLimit || env.shuttingDown c.socket.now

/-- The body of an ordinary request is received. -/
def receiveBody (env : Env) (opts : ServerOptions) (c : ConnState σ) (headerEnd : ℕ)
    (head : Bytes) (req : Request) : Phase σ :=
  let c := { c with keepAlive := c.keepAlive && !closing env opts c req }
  match declared opts req with
  | .refused => refuse env head req (ascii "Payload Too Large") 413 c.socket
  | .absent => .dispatch ⟨c, head, req, headerEnd, 0⟩
  | .length contentLength =>
    match (readBody env.net c.buffer headerEnd contentLength).run c.socket with
    | (.done (some buffer), s) =>
      .dispatch ⟨{ c with buffer := buffer, socket := s }, head,
        { req with body := bodyView buffer headerEnd contentLength }, headerEnd, contentLength⟩
    | (.done none, s) => refuse env head req (ascii "Request Timeout") 408 s
    | (.raised _, s) => .stop .closed (some ⟨head, req, []⟩) s
    | (.suspended, s) => .stop .suspended (some ⟨head, req, []⟩) s

/-- A request whose head has been read goes to an endpoint, or its body is received. -/
def receiveRequest (env : Env) (opts : ServerOptions) (app : App σ) (c : ConnState σ)
    (headerEnd : ℕ) : Phase σ :=
  let head := headView c.buffer headerEnd
  let req := parseHeaders head
  if req.method.bytes = [] then .stop .closed none c.socket
  else
    let c := { c with requestCount := c.requestCount + 1 }
    match app.takeover env.net (env.date c.socket.now) ⟨c.user, req⟩ with
    | some t => handOver env head.bytes req t c.socket
    | none => receiveBody env opts c headerEnd head.bytes req

/-- The first half of an iteration: everything before the dispatch. -/
def receive (env : Env) (opts : ServerOptions) (app : App σ) (c : ConnState σ) : Phase σ :=
  match (readHead env.net opts c).run c.socket with
  | (.done (headerEnd, buffer), s) =>
    if headerEnd = 0 then .stop .closed none s
    else receiveRequest env opts app { c with buffer := buffer, socket := s } headerEnd
  | (.raised _, s) => .stop .closed none s
  | (.suspended, s) => .stop .suspended none s

/-- The second half: the request is processed, the response written and the request consumed. -/
def respond (env : Env) (app : App σ) (d : Dispatch σ) : Step σ :=
  let c := d.conn
  let t := app.process (env.world c.socket.now) ⟨c.user, d.request⟩
  let events := .dispatched d.request :: t.events.map .during
  match t.outcome with
  | none => .stop .undefined (some ⟨d.head, d.request, events⟩) c.socket
  | some a =>
    match a.result with
    -- The `try` block around the loop catches standard exceptions only.
    | .error e =>
      .stop (if e.isStd then .closed else .escaped) (some ⟨d.head, d.request, events⟩) c.socket
    | .ok res =>
      let res := if c.keepAlive then res else res.setHeader (ascii "Connection") (ascii "close")
      let outBuf := res.serializeInto (env.date c.socket.now) c.outBuf.clear
      match (asyncWrite env.net outBuf.contents).run c.socket with
      | (.done _, s) =>
        let consumed := d.headerEnd + d.contentLength
        .next
          { c with
            socket := s
            buffer := if consumed ≥ c.buffer.size then c.buffer.clear else c.buffer.consume consumed
            outBuf := outBuf
            user := a.user }
          ⟨d.head, d.request, events ++ [.wrote outBuf.contents]⟩
      | (.raised _, s) =>
        .stop .closed (some ⟨d.head, d.request, events ++ [.writeFailed]⟩) s
      | (.suspended, s) =>
        .stop .suspended (some ⟨d.head, d.request, events ++ [.writeFailed]⟩) s

/-- One iteration of the loop. -/
def step (env : Env) (opts : ServerOptions) (app : App σ) (c : ConnState σ) : Step σ :=
  match receive env opts app c with
  | .dispatch d => respond env app d
  | .stop exit x s => .stop exit x s

/-- A connection that has ended. -/
structure Run (σ : Type) where
  log : List Exchange
  exit : Exit
  /-- The state at the top of the last iteration, or behind it when the loop condition failed. -/
  last : ConnState σ
  socket : Socket

/-- The loop, with at most `budget` iterations. -/
def runFor (env : Env) (opts : ServerOptions) (app : App σ) : ℕ → ConnState σ → Run σ
  | 0, c => ⟨[], .suspended, c, c.socket⟩
  | budget + 1, c =>
    if c.keepAlive then
      match step env opts app c with
      | .next c' x =>
        let rest := runFor env opts app budget c'
        { rest with log := x :: rest.log }
      | .stop exit x s => ⟨x.toList, exit, c, s⟩
    else ⟨[], .closed, c, c.socket⟩

/-- `handle_connection`, on a connection over which the client sends these bytes. -/
def handleConnection (env : Env) (opts : ServerOptions) (app : App σ) (user : σ)
    (incoming : Bytes) : Run σ :=
  runFor env opts app (incoming.length + 1) (.init user incoming)

end Lundi
