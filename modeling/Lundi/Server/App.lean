import Lundi.Middleware.Chain
import Lundi.Router
import Lundi.StaticFiles.Handler
import Lundi.WebSocket.Handshake
import Lundi.Engine.Socket

/-!
# The application

`lundi::app`: registering routes, middleware, endpoints and mounts, and processing a request. An
`App` carries the proof that the objects of its global middleware chain exist.

Handlers and middleware run to their end; what they do to the socket is modelled for the
endpoints that are given one.
-/

namespace Lundi

open Onion

/-- `server_options`, as far as a connection uses it. -/
structure ServerOptions where
  maxBodySize : ℕ := 10 * 1024 * 1024
  maxHeaderSize : ℕ := 64 * 1024
  /-- Requests on one connection; none or less stands for no limit. -/
  maxKeepaliveRequests : ℤ := 100
  /-- The body size is a `size_t`. -/
  maxBodySize_lt : maxBodySize < 2 ^ 64 := by decide

/-- An `unordered_map` from paths. -/
abbrev PathTable (H : Type) := List (Bytes × H)

/-- `table[ path ] = h`. -/
def PathTable.assign {H : Type} (table : PathTable H) (path : Bytes) (h : H) : PathTable H :=
  (path, h) :: table.filter fun entry => entry.1 ≠ path

/-- The coroutine of a WebSocket or SSE endpoint, on a socket of a network. -/
abbrev EndpointHandler (σ : Type) := Network → σ → Awaitable Unit

/-- `stream_route_entry`. -/
structure StreamRouteEntry (σ : Type) where
  handler : Network → Call σ → Awaitable Unit
  contentType : Bytes

/-- What the file system and the clocks are while a request is processed. -/
structure World where
  fs : FileSystem
  clock : Clock

/-- `lundi::app`. -/
structure App (σ : Type) where
  router : Router (NextT σ)
  heap : Heap σ
  middleware : MiddlewareChain
  staticFiles : StaticFileHandler
  sseRoutes : PathTable (EndpointHandler σ)
  wsRoutes : PathTable (EndpointHandler σ)
  streamRoutes : PathTable (StreamRouteEntry σ)
  /-- The objects of the global chain exist. -/
  middleware_alive : ∀ c ∈ middleware.layers, (heap.cells c).isSome

/-- The verbs with a registration function. -/
inductive Verb
  | get | post | put | del | patch
  deriving DecidableEq

/-- The method that a registration function enters. -/
def Verb.method : Verb → Bytes
  | .get => ascii "GET"
  | .post => ascii "POST"
  | .put => ascii "PUT"
  | .del => ascii "DELETE"
  | .patch => ascii "PATCH"

variable {σ : Type}

/-- `compile_route_handler`: the handler behind its middleware, and the heap afterwards. The local
chain is destroyed when the function returns. -/
def compileRouteHandler (heap : Heap σ) (mws : List (Middleware σ)) (handler : NextT σ) :
    NextT σ × Heap σ :=
  if mws.isEmpty then (handler, heap)
  else
    let (chain, heap) := MiddlewareChain.empty.addAll heap mws
    (chain.compile handler, chain.destroy heap)

namespace MiddlewareChain

/-- Adding middlewares appends fresh addresses, behind which the middlewares stand. -/
theorem addAll_spec (chain : MiddlewareChain) (heap : Heap σ) (mws : List (Middleware σ)) :
    (chain.addAll heap mws).1.layers =
        chain.layers ++ (List.range mws.length).map (heap.next + ·) ∧
      (chain.addAll heap mws).2.next = heap.next + mws.length ∧
      (∀ c < heap.next, (chain.addAll heap mws).2.cells c = heap.cells c) ∧
      ((List.range mws.length).map fun i => (chain.addAll heap mws).2.cells (heap.next + i)) =
        mws.map some := by
  induction mws generalizing chain heap with
  | nil => exact ⟨by simp [addAll], rfl, fun _ _ => rfl, rfl⟩
  | cons mw mws ih =>
    obtain ⟨hlayers, hnext, hold, hnew⟩ := ih (chain.add heap mw).1 (heap.alloc mw)
    -- The first middleware takes the next address, the others those behind it.
    have hstep : chain.addAll heap (mw :: mws) = (chain.add heap mw).1.addAll (heap.alloc mw) mws :=
      rfl
    have hsucc : (heap.alloc mw).next = heap.next + 1 := rfl
    rw [hstep]
    refine ⟨?_, ?_, fun c hc => ?_, ?_⟩
    · rw [hlayers, hsucc, List.length_cons, List.range_succ_eq_map, List.map_cons, List.map_map]
      simp [add, Nat.add_assoc, Nat.add_comm 1, Function.comp_def]
    · rw [hnext, hsucc, List.length_cons]
      omega
    · rw [hold c (by omega), Heap.cells_alloc_of_lt hc]
    · rw [List.length_cons, List.range_succ_eq_map, List.map_cons, List.map_map, List.map_cons,
        Nat.add_zero, hold heap.next (by omega), Heap.cells_alloc_next, ← hnew]
      refine congrArg _ (List.map_congr_left fun i _ => ?_)
      simp only [Function.comp_apply, hsucc]
      congr 1
      omega

end MiddlewareChain

/-- Compiling a route handler touches no object that existed before. -/
theorem cells_compileRouteHandler (heap : Heap σ) (mws : List (Middleware σ)) (handler : NextT σ)
    {c : ℕ} (hc : c < heap.next) :
    (compileRouteHandler heap mws handler).2.cells c = heap.cells c := by
  unfold compileRouteHandler
  split
  · rfl
  · obtain ⟨hlayers, -, hold, -⟩ := MiddlewareChain.addAll_spec .empty heap mws
    simp only [MiddlewareChain.destroy]
    -- The local chain owns fresh addresses only.
    rw [Heap.cells_free_of_notMem, hold c hc]
    rw [hlayers]
    intro hmem
    have : ∃ i < mws.length, heap.next + i = c := by simpa [MiddlewareChain.empty] using hmem
    obtain ⟨i, -, rfl⟩ := this
    exact absurd hc (by omega)

namespace App

/-- An application without any registration. -/
def empty : App σ where
  router := ⟨[]⟩
  heap := .empty
  middleware := .empty
  staticFiles := .empty
  sseRoutes := []
  wsRoutes := []
  streamRoutes := []
  middleware_alive := fun _ h => by simp [MiddlewareChain.empty] at h

/-- `get`, `post`, `put`, `del` and `patch`, with and without per-route middleware. -/
def route (app : App σ) (verb : Verb) (pattern : Bytes) (mws : List (Middleware σ))
    (handler : Handler σ) : App σ :=
  let compiled := compileRouteHandler app.heap mws (.inner handler.invoke)
  { app with
    router := app.router.add verb.method pattern compiled.1
    heap := compiled.2
    middleware_alive := fun c hc => by
      have halive := app.middleware_alive c hc
      rwa [cells_compileRouteHandler _ _ _ (app.heap.lt_next c halive)] }

/-- `use`. -/
def use (app : App σ) (mw : Middleware σ) : App σ :=
  let added := app.middleware.add app.heap mw
  { app with
    middleware := added.1
    heap := added.2
    middleware_alive := fun c hc => by
      change ((app.heap.alloc mw).cells c).isSome
      rcases List.mem_append.mp hc with hold | hnew
      · have halive := app.middleware_alive c hold
        rwa [Heap.cells_alloc_of_lt (app.heap.lt_next c halive)]
      · obtain rfl := List.mem_singleton.mp hnew
        rw [Heap.cells_alloc_next]
        rfl }

/-- `sse`. -/
def sse (app : App σ) (path : Bytes) (handler : EndpointHandler σ) : App σ :=
  { app with sseRoutes := app.sseRoutes.assign path handler }

/-- `ws`. -/
def ws (app : App σ) (path : Bytes) (handler : EndpointHandler σ) : App σ :=
  { app with wsRoutes := app.wsRoutes.assign path handler }

/-- `stream`. -/
def stream (app : App σ) (path : Bytes) (handler : Network → Call σ → Awaitable Unit)
    (contentType : Bytes := ascii "application/octet-stream") : App σ :=
  { app with streamRoutes := app.streamRoutes.assign path ⟨handler, contentType⟩ }

/-- `serve_static`. -/
def serveStatic (app : App σ) (fs : FileSystem) (urlPrefix directory : Bytes)
    (options : StaticOptions) : Except Exception (App σ) :=
  match app.staticFiles.mount fs urlPrefix directory options with
  | .error e => .error e
  | .ok mounts => .ok { app with staticFiles := mounts }

/-- `has_middleware_`, as `listen` sets it. -/
def hasMiddleware (app : App σ) : Bool := !app.middleware.layers.isEmpty

end App

/-- A response instead of a standard exception: the `try` blocks of `dispatch`. -/
def catchStd (answer : Exception → Response) (t : Invocation σ) : Invocation σ where
  outcome := t.outcome.map fun a =>
    match a.result with
    | .ok _ => a
    | .error e => if e.isStd then { a with result := .ok (answer e) } else a
  events := t.events

/-- `res.body.clear()`. -/
def clearBody (t : Invocation σ) : Invocation σ where
  outcome := t.outcome.map fun a =>
    { a with result := a.result.map fun res => { res with body := [] } }
  events := t.events

namespace App

/-- The end of `dispatch`: a static file, or 404. -/
def dispatchStatic (w : World) (app : App σ) (c : Call σ) : Invocation σ :=
  let method := c.req.method.bytes
  let notFound : Invocation σ :=
    ⟨some ⟨c.user, c.req, .ok (.text (ascii "Not Found") 404)⟩, []⟩
  if (method = ascii "GET" ∨ method = ascii "HEAD") ∧ app.staticFiles.hasMounts then
    match app.staticFiles.tryServe w.fs w.clock c.req.path c.req with
    | .error e => ⟨some ⟨c.user, c.req, .error e⟩, [.raised e]⟩
    | .ok (some res) =>
      let res := if method = ascii "HEAD" then { res with body := [] } else res
      ⟨some ⟨c.user, c.req, .ok res⟩, [.serveStatic]⟩
    | .ok none => notFound
  else notFound

/-- The middle of `dispatch`: a `HEAD` request falls back to the `GET` routes. -/
def dispatchHead (w : World) (app : App σ) (c : Call σ) : Invocation σ :=
  if c.req.method.bytes = ascii "HEAD" then
    match app.router.resolve (ascii "GET") c.req.path c.req.params with
    | (some handler, params) =>
      catchStd (fun _ => .text [] 500)
        (clearBody (handler.invoke app.heap.cells ⟨c.user, { c.req with params := params }⟩))
    | (none, params) => app.dispatchStatic w ⟨c.user, { c.req with params := params }⟩
  else app.dispatchStatic w c

/-- `dispatch`. -/
def dispatch (w : World) (app : App σ) (c : Call σ) : Invocation σ :=
  match app.router.resolve c.req.method.bytes c.req.path c.req.params with
  | (some handler, params) =>
    catchStd (fun e => .text (ascii "Internal Server Error: " ++ e.what) 500)
      (handler.invoke app.heap.cells ⟨c.user, { c.req with params := params }⟩)
  | (none, params) => app.dispatchHead w ⟨c.user, { c.req with params := params }⟩

/-- `compiled_handler_`, as `listen` sets it. -/
def compiledHandler (w : World) (app : App σ) : NextT σ :=
  if app.hasMiddleware then app.middleware.compile (.inner (app.dispatch w))
  else .inner (app.dispatch w)

/-- A request goes through the global chain, or straight to `dispatch`. -/
def process (w : World) (app : App σ) (c : Call σ) : Invocation σ :=
  if app.hasMiddleware then (app.compiledHandler w).invoke app.heap.cells c
  else app.dispatch w c

/-- Without layers the chain is `dispatch` itself. -/
theorem process_eq_invoke_foldr (w : World) (app : App σ) (c : Call σ) :
    app.process w c =
      (app.middleware.layers.foldr NextT.layer (.inner (app.dispatch w))).invoke
        app.heap.cells c := by
  rw [process]
  cases hmiddleware : app.hasMiddleware with
  | true =>
    rw [if_pos rfl, compiledHandler, if_pos hmiddleware, MiddlewareChain.compile_eq_foldr]
  | false =>
    have hnone : app.middleware.layers = [] := by
      simpa [hasMiddleware] using hmiddleware
    rw [hnone]
    rfl

end App

/-! ### Endpoints that take over the connection -/

/-- `detail::sse_initial_headers`. -/
def sseInitialHeaders (date : Bytes) : Bytes :=
  let buf := WriteBuffer.init 256
  let buf := buf.append (ascii "HTTP/1.1 200 OK\r\n")
  let buf := buf.append (ascii "Server: Lundi\r\nDate: ")
  let buf := buf.append date
  let buf := buf.append (ascii "\r\n")
  let buf := buf.append (ascii "Content-Type: text/event-stream\r\n")
  let buf := buf.append (ascii "Cache-Control: no-cache\r\n")
  let buf := buf.append (ascii "Connection: keep-alive\r\n")
  let buf := buf.append (ascii "Access-Control-Allow-Origin: *\r\n")
  let buf := buf.append (ascii "\r\n")
  buf.contents

/-- `detail::chunked_initial_headers`. -/
def chunkedInitialHeaders (date contentType : Bytes) : Bytes :=
  let buf := WriteBuffer.init 256
  let buf := buf.append (ascii "HTTP/1.1 200 OK\r\n")
  let buf := buf.append (ascii "Server: Lundi\r\nDate: ")
  let buf := buf.append date
  let buf := buf.append (ascii "\r\n")
  let buf := buf.append (ascii "Transfer-Encoding: chunked\r\n")
  let buf := buf.append (ascii "Content-Type: ")
  let buf := buf.append contentType
  let buf := buf.append (ascii "\r\n")
  let buf := buf.append (ascii "Connection: keep-alive\r\n")
  let buf := buf.append (ascii "\r\n")
  buf.contents

/-- A way in which a request takes over its connection: what is written first, and the coroutine
of the endpoint. -/
structure Takeover where
  endpoint : Endpoint
  preamble : Bytes
  handler : Awaitable Unit

namespace App

/-- The WebSocket branch. -/
def wsTakeover (net : Network) (app : App σ) (c : Call σ) : Option Takeover :=
  if !app.wsRoutes.isEmpty && isWsUpgrade c.req then
    (app.wsRoutes.lookup c.req.path).map fun handler =>
      ⟨.webSocket, wsHandshakeResponse c.req, handler net c.user⟩
  else none

/-- The SSE branch. -/
def sseTakeover (net : Network) (date : Bytes) (app : App σ) (c : Call σ) : Option Takeover :=
  if !app.sseRoutes.isEmpty && c.req.method.bytes == ascii "GET" then
    (app.sseRoutes.lookup c.req.path).map fun handler =>
      ⟨.sse, sseInitialHeaders date, handler net c.user⟩
  else none

/-- The chunked streaming branch. -/
def streamTakeover (net : Network) (date : Bytes) (app : App σ) (c : Call σ) :
    Option Takeover :=
  if !app.streamRoutes.isEmpty then
    (app.streamRoutes.lookup c.req.path).map fun entry =>
      ⟨.stream, chunkedInitialHeaders date entry.contentType, entry.handler net c⟩
  else none

/-- The three branches in front of ordinary requests, in their order. -/
def takeover (net : Network) (date : Bytes) (app : App σ) (c : Call σ) : Option Takeover :=
  match app.wsTakeover net c with
  | some t => some t
  | none =>
    match app.sseTakeover net date c with
    | some t => some t
    | none => app.streamTakeover net date c

/-- One of the three branches is taken for this request. -/
def takesOver (app : App σ) (req : Request) : Bool :=
  isWsUpgrade req && (app.wsRoutes.lookup req.path).isSome ||
    req.method.bytes == ascii "GET" && (app.sseRoutes.lookup req.path).isSome ||
    (app.streamRoutes.lookup req.path).isSome

/-- The emptiness tests in front of the lookups decide nothing. -/
theorem lookup_of_isEmpty {H : Type} {table : PathTable H} (h : table.isEmpty = true)
    (path : Bytes) : table.lookup path = none := by
  rw [List.isEmpty_iff.mp h]
  rfl

theorem isSome_wsTakeover (net : Network) (app : App σ) (c : Call σ) :
    (app.wsTakeover net c).isSome =
      (isWsUpgrade c.req && (app.wsRoutes.lookup c.req.path).isSome) := by
  rw [wsTakeover]
  by_cases hempty : app.wsRoutes.isEmpty = true
  · simp [hempty, lookup_of_isEmpty hempty]
  · cases hupgrade : isWsUpgrade c.req <;> simp [hempty]

theorem isSome_sseTakeover (net : Network) (date : Bytes) (app : App σ) (c : Call σ) :
    (app.sseTakeover net date c).isSome =
      (c.req.method.bytes == ascii "GET" && (app.sseRoutes.lookup c.req.path).isSome) := by
  rw [sseTakeover]
  by_cases hempty : app.sseRoutes.isEmpty = true
  · simp [hempty, lookup_of_isEmpty hempty]
  · cases hget : c.req.method.bytes == ascii "GET" <;> simp [hempty]

theorem isSome_streamTakeover (net : Network) (date : Bytes) (app : App σ) (c : Call σ) :
    (app.streamTakeover net date c).isSome = (app.streamRoutes.lookup c.req.path).isSome := by
  rw [streamTakeover]
  by_cases hempty : app.streamRoutes.isEmpty = true
  · simp [hempty, lookup_of_isEmpty hempty]
  · simp [hempty]

/-- Whether a branch is taken depends on the request alone. -/
theorem isSome_takeover (net : Network) (date : Bytes) (app : App σ) (c : Call σ) :
    (app.takeover net date c).isSome = app.takesOver c.req := by
  rw [takesOver, ← isSome_wsTakeover net, ← isSome_sseTakeover net date,
    ← isSome_streamTakeover net date, takeover]
  cases app.wsTakeover net c with
  | some t => rfl
  | none =>
    cases app.sseTakeover net date c with
    | some t => rfl
    | none => rfl

end App

end Lundi
