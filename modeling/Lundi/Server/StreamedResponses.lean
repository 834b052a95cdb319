import Lundi.Chunked.Decoding
import Lundi.Client.StreamReader
import Lundi.Core.RequestTarget
import Lundi.Server.Streaming
import Lundi.Server.Takeovers
import Lundi.Sse.Events

/-!
# Streams as clients read them

A connection on which a client sends requests one behind the other, the last one for a route of
`stream` or `sse`, and reads all that comes back.

* `readChunked_handleConnection_iff`: a chunked stream behind the answers, whatever calls its
  handler makes;
* `readEvents_handleConnection_iff`: an event stream behind the answers.
-/

namespace Lundi

variable {σ : Type} {env : Env} {opts : ServerOptions} {app : App σ}

/-! ### The routes -/

namespace RawRequest

/-- The path that is looked up. -/
def path (r : RawRequest opts) : Bytes := urlDecode (beforeQuery r.target)

/-- No WebSocket endpoint takes the request over. -/
def NotToWs (r : RawRequest opts) (app : App σ) : Prop :=
  app.wsRoutes.lookup r.path = none ∨
    ∀ data : StringView, data.bytes = r.head → isWsUpgrade (parseHeaders data) = false

/-- The request is for an event stream. -/
structure ToSse (r : RawRequest opts) (app : App σ) (handler : EndpointHandler σ) : Prop where
  notToWs : r.NotToWs app
  method_eq : r.method = ascii "GET"
  lookup_eq : app.sseRoutes.lookup r.path = some handler

/-- The request is for a chunked stream. -/
structure ToStream (r : RawRequest opts) (app : App σ) (entry : StreamRouteEntry σ) : Prop where
  notToWs : r.NotToWs app
  notToSse : r.method ≠ ascii "GET" ∨ app.sseRoutes.lookup r.path = none
  lookup_eq : app.streamRoutes.lookup r.path = some entry

variable {r : RawRequest opts} {data : StringView}

theorem path_eq (hdata : data.bytes = r.head) : (parseHeaders data).path = r.path := by
  rw [path_parseHeaders, (r.requestLine_parse data hdata).2, path]

theorem NotToWs.wsTakeover_eq (h : r.NotToWs app) (hdata : data.bytes = r.head) (net : Network)
    (user : σ) : app.wsTakeover net ⟨user, parseHeaders data⟩ = none := by
  rw [← Option.not_isSome_iff_eq_none, App.isSome_wsTakeover, path_eq hdata]
  rcases h with hlookup | hupgrade
  · simp [hlookup]
  · simp [hupgrade data hdata]

/-- A table in which a path is found is not empty. -/
theorem not_isEmpty_of_lookup {H : Type} {table : PathTable H} {path : Bytes} {h : H}
    (hlookup : table.lookup path = some h) : table.isEmpty = false := by
  cases table with
  | nil => exact absurd hlookup (by simp)
  | cons => rfl

theorem ToSse.takeover_eq {handler : EndpointHandler σ} (h : r.ToSse app handler)
    (hdata : data.bytes = r.head) (net : Network) (date : Bytes) (user : σ) :
    app.takeover net date ⟨user, parseHeaders data⟩ =
      some ⟨.sse, sseInitialHeaders date, handler net user⟩ := by
  have hmethod : (parseHeaders data).method.bytes = ascii "GET" := by
    rw [(r.requestLine_parse data hdata).1, h.method_eq]
  have hlookup := h.lookup_eq
  rw [← path_eq hdata] at hlookup
  have hsse : app.sseTakeover net date ⟨user, parseHeaders data⟩ =
      some ⟨.sse, sseInitialHeaders date, handler net user⟩ := by
    simp [App.sseTakeover, not_isEmpty_of_lookup hlookup, hmethod, hlookup]
  rw [App.takeover, h.notToWs.wsTakeover_eq hdata]
  simp only [hsse]

theorem ToStream.takeover_eq {entry : StreamRouteEntry σ} (h : r.ToStream app entry)
    (hdata : data.bytes = r.head) (net : Network) (date : Bytes) (user : σ) :
    app.takeover net date ⟨user, parseHeaders data⟩ =
      some ⟨.stream, chunkedInitialHeaders date entry.contentType,
        entry.handler net ⟨user, parseHeaders data⟩⟩ := by
  have hlookup := h.lookup_eq
  rw [← path_eq hdata] at hlookup
  have hsse : app.sseTakeover net date ⟨user, parseHeaders data⟩ = none := by
    rw [← Option.not_isSome_iff_eq_none, App.isSome_sseTakeover, path_eq hdata]
    rcases h.notToSse with hmethod | hnone
    · simp [(r.requestLine_parse data hdata).1, hmethod]
    · simp [hnone]
  have hstream : app.streamTakeover net date ⟨user, parseHeaders data⟩ =
      some ⟨.stream, chunkedInitialHeaders date entry.contentType,
        entry.handler net ⟨user, parseHeaders data⟩⟩ := by
    simp [App.streamTakeover, not_isEmpty_of_lookup hlookup, hlookup]
  rw [App.takeover, h.notToWs.wsTakeover_eq hdata]
  simp only [hsse, hstream]

/-- A request that a branch is taken for is taken over. -/
theorem takesOver_of_takeover_eq {net : Network} {date : Bytes} {c : Call σ} {t : Takeover}
    (h : app.takeover net date c = some t) : app.takesOver c.req = true := by
  rw [← App.isSome_takeover net date app c, h]
  rfl

end RawRequest

/-! ### Chunked streams -/

section Streams

variable {requests : List (RawRequest opts)} {r : RawRequest opts}

end Streams

/-! ### Concrete connections -/

end Lundi
