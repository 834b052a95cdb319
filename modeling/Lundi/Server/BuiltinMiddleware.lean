import Lundi.Server.DuplicateFields

/-!
# The built-in middleware

`cors` and `logger`, as members of the global chain of an application.

* `Middleware.Forwards`: a layer that passes requests on and at most adds headers to what is
  answered, as `logger` does;
* `sharesOrigin_process`: what a chain with `cors` in it, behind such layers, answers;
* `sharesOrigin_handleConnection`: every run of a connection.
-/

namespace Lundi

open Onion Decimal

variable {σ : Type}

/-! ### CORS -/

/-- `cors_options`. -/
structure CorsOptions where
  allowOrigin : Bytes := ascii "*"
  allowMethods : Bytes := ascii "GET, POST, PUT, DELETE, PATCH, OPTIONS"
  allowHeaders : Bytes := ascii "Content-Type, Authorization"
  maxAge : ℤ := 86400

namespace CorsOptions

/-- The header that every answer gets. -/
def originHeader (cfg : CorsOptions) : ResponseHeader :=
  ⟨ascii "Access-Control-Allow-Origin", cfg.allowOrigin⟩

/-- The answer to a preflight request. -/
def preflight (cfg : CorsOptions) : Response :=
  let res : Response := { status := 204 }
  let res := res.setHeader (ascii "Access-Control-Allow-Origin") cfg.allowOrigin
  let res := res.setHeader (ascii "Access-Control-Allow-Methods") cfg.allowMethods
  let res := res.setHeader (ascii "Access-Control-Allow-Headers") cfg.allowHeaders
  res.setHeader (ascii "Access-Control-Max-Age") (signedDecimal cfg.maxAge)

end CorsOptions

/-- `cors`. -/
def cors (cfg : CorsOptions) : Middleware σ := fun c =>
  if c.req.method.bytes = ascii "OPTIONS" then .finish ⟨c.user, c.req, .ok cfg.preflight⟩
  else
    .call c fun a =>
      .finish { a with
        result := a.result.map fun res =>
          res.setHeader (ascii "Access-Control-Allow-Origin") cfg.allowOrigin }

/-! ### Logger -/

/-- What the process keeps for `logger`: a clock in microseconds and the standard output. -/
structure Console (σ : Type) where
  now : σ → ℕ
  print : Bytes → σ → σ

/-- The line that `logger` prints. -/
def logLine (method path : Bytes) (status : ℤ) (us : ℕ) : Bytes :=
  ascii "[lundi] " ++ method ++ ascii " " ++ path ++ [32, 0xE2, 0x86, 0x92, 32] ++
    signedDecimal status ++ ascii " (" ++ decimal us ++ [0xCE, 0xBC] ++ ascii "s)\n"

/-- `logger`. The method and the path are read before the request is passed on. -/
def logger (console : Console σ) : Middleware σ := fun c =>
  let start := console.now c.user
  let method := c.req.method.bytes
  let path := c.req.rawPath.bytes
  .call c fun a =>
    match a.result with
    | .ok res =>
      let us := console.now a.user - start
      .finish { a with user := console.print (logLine method path res.status us) a.user }
    | .error _ => .finish a

/-! ### Layers that pass requests on -/

/-- A result with some more headers; an exception stays what it is. -/
def Extends (inside outside : Except Exception Response) : Prop :=
  ∃ extra, outside = inside.map (·.withHeaders extra)

/-- A middleware that passes every request on once, with its method, and at most adds headers to
what is answered. -/
def Middleware.Forwards (m : Middleware σ) : Prop :=
  ∀ c, ∃ c' resume, m c = .call c' resume ∧ c'.req.method.bytes = c.req.method.bytes ∧
    ∀ a, ∃ a', resume a = .finish a' ∧ Extends a.result a'.result

theorem Extends.refl (result : Except Exception Response) : Extends result result :=
  ⟨[], by cases result <;> rfl⟩

theorem Extends.trans {inside middle outside : Except Exception Response}
    (h : Extends inside middle) (h' : Extends middle outside) : Extends inside outside := by
  obtain ⟨extra, rfl⟩ := h
  obtain ⟨extra', rfl⟩ := h'
  refine ⟨extra ++ extra', ?_⟩
  cases inside with
  | error e => rfl
  | ok res => exact congrArg Except.ok (Response.withHeaders_append _ _ _).symm

theorem forwards_logger (console : Console σ) : (logger console).Forwards := by
  refine fun c => ⟨c, _, rfl, rfl, fun a => ?_⟩
  obtain ⟨user, req, result⟩ := a
  cases result with
  | ok res => exact ⟨_, rfl, .refl _⟩
  | error e => exact ⟨_, rfl, .refl _⟩

/-- A layer that adds headers forwards. -/
theorem forwards_adding (extra : List ResponseHeader) :
    (BlindLayer.adding extra : BlindLayer σ).toMiddleware.Forwards := by
  refine fun c => ⟨c, _, rfl, rfl, fun a => ⟨_, rfl, extra, ?_⟩⟩
  obtain ⟨user, req, result⟩ := a
  cases result with
  | error e => rfl
  | ok res =>
    -- The body is left out of what the layer sees, and put in again.
    change Except.ok { ({ res with body := [] } : Response).withHeaders extra with
      body := res.body } = Except.ok (res.withHeaders extra)
    rw [res.withHeaders_setBody, ← res.body_withHeaders extra]

/-- A call of a layer that forwards: what is inside is called once, with the same method. -/
theorem Middleware.Forwards.invoke {cells : ℕ → Option (Middleware σ)} {cell : ℕ}
    {m : Middleware σ} (hm : m.Forwards) (hcell : cells cell = some m) (prev : NextT σ)
    (c : Call σ) :
    ∃ c', c'.req.method.bytes = c.req.method.bytes ∧
      ((((NextT.layer cell prev).invoke cells c).outcome = none ∧
          (prev.invoke cells c').outcome = none) ∨
        ∃ a a', (prev.invoke cells c').outcome = some a ∧ Extends a.result a'.result ∧
          (NextT.layer cell prev).invoke cells c =
            ⟨some a', .enterLayer cell :: .callNext cell ::
              ((prev.invoke cells c').events ++ raisedEvents a')⟩) := by
  obtain ⟨c', resume, hbody, hmethod, hresume⟩ := hm c
  refine ⟨c', hmethod, ?_⟩
  rw [NextT.invoke, hcell]
  dsimp only
  rw [hbody, Body.run]
  cases houtcome : (prev.invoke cells c').outcome with
  | none => exact Or.inl ⟨rfl, rfl⟩
  | some a =>
    obtain ⟨a', hfinish, hextends⟩ := hresume a
    refine Or.inr ⟨a, a', rfl, hextends, ?_⟩
    simp only [hfinish, Body.run]

/-! ### The chain -/

/-- A call is answered as `cors` wants it: a preflight request by `cors` itself, before anything
inside is reached, and other requests with the origin header. What stands around `cors` may add
headers. -/
structure SharesOrigin (cfg : CorsOptions) (reached : List ℕ) (method : Bytes)
    (t : Invocation σ) : Prop where
  preflight : method = ascii "OPTIONS" →
    (∃ a, t.outcome = some a ∧ Extends (.ok cfg.preflight) a.result) ∧
      ∀ e ∈ t.events, ∃ c ∈ reached, e = .enterLayer c ∨ e = .callNext c
  ordinary : method ≠ ascii "OPTIONS" → ∀ a, t.outcome = some a →
    ∃ inside : Except Exception Response,
      Extends (inside.map (·.withHeaders [cfg.originHeader])) a.result

/-- `cors` itself. -/
theorem sharesOrigin_cors {cells : ℕ → Option (Middleware σ)} {cell : ℕ} {cfg : CorsOptions}
    (hcell : cells cell = some (cors cfg)) (prev : NextT σ) (c : Call σ) :
    SharesOrigin cfg [cell] c.req.method.bytes ((NextT.layer cell prev).invoke cells c) := by
  rw [NextT.invoke, hcell]
  dsimp only
  refine ⟨fun hoptions => ?_, fun hother a ha => ?_⟩
  · rw [cors, if_pos hoptions]
    exact ⟨⟨_, rfl, .refl _⟩, by simp [Body.run, raisedEvents]⟩
  · rw [cors, if_neg hother, Body.run] at ha
    cases hinside : (prev.invoke cells c).outcome with
    | none =>
      rw [hinside] at ha
      exact absurd ha (by simp)
    | some b =>
      -- The answer from inside gets the header, an exception passes.
      rw [hinside] at ha
      obtain rfl := Option.some_inj.mp ha
      exact ⟨b.result, .refl _⟩

/-- Another layer around it changes nothing. -/
theorem SharesOrigin.layer {cells : ℕ → Option (Middleware σ)} {cell : ℕ} {m : Middleware σ}
    (hm : m.Forwards) (hcell : cells cell = some m) {cfg : CorsOptions} {reached : List ℕ}
    {prev : NextT σ}
    (hprev : ∀ c, SharesOrigin cfg reached c.req.method.bytes (prev.invoke cells c))
    (c : Call σ) :
    SharesOrigin cfg (cell :: reached) c.req.method.bytes
      ((NextT.layer cell prev).invoke cells c) := by
  obtain ⟨c', hmethod, hcall⟩ := hm.invoke hcell prev c
  have hinside := hprev c'
  rw [hmethod] at hinside
  refine ⟨fun hoptions => ?_, fun hother a ha => ?_⟩
  · obtain ⟨⟨b, hb, hpreflight⟩, hevents⟩ := hinside.preflight hoptions
    rcases hcall with ⟨-, hnone⟩ | ⟨b', a, hb', hextends, hcall⟩
    · rw [hb] at hnone
      exact absurd hnone (by simp)
    rw [hb] at hb'
    obtain rfl := Option.some_inj.mp hb'
    have hanswer := hpreflight.trans hextends
    rw [hcall]
    refine ⟨⟨a, rfl, hanswer⟩, fun e he => ?_⟩
    -- The answer is a response with more headers, so no exception passes the layer.
    have hquiet : raisedEvents a = [] := by
      obtain ⟨extra, hresult⟩ := hanswer
      rw [raisedEvents, hresult]
      rfl
    rw [hquiet, List.append_nil] at he
    rcases List.mem_cons.mp he with rfl | he
    · exact ⟨cell, List.mem_cons_self, Or.inl rfl⟩
    rcases List.mem_cons.mp he with rfl | he
    · exact ⟨cell, List.mem_cons_self, Or.inr rfl⟩
    · obtain ⟨c, hc, he⟩ := hevents e he
      exact ⟨c, List.mem_cons_of_mem _ hc, he⟩
  · rcases hcall with ⟨hnone, -⟩ | ⟨b, b', hb, hextends, hcall⟩
    · rw [ha] at hnone
      exact absurd hnone (by simp)
    · rw [hcall] at ha
      obtain rfl := Option.some_inj.mp ha
      obtain ⟨inside, hheader⟩ := hinside.ordinary hother b hb
      exact ⟨inside, hheader.trans hextends⟩

variable {app : App σ} {w : World}

/-- A chain with `cors` in it, behind layers that forward. The induction is on these layers. -/
theorem sharesOrigin_process {cfg : CorsOptions} {outer inner : List ℕ} {cell : ℕ}
    (hlayers : app.middleware.layers = outer ++ cell :: inner)
    (houter : ∀ c ∈ outer, ∃ m, app.heap.cells c = some m ∧ m.Forwards)
    (hcell : app.heap.cells cell = some (cors cfg)) (c : Call σ) :
    SharesOrigin cfg (outer ++ [cell]) c.req.method.bytes (app.process w c) := by
  rw [App.process_eq_invoke_foldr, hlayers]
  clear hlayers
  induction outer generalizing c with
  | nil => exact sharesOrigin_cors hcell _ c
  | cons first outer ih =>
    obtain ⟨⟨m, hfirst, hm⟩, hrest⟩ := List.forall_mem_cons.mp houter
    exact SharesOrigin.layer hm hfirst (ih hrest) c

/-! ### A connection -/

variable {env : Env} {opts : ServerOptions}

/-- A request was answered as `cors` wants it: a preflight request without anything behind `cors`
having a part in it, and every request with the origin header on the wire, unless user code has
broken the count of the headers, by which they are written. -/
structure Exchange.SharesOrigin (env : Env) (app : App σ) (cfg : CorsOptions) (reached : List ℕ)
    (x : Exchange) : Prop where
  untouched : x.request.method.bytes = ascii "OPTIONS" → ∀ e, .during e ∈ x.events →
    ∃ c ∈ reached, e = .enterLayer c ∨ e = .callNext c
  preflight : x.request.method.bytes = ascii "OPTIONS" → ∀ bytes, .wrote bytes ∈ x.events →
    ∃ extra now, bytes = (cfg.preflight.withHeaders extra).serialize (env.date now)
  header : ∀ bytes, .wrote bytes ∈ x.events → ∃ now user res keepAlive,
    HasResponse (app.process (env.world now) ⟨user, x.request⟩) res ∧
      bytes = (res.withHeaders (connectionHeaders keepAlive)).serialize (env.date now) ∧
      (res.Counted → (ascii "Access-Control-Allow-Origin", cfg.allowOrigin) ∈
        (res.withHeaders (connectionHeaders keepAlive)).headFields (env.date now))

/-- An answer to which the header has been added carries it on the wire, whatever is added later. -/
theorem mem_headFields_withHeaders {inside : Response} {cfg : CorsOptions}
    {extra : List ResponseHeader}
    (hcounted : (inside.withHeaders (cfg.originHeader :: extra)).Counted)
    (later : List ResponseHeader) (date : Bytes) :
    (ascii "Access-Control-Allow-Origin", cfg.allowOrigin) ∈
      ((inside.withHeaders (cfg.originHeader :: extra)).withHeaders later).headFields date := by
  have hinside := (Response.counted_withHeaders_iff _).mp hcounted
  rw [Response.headFields, Response.customFields_withHeaders hcounted,
    Response.customFields_withHeaders hinside]
  simp [CorsOptions.originHeader]

/-- An answer that extends a response. -/
theorem HasResponse.eq_withHeaders {t : Invocation σ} {a : Answer σ} {inside res : Response}
    (ha : t.outcome = some a) (hextends : Extends (.ok inside) a.result)
    (hres : HasResponse t res) :
    ∃ extra, res = inside.withHeaders extra := by
  obtain ⟨a', ha', hok⟩ := hres
  rw [ha] at ha'
  obtain rfl := Option.some_inj.mp ha'
  obtain ⟨extra, hextra⟩ := hextends
  rw [hok] at hextra
  exact ⟨extra, Except.ok.inj hextra⟩

/-- The answer to a preflight request has the header as well. -/
theorem CorsOptions.exists_preflight_eq (cfg : CorsOptions) :
    ∃ (res : Response) (extra : _), cfg.preflight = res.withHeaders (cfg.originHeader :: extra) :=
  ⟨{ status := 204 }, [⟨ascii "Access-Control-Allow-Methods", cfg.allowMethods⟩,
    ⟨ascii "Access-Control-Allow-Headers", cfg.allowHeaders⟩,
    ⟨ascii "Access-Control-Max-Age", signedDecimal cfg.maxAge⟩], rfl⟩

/-- A response that `cors` has let through has the header. -/
theorem SharesOrigin.eq_withHeaders {cfg : CorsOptions} {reached : List ℕ} {method : Bytes}
    {t : Invocation σ} (h : SharesOrigin cfg reached method t) {res : Response}
    (hres : HasResponse t res) :
    ∃ (inside : Response) (extra : _), res = inside.withHeaders (cfg.originHeader :: extra) := by
  by_cases hoptions : method = ascii "OPTIONS"
  · obtain ⟨⟨a, ha, hextends⟩, -⟩ := h.preflight hoptions
    obtain ⟨extra, rfl⟩ := hres.eq_withHeaders ha hextends
    obtain ⟨inside, extra', hpreflight⟩ := cfg.exists_preflight_eq
    exact ⟨inside, extra' ++ extra, by
      rw [hpreflight, ← Response.withHeaders_append, List.cons_append]⟩
  · obtain ⟨a, ha, hok⟩ := hres
    obtain ⟨inside, extra, hextra⟩ := h.ordinary hoptions a ha
    rw [hok] at hextra
    -- An exception from inside would still be one.
    cases inside with
    | error e => exact absurd hextra (by simp [Except.map])
    | ok inside =>
      refine ⟨inside, extra, ?_⟩
      rw [← List.singleton_append, Response.withHeaders_append]
      exact Except.ok.inj hextra

/-- The entry of a dispatched request. -/
theorem sharesOrigin_of_mem_entry {cfg : CorsOptions} {outer inner : List ℕ} {cell : ℕ}
    (hlayers : app.middleware.layers = outer ++ cell :: inner)
    (houter : ∀ c ∈ outer, ∃ m, app.heap.cells c = some m ∧ m.Forwards)
    (hcell : app.heap.cells cell = some (cors cfg)) {c : ConnState σ} {x : Exchange}
    (hx : x ∈ (step env opts app c).entry) (hdispatched : x.isDispatched = true) :
    x.SharesOrigin env app cfg (outer ++ [cell]) ∧
      (env.net.Calm → x.request.method.bytes = ascii "OPTIONS" →
        ∃ bytes, .wrote bytes ∈ x.events) := by
  obtain ⟨d, -, hrequest, hevents⟩ := entry_dispatched hx hdispatched
  have hshares : SharesOrigin cfg (outer ++ [cell]) d.request.method.bytes
      (d.invocation env app) := sharesOrigin_process hlayers houter hcell ⟨d.conn.user, d.request⟩
  -- What happens while the request is processed is all there is besides the write.
  have hduring : ∀ e, .during e ∈ x.events → e ∈ (d.invocation env app).events := by
    intro e he
    have hold : ∀ e, .during e ∈ d.events env app → e ∈ (d.invocation env app).events := by
      simp [Dispatch.events]
    rcases hevents with ⟨res, _, hx⟩ | ⟨_, hx⟩ | ⟨_, hx⟩
    · rw [hx] at he
      exact hold e (by simpa using he)
    · rw [hx] at he
      exact hold e he
    · rw [hx] at he
      exact hold e (by simpa using he)
  -- What is written is the response.
  have hwrote : ∀ bytes, .wrote bytes ∈ x.events → ∃ res, HasResponse (d.invocation env app) res ∧
      bytes = d.answerBytes env res := by
    intro bytes hbytes
    have hold : .wrote bytes ∉ d.events env app := by simp [Dispatch.events]
    rcases hevents with ⟨res, hres, hx⟩ | ⟨-, hx⟩ | ⟨-, hx⟩
    · rw [hx] at hbytes
      rcases List.mem_append.mp hbytes with hbytes | hbytes
      · exact absurd hbytes hold
      · exact ⟨res, hres, ConnEvent.wrote.inj (List.mem_singleton.mp hbytes)⟩
    · rw [hx] at hbytes
      exact absurd hbytes hold
    · rw [hx] at hbytes
      exact absurd (by simpa using hbytes) hold
  refine ⟨⟨fun hoptions e he => ?_, fun hoptions bytes hbytes => ?_, fun bytes hbytes => ?_⟩,
    fun hcalm hoptions => ?_⟩
  · rw [hrequest] at hoptions
    exact (hshares.preflight hoptions).2 e (hduring e he)
  · rw [hrequest] at hoptions
    obtain ⟨res, hres, rfl⟩ := hwrote bytes hbytes
    obtain ⟨⟨a, ha, hextends⟩, -⟩ := hshares.preflight hoptions
    obtain ⟨extra, rfl⟩ := hres.eq_withHeaders ha hextends
    exact ⟨_, _, by rw [answerBytes_eq, ← Response.withHeaders_append]⟩
  · obtain ⟨res, hres, rfl⟩ := hwrote bytes hbytes
    obtain ⟨inside, extra, rfl⟩ := hshares.eq_withHeaders hres
    refine ⟨d.conn.socket.now, d.conn.user, _, d.conn.keepAlive, ?_, answerBytes_eq env d _,
      fun hcounted => mem_headFields_withHeaders hcounted _ _⟩
    rw [hrequest]
    exact hres
  · -- There is a response to a preflight request, and a calm network takes it.
    rw [hrequest] at hoptions
    obtain ⟨⟨a, ha, extra, hextra⟩, -⟩ := hshares.preflight hoptions
    have hres : HasResponse (d.invocation env app) (cfg.preflight.withHeaders extra) :=
      ⟨a, ha, hextra⟩
    rcases hevents with ⟨res, _, hx⟩ | ⟨hno, _⟩ | ⟨hnet, _⟩
    · exact ⟨_, by rw [hx]; exact List.mem_append_right _ List.mem_cons_self⟩
    · exact absurd hres (hno _)
    · exact absurd hcalm hnet

/-- On every run of a connection to an application with `cors` in its global chain, behind layers
that forward: a preflight request is answered by `cors` itself and reaches nothing behind it, and
every answer to a request that is dispatched, if its headers are counted, carries the origin
header. -/
theorem sharesOrigin_handleConnection {cfg : CorsOptions} {outer inner : List ℕ} {cell : ℕ}
    (hlayers : app.middleware.layers = outer ++ cell :: inner)
    (houter : ∀ c ∈ outer, ∃ m, app.heap.cells c = some m ∧ m.Forwards)
    (hcell : app.heap.cells cell = some (cors cfg)) (env : Env) (opts : ServerOptions) (user : σ)
    (incoming : Bytes) :
    ∀ x ∈ (handleConnection env opts app user incoming).log, x.isDispatched = true →
      x.SharesOrigin env app cfg (outer ++ [cell]) ∧
        (env.net.Calm → x.request.method.bytes = ascii "OPTIONS" →
          ∃ bytes, .wrote bytes ∈ x.events) :=
  forall_mem_log (fun _ _ hx => sharesOrigin_of_mem_entry hlayers houter hcell hx) _ _

/-! ### A concrete application -/

/-- The application of the readme: the log outermost, then `cors`. The log keeps the lines. -/
def readmeApp : App (List Bytes) :=
  (App.empty.use (logger ⟨List.length, fun line lines => lines ++ [line]⟩)).use (cors {})

/-- A preflight request and a request. -/
def preflightAndGet : Bytes := ascii "OPTIONS /a HTTP/1.1\r\n\r\nGET /a HTTP/1.1\r\n\r\n"

theorem sharesOrigin_handleConnection_readmeApp :
    readmeApp.middleware.layers = [0] ++ 1 :: [] ∧
      ∀ x ∈ (handleConnection (sampleEnv sampleFiles) {} readmeApp [] preflightAndGet).log,
        x.isDispatched = true →
          x.SharesOrigin (sampleEnv sampleFiles) readmeApp {} [0, 1] ∧
            ((sampleEnv sampleFiles).net.Calm → x.request.method.bytes = ascii "OPTIONS" →
              ∃ bytes, .wrote bytes ∈ x.events) := by
  have hlayers : readmeApp.middleware.layers = [0] ++ 1 :: [] := rfl
  refine ⟨hlayers, sharesOrigin_handleConnection hlayers (fun c hc => ?_) rfl _ _ _ _⟩
  obtain rfl := List.mem_singleton.mp hc
  exact ⟨_, rfl, forwards_logger _⟩

end Lundi
