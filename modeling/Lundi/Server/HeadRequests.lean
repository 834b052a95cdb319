import Lundi.Core.ResponseHead
import Lundi.Middleware.Blind
import Lundi.Server.ContentLength
import Lundi.Server.Iteration
import Lundi.Server.RouteMiddleware

/-!
# HEAD requests

`dispatch` answers a `HEAD` request by the `GET` route, or by the static file, without the body.
`Content-Length` is computed from the body when the response is serialized, after it has been
cleared.

* `serialize_clear_iff`: when a response without its body has the head of the response;
* `describes_reportGet`: what `dispatch` answers to `GET` and to `HEAD`;
* `mirrors_process_iff`: the requests for which the answer to `HEAD` is the head of the answer to
  `GET`.
-/

namespace Lundi

open Onion

/-! ### Responses without their bodies -/

namespace Response

/-- Several headers are set. -/
def withHeaders (r : Response) (extra : List ResponseHeader) : Response :=
  extra.foldl (fun r h => r.setHeader h.name h.value) r

theorem withHeaders_append (r : Response) (extra extra' : List ResponseHeader) :
    r.withHeaders (extra ++ extra') = (r.withHeaders extra).withHeaders extra' :=
  List.foldl_append

/-- The body has no part in it. -/
theorem withHeaders_setBody (r : Response) (extra : List ResponseHeader) (body : Bytes) :
    ({ r with body := body } : Response).withHeaders extra =
      { r.withHeaders extra with body := body } := by
  induction extra generalizing r with
  | nil => rfl
  | cons h extra ih => exact ih (r.setHeader h.name h.value)

theorem body_withHeaders (r : Response) (extra : List ResponseHeader) :
    (r.withHeaders extra).body = r.body := by
  induction extra generalizing r with
  | nil => rfl
  | cons h extra ih => exact ih (r.setHeader h.name h.value)

/-- The body of a response is cleared. -/
def clear (r : Response) : Response := { r with body := [] }

/-- A response without its body has the same head if it had no body before, or if the length that
its head announces is not generated. -/
theorem serialize_clear_iff (r : Response) (date : Bytes) :
    r.clear.serialize date = r.head date ↔ r.body = [] ∨ r.hasContentLength = true := by
  have hflag : r.clear.hasContentLength = r.hasContentLength := rfl
  rw [serialize_eq, head, head, headOf_map_fieldLine, headOf_map_fieldLine]
  have hbefore : r.clear.leadingFields date = r.leadingFields date := rfl
  have hcustom : r.clear.customFields = r.customFields := rfl
  have hstatus : r.clear.statusLine = r.statusLine := rfl
  have hconnection : r.clear.connectionFields = r.connectionFields := rfl
  have hbody : r.clear.body = [] := rfl
  simp only [headFields, trailingFields, fieldBytes_append, hbefore, hcustom, hstatus, hconnection,
    hbody, List.append_nil, List.append_assoc]
  -- All parts but the generated length are the same.
  rw [List.append_right_inj, List.append_right_inj, List.append_right_inj, List.append_right_inj,
    List.append_left_inj, lengthFields, lengthFields, hflag]
  cases r.hasContentLength with
  | true => simp
  | false =>
    simp only [Bool.false_eq_true, if_false, or_false, fieldBytes, fieldLine,
      List.flatMap_singleton, List.append_right_inj, List.append_left_inj, hbody, List.length_nil]
    constructor
    · intro h
      exact List.eq_nil_of_length_eq_zero (FastItoa.formatted_inj_zero rfl h.symm)
    · intro h
      rw [h]
      rfl

/-- A response is its own head only if it has no body. -/
theorem serialize_eq_head_iff (r : Response) (date : Bytes) :
    r.serialize date = r.head date ↔ r.body = [] := by
  rw [serialize_eq, List.append_right_eq_self]

end Response

/-! ### What is answered -/

variable {σ : Type}

/-- The response or the exception that a call has left. -/
def Invocation.result (t : Invocation σ) : Option (Except Exception Response) :=
  t.outcome.map Answer.result

/-- The response, if there is one. -/
def responseOf : Option (Except Exception Response) → Option Response
  | some (.ok res) => some res
  | _ => none

/-- The answer to `HEAD`, with some headers added to both, is the head of the answer to `GET`
without any body bytes; or neither is answered. -/
def Mirrors (date : Bytes) (extra : List ResponseHeader) :
    Option Response → Option Response → Prop
  | some get, some head =>
    (head.withHeaders extra).serialize date = (get.withHeaders extra).head date
  | none, none => True
  | _, _ => False

instance (date : Bytes) (extra : List ResponseHeader) :
    (x y : Option Response) → Decidable (Mirrors date extra x y)
  | some get, some head => inferInstanceAs (Decidable
      ((head.withHeaders extra).serialize date = (get.withHeaders extra).head date))
  | none, none => inferInstanceAs (Decidable True)
  | some _, none => inferInstanceAs (Decidable False)
  | none, some _ => inferInstanceAs (Decidable False)

/-- The header that a connection adds to a response before it closes. -/
def connectionHeaders (keepAlive : Bool) : List ResponseHeader :=
  if keepAlive then [] else [⟨ascii "Connection", ascii "close"⟩]

/-- A compiled handler that answers every method alike. It keeps the method of a request, or leaves
one of its own there; which of them it does is told by `keeps`. -/
def MethodBlind (cells : ℕ → Option (Middleware σ)) (keeps : Call σ → Bool) (next : NextT σ) :
    Prop :=
  ∀ (c : Call σ) (method : StringView),
    (next.invoke cells (c.withMethod method)).outcome =
      (next.invoke cells c).outcome.map (·.twin method (keeps c) false)

/-- A method that is kept is left as it is. -/
theorem MethodBlind.method_eq {cells : ℕ → Option (Middleware σ)} {keeps : Call σ → Bool}
    {next : NextT σ} (h : MethodBlind cells keeps next) {c : Call σ} (hkeeps : keeps c = true)
    {a : Answer σ} (ha : (next.invoke cells c).outcome = some a) :
    a.req.method = c.req.method := by
  have hsame := h c c.req.method
  rw [show c.withMethod c.req.method = c from rfl, ha, hkeeps, Option.map_some,
    Option.some_inj] at hsame
  exact congrArg (fun a => a.req.method) hsame

variable {app : App σ} {w : World} {keeps : NextT σ → Call σ → Bool}

/-! ### Registered applications -/

/-- An application as the registration functions make it. -/
def App.Registered (app : App σ) : Prop :=
  ∃ registrations : List (Registration σ), app = registrations.foldl App.register .empty

theorem Verb.method_ne_head (verb : Verb) : verb.method ≠ ascii "HEAD" := by
  cases verb <;> decide

/-- No route is registered for `HEAD`. -/
theorem App.Registered.method_ne (h : app.Registered) :
    ∀ route ∈ app.router.routes, route.method ≠ ascii "HEAD" := by
  obtain ⟨registrations, rfl⟩ := h
  have hstep : ∀ (app : App σ) (r : Registration σ),
      (∀ route ∈ app.router.routes, route.method ≠ ascii "HEAD") →
        ∀ route ∈ (app.register r).router.routes, route.method ≠ ascii "HEAD" := by
    intro app r happ
    cases r with
    | route verb pattern mws handler =>
      intro route hroute
      rcases List.mem_append.mp hroute with hold | hnew
      · exact happ route hold
      · obtain rfl := List.mem_singleton.mp hnew
        exact verb.method_ne_head
    | serveStatic fs urlPrefix directory options =>
      rw [App.register, App.serveStatic]
      cases app.staticFiles.mount fs urlPrefix directory options <;> exact happ
    | _ => exact happ
  -- The routes grow with each registration.
  have hall : ∀ (app : App σ), (∀ route ∈ app.router.routes, route.method ≠ ascii "HEAD") →
      ∀ route ∈ (registrations.foldl App.register app).router.routes,
        route.method ≠ ascii "HEAD" := by
    induction registrations with
    | nil => exact fun _ h => h
    | cons r registrations ih => exact fun app happ => ih _ (hstep app r happ)
  exact hall .empty (by simp [App.empty])

/-- A method without routes resolves to nothing and leaves the parameters alone. -/
theorem Router.resolve_of_forall_ne {H : Type} {router : Router H} {method : Bytes}
    (h : ∀ route ∈ router.routes, route.method ≠ method) (path : Bytes)
    (params : List ParamEntry) : router.resolve method path params = (none, params) := by
  rw [Router.resolve]
  generalize router.routes = routes at h
  induction routes with
  | nil => rfl
  | cons route routes ih =>
    obtain ⟨hne, hrest⟩ := List.forall_mem_cons.mp h
    rw [Router.resolveLoop, if_pos hne]
    exact ih hrest

/-- The static lookup looks at nothing of the request but its headers. -/
theorem tryServe_of_headers_eq (h : StaticFileHandler) (fs : FileSystem) (clock : Clock)
    (path : Bytes) {req req' : Request} (hheaders : req.headers = req'.headers) :
    h.tryServe fs clock path req = h.tryServe fs clock path req' := by
  obtain ⟨_, _, _, _, headers, _, _⟩ := req
  obtain ⟨_, _, _, _, headers', _, _⟩ := req'
  obtain rfl : headers = headers' := hheaders
  rw [StaticFileHandler.tryServe, StaticFileHandler.tryServe]
  induction h.mounts with
  | nil => rfl
  | cons m mounts ih =>
    rw [tryMounts, tryMounts, ih]
    rfl

/-! ### The exits of `dispatch` -/

/-- A response keeps its head when its body is cleared before some headers are added to it: it has
no body, or carries a length of its own. -/
def KeepsHead (extra : List ResponseHeader) (res : Response) : Prop :=
  res.body = [] ∨ (res.withHeaders extra).hasContentLength = true

/-- The response to an exception of a route handler. -/
def internalServerError (e : Exception) : Response :=
  .text (ascii "Internal Server Error: " ++ e.what) 500

instance (extra : List ResponseHeader) (res : Response) : Decidable (KeepsHead extra res) :=
  inferInstanceAs (Decidable (_ ∨ _))

theorem mirrors_clear_iff {date : Bytes} {extra : List ResponseHeader} (res : Response) :
    Mirrors date extra (some res) (some res.clear) ↔ KeepsHead extra res := by
  rw [Mirrors, Response.clear, Response.withHeaders_setBody, KeepsHead,
    ← Response.body_withHeaders res extra]
  exact Response.serialize_clear_iff _ date

/-- A response that is sent with its body does not mirror itself unless the body is empty. -/
theorem mirrors_self_iff {date : Bytes} {extra : List ResponseHeader} (res : Response) :
    Mirrors date extra (some res) (some res) ↔ res.body = [] := by
  rw [Mirrors, Response.serialize_eq_head_iff, Response.body_withHeaders]

/-- What is said of an answer, if there is one. -/
def Report.ofOutcome (outcome : Option (Answer σ)) (kept withheld : Bool) : Report σ :=
  match outcome with
  | none => .undefined
  | some a => .answered a kept withheld

/-- What is said of a `GET` request without a route: only the body of a static file is withheld from
`HEAD`, and the 404 is sent as it is. -/
def App.reportStatic (w : World) (app : App σ) (c : Call σ) : Report σ :=
  let notFound : Report σ :=
    .answered ⟨c.user, c.req, .ok (.text (ascii "Not Found") 404)⟩ true false
  if app.staticFiles.hasMounts then
    match app.staticFiles.tryServe w.fs w.clock c.req.path c.req with
    | .error e => .answered ⟨c.user, c.req, .error e⟩ true false
    | .ok (some res) => .answered ⟨c.user, c.req, .ok res⟩ true true
    | .ok none => notFound
  else notFound

/-- What is said of a `GET` request: the body of a route is withheld from `HEAD`. -/
def App.reportGet (keeps : NextT σ → Call σ → Bool) (w : World) (app : App σ) (c : Call σ) :
    Report σ :=
  match app.router.resolve (ascii "GET") c.req.path c.req.params with
  | (some next, params) =>
    let c : Call σ := ⟨c.user, { c.req with params := params }⟩
    .ofOutcome (catchStd internalServerError (next.invoke app.heap.cells c)).outcome
      (keeps next c) true
  | (none, params) => app.reportStatic w ⟨c.user, { c.req with params := params }⟩

/-- What is said of a request that reaches `dispatch`. With a method that is not the client's, it is
one request, which is answered once. -/
def App.reportDispatch (keeps : NextT σ → Call σ → Bool) (w : World) (app : App σ) (c : Call σ)
    (kept : Bool) : Report σ :=
  if kept then app.reportGet keeps w c else .ofOutcome (app.dispatch w c).outcome false false

/-- What a route answers to `HEAD`: its answer to `GET`, without the body. -/
theorem outcome_route_twin {head : StringView} {kept : Bool} {t t' : Invocation σ}
    (h : t'.outcome = t.outcome.map (·.twin head kept false)) :
    (catchStd (fun _ => .text [] 500) (clearBody t')).outcome =
      (catchStd internalServerError t).outcome.map (·.twin head kept true) := by
  simp only [catchStd, clearBody, h]
  cases t.outcome with
  | none => rfl
  | some a =>
    obtain ⟨user, req, result⟩ := a
    cases result with
    | ok res => cases kept <;> rfl
    | error e =>
      -- The two texts of a 500 differ in the body.
      cases kept <;> cases hstd : e.isStd <;>
        simp [Answer.withMethod, Answer.twin, Answer.withBody, Except.map, hstd,
          internalServerError, Response.text]

/-- The report on a route is right. -/
theorem describes_route {cells : ℕ → Option (Middleware σ)} {keep : Call σ → Bool} {next : NextT σ}
    (hblind : MethodBlind cells keep next) (c : Call σ) (head : StringView) :
    (Report.ofOutcome (catchStd internalServerError (next.invoke cells c)).outcome (keep c)
        true).Describes c.req.method head
      (catchStd internalServerError (next.invoke cells c)).outcome
      (catchStd (fun _ => .text [] 500)
        (clearBody (next.invoke cells (c.withMethod head)))).outcome := by
  rw [outcome_route_twin (hblind c head)]
  cases houtcome : (next.invoke cells c).outcome with
  | none => simp [catchStd, houtcome, Report.ofOutcome, Report.Describes]
  | some a =>
    have hcaught : ∃ a', (catchStd internalServerError (next.invoke cells c)).outcome = some a' ∧
        a'.req = a.req := by
      refine ⟨_, congrArg (Option.map _) houtcome, ?_⟩
      dsimp only
      split
      · rfl
      · split <;> rfl
    obtain ⟨a', ha', hreq⟩ := hcaught
    rw [ha']
    refine ⟨rfl, rfl, fun hkeep => ?_⟩
    rw [hreq]
    exact hblind.method_eq hkeep houtcome

/-- The report on the static lookup and the 404 is right. -/
theorem describes_reportStatic (w : World) (app : App σ) {head : StringView} {c : Call σ}
    (hget : c.req.method.bytes = ascii "GET") (hhead : head.bytes = ascii "HEAD") :
    (app.reportStatic w c).Describes c.req.method head (app.dispatchStatic w c).outcome
      (app.dispatchStatic w (c.withMethod head)).outcome := by
  have hne : ascii "GET" ≠ ascii "HEAD" := by decide
  have hserve := tryServe_of_headers_eq app.staticFiles w.fs w.clock c.req.path
    (show (c.withMethod head).req.headers = c.req.headers from rfl)
  unfold App.reportStatic App.dispatchStatic
  rw [Call.withMethod] at hserve ⊢
  simp only [hget, hhead, hserve, true_or, or_true, true_and, if_neg hne, if_true]
  cases app.staticFiles.hasMounts with
  | false => exact ⟨rfl, rfl, fun _ => rfl⟩
  | true =>
    simp only [if_true]
    rcases app.staticFiles.tryServe w.fs w.clock c.req.path c.req with e | _ | res <;>
      exact ⟨rfl, rfl, fun _ => rfl⟩

/-- The report on a `GET` request is right. -/
theorem describes_reportGet (hreg : app.Registered)
    (hblind : ∀ route ∈ app.router.routes,
      MethodBlind app.heap.cells (keeps route.handler) route.handler)
    {head : StringView} {c : Call σ} (hget : c.req.method.bytes = ascii "GET")
    (hhead : head.bytes = ascii "HEAD") :
    (app.reportGet keeps w c).Describes c.req.method head (app.dispatch w c).outcome
      (app.dispatch w (c.withMethod head)).outcome := by
  -- No route answers `HEAD` itself, so the `GET` routes are asked.
  have hnone := Router.resolve_of_forall_ne hreg.method_ne c.req.path c.req.params
  have hne : ascii "GET" ≠ ascii "HEAD" := by decide
  unfold App.reportGet App.dispatch
  simp only [Call.withMethod, hget, hhead, hnone]
  unfold App.dispatchHead
  simp only [hhead, if_true]
  cases hfound : app.router.resolve (ascii "GET") c.req.path c.req.params with
  | mk found params =>
    cases found with
    | some handler =>
      obtain ⟨route, hroute, rfl⟩ := Router.exists_mem_of_resolve hfound
      exact describes_route (hblind route hroute) ⟨c.user, { c.req with params := params }⟩ head
    | none =>
      -- No route is left for either of them: the static lookup answers, or the 404.
      simp only [hget, if_neg hne]
      exact describes_reportStatic w app
        (show (⟨c.user, { c.req with params := params }⟩ : Call σ).req.method.bytes = _ from hget)
        hhead

/-- The report on a request that reaches `dispatch` is right. -/
theorem describes_reportDispatch (hreg : app.Registered)
    (hblind : ∀ route ∈ app.router.routes,
      MethodBlind app.heap.cells (keeps route.handler) route.handler)
    {get head : StringView} (hget : get.bytes = ascii "GET") (hhead : head.bytes = ascii "HEAD")
    (c : Call σ) (kept : Bool) (hkept : kept = true → c.req.method = get) :
    (app.reportDispatch keeps w c kept).Describes get head (app.dispatch w c).outcome
      (app.dispatch w (c.twin head kept)).outcome := by
  cases kept with
  | false =>
    rw [App.reportDispatch, Call.twin, if_neg Bool.false_ne_true, if_neg Bool.false_ne_true]
    cases (app.dispatch w c).outcome with
    | none => exact ⟨rfl, rfl⟩
    | some a => exact ⟨rfl, rfl, fun h => absurd h Bool.false_ne_true⟩
  | true =>
    obtain rfl := hkept rfl
    exact describes_reportGet hreg hblind hget hhead

/-! ### Agreement -/

/-- What is said of a request that goes through the chain. -/
def App.report (keeps : NextT σ → Call σ → Bool) (w : World) (app : App σ)
    (ls : List (BlindLayer σ)) (c : Call σ) : Report σ :=
  reportThrough (app.reportDispatch keeps w) ls c true

/-- The condition on a request, by what is said of it: what answers it by `GET` has a body that is
withheld from `HEAD`, and keeps its head without it; or it has no body. -/
def Report.Agrees (extra : List ResponseHeader) : Report σ → Prop
  | .unsettled => False
  | .undefined => True
  | .answered a _ withheld =>
    match a.result with
    | .ok res => if withheld then KeepsHead extra res else res.body = []
    | .error _ => True

instance (extra : List ResponseHeader) : (r : Report σ) → Decidable (r.Agrees extra)
  | .unsettled => inferInstanceAs (Decidable False)
  | .undefined => inferInstanceAs (Decidable True)
  | .answered ⟨_, _, .ok res⟩ _ withheld =>
    inferInstanceAs (Decidable (if withheld then KeepsHead extra res else res.body = []))
  | .answered ⟨_, _, .error _⟩ _ _ => inferInstanceAs (Decidable True)

/-- Two answers that are reported mirror each other as the report says. -/
theorem Report.Describes.mirrors_iff {client other : StringView} {r : Report σ}
    {x y : Option (Answer σ)} (h : r.Describes client other x y) (hsettled : r ≠ .unsettled)
    (date : Bytes) (extra : List ResponseHeader) :
    Mirrors date extra (responseOf (x.map Answer.result)) (responseOf (y.map Answer.result)) ↔
      r.Agrees extra := by
  cases r with
  | unsettled => exact absurd rfl hsettled
  | undefined =>
    obtain ⟨rfl, rfl⟩ := h
    exact Iff.rfl
  | answered a kept withheld =>
    obtain ⟨rfl, rfl, -⟩ := h
    obtain ⟨user, req, result⟩ := a
    cases result with
    | error e => cases kept <;> cases withheld <;> exact Iff.rfl
    | ok res =>
      cases withheld with
      | true => cases kept <;> exact mirrors_clear_iff res
      | false => cases kept <;> exact mirrors_self_iff res

/-! ### Whole requests -/

/-- The bytes that a connection writes. -/
theorem answerBytes_eq (env : Env) (d : Dispatch σ) (res : Response) :
    d.answerBytes env res = (res.withHeaders (connectionHeaders d.conn.keepAlive)).serialize
      (env.date d.conn.socket.now) := by
  rw [Dispatch.answerBytes, connectionHeaders]
  cases d.conn.keepAlive <;> rfl

/-- For a registered application whose handlers and whose global middleware do not look at the
method: the answer to `HEAD` has the head of the answer to `GET` and no body if the answer to `GET`
has no body, or has the body of a route or a static file and carries a length of its own. When no
middleware looks at a body that `HEAD` does not get, it does only if. -/
theorem mirrors_process_iff (hreg : app.Registered)
    (hblind : ∀ route ∈ app.router.routes,
      MethodBlind app.heap.cells (keeps route.handler) route.handler)
    {ls : List (BlindLayer σ)}
    (hlayers : app.middleware.layers.map app.heap.cells = ls.map fun l => some l.toMiddleware)
    {get head : StringView} (hget : get.bytes = ascii "GET") (hhead : head.bytes = ascii "HEAD")
    (w : World) (date : Bytes) (keepAlive : Bool) (c : Call σ) :
    let mirrors := Mirrors date (connectionHeaders keepAlive)
      (responseOf (Invocation.result (app.process w (c.withMethod get))))
      (responseOf (Invocation.result (app.process w (c.withMethod head))))
    let report := app.report keeps w ls (c.withMethod get)
    (report.Agrees (connectionHeaders keepAlive) → mirrors) ∧
      (report ≠ .unsettled → mirrors → report.Agrees (connectionHeaders keepAlive)) := by
  have hdescribes := describes_reportThrough hlayers
    (describes_reportDispatch (w := w) hreg hblind hget hhead) (c.withMethod get) true fun _ => rfl
  rw [← App.process_eq_invoke_foldr, ← App.process_eq_invoke_foldr] at hdescribes
  have hiff := fun hsettled =>
    hdescribes.mirrors_iff hsettled date (connectionHeaders keepAlive)
  refine ⟨fun hagrees => (hiff ?_).mpr hagrees, fun hsettled => (hiff hsettled).mp⟩
  intro hunsettled
  rw [App.report, hunsettled] at hagrees
  exact hagrees

/-! ### Concrete applications -/

/-- A method at the front of the read buffer. -/
def methodView (method : Bytes) : StringView := ⟨.readBuffer 0, 0, method⟩

/-- A request for a path. -/
def requestFor (path : Bytes) : Call Unit := ⟨(), { Request.empty with path := path }⟩

/-- A layer that passes requests on and adds headers to what is answered. -/
def BlindLayer.adding (extra : List ResponseHeader) : BlindLayer σ where
  looks := false
  plan c := .call c (some 0) fun a =>
    .finish { a with result := a.result.map (·.withHeaders extra) } (some 1) (some 0)

/-- A layer that answers one path itself, without a body. -/
def gateLayer : BlindLayer Unit where
  looks := false
  plan c :=
    if c.req.path = ascii "/closed" then
      .finish ⟨c.user, c.req, .ok { status := 403 }⟩ (some 0) none
    else .call c (some 0) fun a => .finish a (some 1) (some 0)

/-- The layers of the application. -/
def helloLayers : List (BlindLayer Unit) :=
  [.adding [⟨ascii "Access-Control-Allow-Origin", ascii "*"⟩], gateLayer]

/-- A route that answers with a body, behind these layers. -/
def helloRegistrations : List (Registration Unit) :=
  helloLayers.map (fun l => .use l.toMiddleware) ++
    [.route .get (ascii "/hello") [] fun c => ⟨c.user, c.req, .ok (.text (ascii "hello"))⟩]

/-- The application. -/
def helloApp : App Unit := helloRegistrations.foldl App.register .empty

/-- Handlers that leave the method alone. -/
def alwaysKeeps : NextT Unit → Call Unit → Bool := fun _ _ => true

theorem methodBlind_helloApp : ∀ route ∈ helloApp.router.routes,
    MethodBlind helloApp.heap.cells (alwaysKeeps route.handler) route.handler := by
  intro route hroute c method
  obtain rfl := List.mem_singleton.mp hroute
  rfl

/-- The gate answers `HEAD` as `GET`, the route does not. -/
theorem mirrors_process_iff_helloApp :
    (let mirrors := Mirrors (ascii "Sun, 06 Nov 1994 08:49:37 GMT") (connectionHeaders true)
        (responseOf (Invocation.result (helloApp.process ((sampleEnv sampleFiles).world 0)
          ((requestFor (ascii "/closed")).withMethod (methodView (ascii "GET"))))))
        (responseOf (Invocation.result (helloApp.process ((sampleEnv sampleFiles).world 0)
          ((requestFor (ascii "/closed")).withMethod (methodView (ascii "HEAD"))))))
      let report := helloApp.report alwaysKeeps ((sampleEnv sampleFiles).world 0) helloLayers
        ((requestFor (ascii "/closed")).withMethod (methodView (ascii "GET")))
      (report.Agrees (connectionHeaders true) → mirrors) ∧
        (report ≠ .unsettled → mirrors → report.Agrees (connectionHeaders true))) ∧
      (helloApp.report alwaysKeeps ((sampleEnv sampleFiles).world 0) helloLayers
        ((requestFor (ascii "/closed")).withMethod (methodView (ascii "GET")))).Agrees
          (connectionHeaders true) ∧
      ¬ (helloApp.report alwaysKeeps ((sampleEnv sampleFiles).world 0) helloLayers
        ((requestFor (ascii "/hello")).withMethod (methodView (ascii "GET")))).Agrees
          (connectionHeaders true) :=
  ⟨mirrors_process_iff (show helloApp.Registered from ⟨helloRegistrations, rfl⟩)
      methodBlind_helloApp rfl rfl rfl _ _ _ _,
    by decide +kernel, by decide +kernel⟩

theorem validName_a : ValidName (ascii "a") := by
  constructor <;> decide

theorem validName_of_mem_nil : ∀ c ∈ ([] : List Bytes), ValidName c := by
  simp

/-- A file system with a single file of one byte. -/
def byteFiles : FileSystem :=
  .single [] (ascii "a") (ascii "x") validName_of_mem_nil validName_a

/-- Requests that no route, a route, a route that throws, a static file and a middleware answer. -/
def headSamples : List (List (Registration Unit) × Bytes) :=
  [([], ascii "/hello"), (helloRegistrations, ascii "/hello"),
    ([.route .get (ascii "/boom") [] fun c => ⟨c.user, c.req, .error (.standard (ascii "boom"))⟩],
      ascii "/boom"),
    ([.serveStatic byteFiles (ascii "/static") (ascii "/") {}], ascii "/static/a"),
    ([.use fun c => .finish ⟨c.user, c.req, .ok (.text (ascii "Unauthorized") 401)⟩], ascii "/")]

/-- The answers to the two requests of a sample. -/
def sampleAnswer (sample : List (Registration Unit) × Bytes) (method : Bytes) : Option Response :=
  responseOf (Invocation.result ((sample.1.foldl App.register .empty).process
    ((sampleEnv byteFiles).world 0) ((requestFor sample.2).withMethod (methodView method))))

/-- The answer to `HEAD` does not mirror the one to `GET` in any of the samples, the first of which
has no handlers and no middleware at all. -/
theorem not_mirrors_samples :
    (¬ ∀ (app : App Unit) (w : World) (date : Bytes) (keepAlive : Bool) (c : Call Unit)
        (keeps : NextT Unit → Call Unit → Bool) (get head : StringView), app.Registered →
        app.middleware.layers = [] →
        (∀ route ∈ app.router.routes,
          MethodBlind app.heap.cells (keeps route.handler) route.handler) →
        get.bytes = ascii "GET" → head.bytes = ascii "HEAD" →
          Mirrors date (connectionHeaders keepAlive)
            (responseOf (Invocation.result (app.process w (c.withMethod get))))
            (responseOf (Invocation.result (app.process w (c.withMethod head))))) ∧
      ∀ sample ∈ headSamples, ¬ Mirrors (ascii "Sun, 06 Nov 1994 08:49:37 GMT") []
        (sampleAnswer sample (ascii "GET")) (sampleAnswer sample (ascii "HEAD")) := by
  have hsamples : ∀ sample ∈ headSamples,
      ¬ Mirrors (ascii "Sun, 06 Nov 1994 08:49:37 GMT") []
        (sampleAnswer sample (ascii "GET")) (sampleAnswer sample (ascii "HEAD")) := by
    decide +kernel
  refine ⟨fun h => ?_, hsamples⟩
  have hempty := h .empty ((sampleEnv byteFiles).world 0) (ascii "Sun, 06 Nov 1994 08:49:37 GMT")
    true (requestFor (ascii "/hello")) alwaysKeeps (methodView (ascii "GET"))
    (methodView (ascii "HEAD")) ⟨[], rfl⟩ rfl (by simp [App.empty]) rfl rfl
  -- The first sample is this application without registrations, on an open connection.
  exact hsamples _ List.mem_cons_self hempty

end Lundi
