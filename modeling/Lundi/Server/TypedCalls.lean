import Lundi.Router.TypedRoutes
import Lundi.Server.Services

/-!
# Calls of typed routes over a connection

A function with a state of its own, behind a typed route. A client calls it by requests, one behind
the other on a connection, and reads the responses.

* `outcome_process_call`: a request for the route is a call of the function;
* `readAnswers_handleConnection_calls`: the client reads what the function returns, call by call.
-/

namespace Lundi

variable {σ : Type} {env : Env} {opts : ServerOptions}

/-- A function of the arguments of a route and of a query, with a state. -/
abbrev Service (σ : Type) := σ → List ParamValue → List QueryEntry → σ × Response

/-- The handler that calls the function. -/
def TypedRoute.handler (r : TypedRoute) (f : Service σ) : Handler σ := fun c =>
  match c.req.readArgs r.parts with
  | .ok values =>
    ⟨(f c.user values c.req.queryParams).1, c.req, .ok (f c.user values c.req.queryParams).2⟩
  | .error e => ⟨c.user, c.req, .error e⟩

theorem TypedRoute.handler_eq {r : TypedRoute} {f : Service σ} {c : Call σ}
    {values : List ParamValue} (h : c.req.readArgs r.parts = .ok values) :
    r.handler f c = ⟨(f c.user values c.req.queryParams).1, c.req,
      .ok (f c.user values c.req.queryParams).2⟩ := by
  simp only [TypedRoute.handler, h]

/-- What the function returns, call by call. -/
def replies (f : Service σ) : σ → List (List ParamValue × List QueryEntry) → List Response
  | _, [] => []
  | user, (values, entries) :: calls =>
    (f user values entries).2 :: replies f (f user values entries).1 calls

/-- A request that calls the function behind a route. -/
structure TypedCall (opts : ServerOptions) (r : TypedRoute) (verb : Verb) where
  request : RawRequest opts
  args : RouteArgs r.parts
  entries : List QueryEntry
  method_eq : request.method = verb.method
  target : EncodesTarget (pathOf args.pieces) entries request.target

variable {r : TypedRoute} {verb : Verb} {f : Service σ} {base : App σ}

namespace TypedCall

/-- What it calls the function with. -/
def input (call : TypedCall opts r verb) : List ParamValue × List QueryEntry :=
  (call.args.values, call.entries)

/-- The path, as it is decoded. -/
def path (call : TypedCall opts r verb) : Bytes := pathOf call.args.pieces

/-- No verb is a method whose answers have no body. -/
theorem expectsBody_method (call : TypedCall opts r verb) : ExpectsBody call.request.method := by
  rw [call.method_eq]
  cases verb <;> decide

/-- No route of an application takes the call. -/
def NotRouted (call : TypedCall opts r verb) (app : App σ) : Prop :=
  app.router.Leaves verb.method call.path

end TypedCall

/-- A request for the route is a call of the function. -/
theorem outcome_process_call (hmiddleware : base.hasMiddleware = false)
    {call : TypedCall opts r verb} (hrouted : call.NotRouted base) {req : Request}
    (hreq : call.request.Presents req) (w : World) (user : σ) :
    ∃ a, ((base.route verb r.pattern [] (r.handler f)).process w ⟨user, req⟩).outcome = some a ∧
      a.result = .ok (f user call.args.values call.entries).2 ∧
      a.user = (f user call.args.values call.entries).1 := by
  obtain ⟨hmethod, hpath, hparams, hquery⟩ := hreq.line_eq call.target
  rw [call.method_eq] at hmethod
  -- The route of the function stands behind those of the application.
  have hroutes : (base.route verb r.pattern [] (r.handler f)).router.routes =
      base.router.routes ++
        ⟨verb.method, parsePattern r.pattern, .inner (r.handler f).invoke⟩ :: [] := rfl
  have hfound : (base.route verb r.pattern [] (r.handler f)).router.resolve req.method.bytes
      req.path req.params = (some (.inner (r.handler f).invoke), call.args.captures) := by
    rw [hmethod, hpath, hparams]
    exact Router.resolve_of_routes_eq hroutes hrouted (r.matchRoute_pathOf call.args) []
  have hcall := TypedRoute.handler_eq (f := f)
    (show (⟨user, { req with params := call.args.captures }⟩ : Call σ).req.readArgs r.parts =
      .ok call.args.values from r.readArgs_captures call.args rfl)
  have hno : (base.route verb r.pattern [] (r.handler f)).hasMiddleware = false := hmiddleware
  have hdispatch : (base.route verb r.pattern [] (r.handler f)).dispatch w ⟨user, req⟩ =
      catchStd (fun e => .text (ascii "Internal Server Error: " ++ e.what) 500)
        ((r.handler f).invoke ⟨user, { req with params := call.args.captures }⟩) := by
    rw [App.dispatch, hfound]
    rfl
  rw [App.process, hno, if_neg Bool.false_ne_true, hdispatch]
  simp only [catchStd, Handler.invoke, hcall, Option.map_some]
  rw [← hquery]
  exact ⟨_, rfl, rfl, rfl⟩

/-- The contract of a call: it is answered by what the function returns, and leaves its state. -/
def TypedCall.contract (f : Service σ) (call : TypedCall opts r verb) : Contract σ :=
  fun user user' res => (user', res) = f user call.args.values call.entries

/-- Responses that keep the contracts are what the function returns. -/
theorem replies_of_fulfilled {user : σ} {calls : List (TypedCall opts r verb)}
    {responses : List Response} (h : Fulfilled (TypedCall.contract f) user calls responses) :
    responses = replies f user (calls.map TypedCall.input) := by
  induction h with
  | nil user => rfl
  | cons hone hrest ih =>
    rw [List.map_cons, TypedCall.input, replies, ← hone, ih]

/-- A client that calls a function by requests to its route, one behind the other on a connection,
reads what the function returns: the responses to the calls in their order, each from the state
that the calls before have left, however the arguments are encoded and the bytes are cut. -/
theorem readAnswers_handleConnection_calls (hcalm : env.net.Calm)
    (hrunning : ∀ t, env.shuttingDown t = false) (hdate : ∀ t, Unbroken (env.date t))
    (hmiddleware : base.hasMiddleware = false) {calls : List (TypedCall opts r verb)}
    (hordinary : ∀ call ∈ calls, call.request.Ordinary base)
    (hrouted : ∀ call ∈ calls, call.NotRouted base)
    (hcloses : ∀ call ∈ calls, call.request.asksToClose = false)
    (hlimit : opts.maxKeepaliveRequests ≤ 0 ∨ (calls.length : ℤ) < opts.maxKeepaliveRequests)
    (hf : ∀ user values entries, (f user values entries).2.Presentable) (user : σ) :
    ∃ dates : List Bytes, (∀ d ∈ dates, ∃ now, d = env.date now) ∧ dates.length = calls.length ∧
      readAnswers (methodsOf (calls.map TypedCall.request))
        (handleConnection env opts (base.route verb r.pattern [] (r.handler f)) user
          ((calls.map TypedCall.request).flatMap RawRequest.bytes)).socket.outgoing =
        some (List.zipWith Response.seen dates (replies f user (calls.map TypedCall.input))) := by
  have hkeeps : ∀ call ∈ calls, (base.route verb r.pattern [] (r.handler f)).Keeps env
      call.request (call.contract f) := by
    intro call hcall now user req hreq
    obtain ⟨a, houtcome, hok, huser⟩ :=
      outcome_process_call (f := f) hmiddleware (hrouted call hcall) hreq (env.world now) user
    exact ⟨a, _, houtcome, hok, hf _ _ _, Prod.ext huser rfl⟩
  have hordinary' : ∀ call ∈ calls,
      call.request.Ordinary (base.route verb r.pattern [] (r.handler f)) := hordinary
  obtain ⟨dates, responses, hdates, hlength, hfulfilled, hread⟩ :=
    exists_fulfilled_readAnswers hcalm hrunning hdate hordinary'
      (fun call _ => call.expectsBody_method) hkeeps hcloses hlimit user
  exact ⟨dates, hdates, hlength, by rw [hread, replies_of_fulfilled hfulfilled]⟩

/-! ### A concrete function -/

/-- A function that counts its calls, up to ten. -/
def counter : Service ℕ := fun n _ _ => ((n + 1) % 10, .text [UInt8.ofNat (48 + n)] 200)

theorem presentable_counter (n : ℕ) (values : List ParamValue) (entries : List QueryEntry) :
    (counter n values entries).2.Presentable := by
  refine Response.HasBodyStatus.presentable
    (by simp [counter, Response.text, Response.HasBodyStatus]) ?_ (Response.framed_of_forall_ne ?_)
    (by simp [counter, Response.text]) rfl
  · exact fun f hf => absurd hf (by simp [counter, Response.customFields, Response.writtenHeaders,
      Response.text])
  · exact fun f hf => absurd hf (by simp [counter, Response.customFields, Response.writtenHeaders,
      Response.text])

/-- A call for the file of a user. -/
def userFileCall : TypedCall defaultOptions userFiles .get where
  request := sampleGetFor (pathOf (userFile.pieces.map percentEncode)) (by decide) (by decide)
  args := userFile
  entries := []
  method_eq := rfl
  target := encodesTarget_percentEncode _

/-- An application with another route. -/
def usersApp : App ℕ :=
  App.empty.route .get (ascii "/users") [] fun c => ⟨c.user, c.req, .ok (.text [] 200)⟩

theorem notRouted_userFileCall :
    ∀ call ∈ [userFileCall, userFileCall], call.NotRouted usersApp := by
  have hroutes : usersApp.router.routes.map (fun e => (e.method, e.pattern)) =
      [(ascii "GET", parsePattern (ascii "/users"))] := rfl
  intro call hcall e he hmethod
  obtain rfl : call = userFileCall := by simpa using hcall
  have hpattern : e.pattern = parsePattern (ascii "/users") := by
    have hmem := List.mem_map_of_mem (f := fun e => (e.method, e.pattern)) he
    rw [hroutes, List.mem_singleton] at hmem
    exact congrArg Prod.snd hmem
  rw [hpattern]
  decide

/-- Two calls. -/
theorem readAnswers_handleConnection_calls_counter :
    ∃ dates : List Bytes, (∀ d ∈ dates, ∃ now, d = bytewiseEnv.date now) ∧
      dates.length = [userFileCall, userFileCall].length ∧
      readAnswers (methodsOf ([userFileCall, userFileCall].map TypedCall.request))
        (handleConnection bytewiseEnv defaultOptions
        (usersApp.route .get userFiles.pattern [] (userFiles.handler counter)) 3
        (([userFileCall, userFileCall].map TypedCall.request).flatMap
          RawRequest.bytes)).socket.outgoing =
          some (List.zipWith Response.seen dates
            (replies counter 3 ([userFileCall, userFileCall].map TypedCall.input))) :=
  readAnswers_handleConnection_calls (fun _ => ⟨1, rfl⟩) (fun _ => rfl)
    (fun _ => show Unbroken (ascii "Sun, 06 Nov 1994 08:49:37 GMT") by decide) rfl
    (fun _ _ _ _ => by simp [App.takesOver, usersApp, App.route, App.empty])
    notRouted_userFileCall (by decide) (by decide) presentable_counter 3

end Lundi
