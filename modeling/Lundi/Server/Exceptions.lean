import Lundi.Server.RouteMiddleware
import Lundi.Server.Segmentation
import Lundi.StaticFiles.Totality

/-!
# Exceptions

`dispatch` answers an exception that a route handler throws by a 500. Nothing catches an exception
of the static lookup or of the global chain but the connection itself, which then closes.

* `Dispatchable`: the conditions on the routes and the mounts under which `dispatch` answers;
* `ContainsFailures`: the condition on the global chain, and a rule that reduces it to its layers;
* `answered_handleConnection`: on a run on which these hold, every request that is received is
  answered once, by a 500 if an exception was raised, and the loop goes on.
-/

namespace Lundi

open Search Onion

variable {σ : Type}

/-- A call has ended with a response, which is a 500 if a standard exception was raised. -/
def Contained (t : Invocation σ) : Prop :=
  ∃ res, HasResponse t res ∧ ((∃ e, .raised e ∈ t.events ∧ e.isStd = true) → res.status = 500)

/-! ### Dispatch -/

/-- A route without middleware of its own, whose handler throws nothing but standard exceptions
when it is called like this. -/
def PlainRoute (next : NextT σ) (c : Call σ) : Prop :=
  ∃ h : Handler σ, next = .inner h.invoke ∧ ∀ e, (h c).result = .error e → e.isStd = true

/-- What the end of `dispatch` relies on. -/
def App.LookupReady (w : World) (app : App σ) (c : Call σ) : Prop :=
  c.req.method.bytes = ascii "GET" ∨ c.req.method.bytes = ascii "HEAD" →
    LookupTotal w.fs w.clock app.staticFiles.mounts c.req.path c.req

/-- What the middle of `dispatch` relies on. -/
def App.HeadReady (w : World) (app : App σ) (c : Call σ) : Prop :=
  if c.req.method.bytes = ascii "HEAD" then
    match app.router.resolve (ascii "GET") c.req.path c.req.params with
    | (some next, params) => PlainRoute next ⟨c.user, { c.req with params := params }⟩
    | (none, params) => app.LookupReady w ⟨c.user, { c.req with params := params }⟩
  else app.LookupReady w c

/-- What `dispatch` relies on: a plain route, or a lookup that does not throw. -/
def App.Dispatchable (w : World) (app : App σ) (c : Call σ) : Prop :=
  match app.router.resolve c.req.method.bytes c.req.path c.req.params with
  | (some next, params) => PlainRoute next ⟨c.user, { c.req with params := params }⟩
  | (none, params) => app.HeadReady w ⟨c.user, { c.req with params := params }⟩

/-- What is left of a call when nothing was raised. -/
theorem contained_of_response {user : σ} {req : Request} {res : Response} {events : List Event}
    (h : ∀ e, .raised e ∉ events) : Contained ⟨some ⟨user, req, .ok res⟩, events⟩ := by
  refine ⟨res, ⟨_, rfl, rfl⟩, ?_⟩
  rintro ⟨e, he, -⟩
  exact absurd he (h e)

/-- The `try` block around a plain route, which may change what a response is made of but not its
status. -/
theorem contained_catchStd {next : NextT σ} {c : Call σ} (h : PlainRoute next c)
    {cells : ℕ → Option (Middleware σ)} {answer : Exception → Response}
    (hanswer : ∀ e, (answer e).status = 500) :
    Contained (catchStd answer (next.invoke cells c)) ∧
      Contained (catchStd answer (clearBody (next.invoke cells c))) := by
  obtain ⟨handler, rfl, hstd⟩ := h
  cases hresult : (handler c).result with
  | ok res =>
    -- Nothing is raised, so that any status will do.
    have hnone : ¬ ∃ e, Event.raised e ∈ Event.startHandler .route :: raisedEvents (handler c) ∧
        e.isStd = true := by
      simp [raisedEvents, hresult]
    constructor
    · refine ⟨res, ⟨handler c, ?_, hresult⟩, fun hraised => absurd hraised hnone⟩
      simp [catchStd, NextT.invoke, Handler.invoke, hresult]
    · refine ⟨{ res with body := [] },
        ⟨{ handler c with result := .ok { res with body := [] } }, ?_, rfl⟩,
        fun hraised => absurd hraised hnone⟩
      simp [catchStd, clearBody, NextT.invoke, Handler.invoke, hresult, Except.map]
  | error e =>
    -- The exception is a standard one, and is caught.
    have hcaught := hstd e hresult
    constructor
    · refine ⟨answer e, ⟨{ handler c with result := .ok (answer e) }, ?_, rfl⟩, fun _ => hanswer e⟩
      simp [catchStd, NextT.invoke, Handler.invoke, hresult, hcaught]
    · refine ⟨answer e, ⟨{ handler c with result := .ok (answer e) }, ?_, rfl⟩, fun _ => hanswer e⟩
      simp [catchStd, clearBody, NextT.invoke, Handler.invoke, hresult, Except.map, hcaught]

theorem contained_dispatchStatic {w : World} {app : App σ} {c : Call σ}
    (h : app.LookupReady w c) : Contained (app.dispatchStatic w c) := by
  unfold App.dispatchStatic
  simp only
  split
  next hreached =>
    obtain ⟨res, hres⟩ := exists_tryMounts_eq_ok_iff.mpr (h hreached.1)
    rw [StaticFileHandler.tryServe, hres]
    cases res with
    | none => exact contained_of_response (by simp)
    | some res => exact contained_of_response (by simp)
  next => exact contained_of_response (by simp)

theorem contained_dispatchHead {w : World} {app : App σ} {c : Call σ} (h : app.HeadReady w c) :
    Contained (app.dispatchHead w c) := by
  unfold App.dispatchHead
  unfold App.HeadReady at h
  by_cases hhead : c.req.method.bytes = ascii "HEAD"
  · rw [if_pos hhead] at h ⊢
    generalize app.router.resolve (ascii "GET") c.req.path c.req.params = found at h ⊢
    obtain ⟨_ | handler, params⟩ := found
    · exact contained_dispatchStatic h
    · exact (contained_catchStd h fun _ => rfl).2
  · rw [if_neg hhead] at h ⊢
    exact contained_dispatchStatic h

/-- `dispatch` answers by a 500 if the handler throws. -/
theorem contained_dispatch {w : World} {app : App σ} {c : Call σ} (h : app.Dispatchable w c) :
    Contained (app.dispatch w c) := by
  unfold App.dispatch
  unfold App.Dispatchable at h
  generalize app.router.resolve c.req.method.bytes c.req.path c.req.params = found at h ⊢
  obtain ⟨_ | handler, params⟩ := found
  · exact contained_dispatchHead h
  · exact (contained_catchStd h fun _ => rfl).1

/-! ### The global chain -/

/-- The chain of these layers, called like this, lets no failure out: around whatever answers all
failures of the calls in `good`, it answers all failures. -/
def ContainsFailures (cells : ℕ → Option (Middleware σ)) (layers : List ℕ) (good : Call σ → Prop)
    (c : Call σ) : Prop :=
  ∀ inner : Call σ → Invocation σ, (∀ c', good c' → Contained (inner c')) →
    Contained ((layers.foldr NextT.layer (NextT.inner inner)).invoke cells c)

/-- A layer that lets no failure out, around whatever answers all failures. -/
def Middleware.ContainsFailures (m : Middleware σ) : Prop :=
  ∀ (next : Call σ → Invocation σ) (cell : ℕ), (∀ c, Contained (next c)) →
    ∀ c, Contained ((m c).run next (.callNext cell) raisedEvents)

/-- Entering a layer raises nothing. -/
theorem Contained.cons {outcome : Option (Answer σ)} {events : List Event}
    (h : Contained ⟨outcome, events⟩) (cell : ℕ) :
    Contained ⟨outcome, .enterLayer cell :: events⟩ := by
  obtain ⟨res, hres, hstatus⟩ := h
  refine ⟨res, hres, fun ⟨e, he, hstd⟩ => hstatus ⟨e, ?_, hstd⟩⟩
  simpa using he

/-- Layers that let no failure out make a chain that lets no failure out. -/
theorem containsFailures_of_layers {cells : ℕ → Option (Middleware σ)} {layers : List ℕ}
    {good : Call σ → Prop} (hgood : ∀ c, good c)
    (hlayers : ∀ cell ∈ layers, ∃ m, cells cell = some m ∧ m.ContainsFailures) (c : Call σ) :
    ContainsFailures cells layers good c := by
  intro inner hinner
  induction layers generalizing c with
  | nil => exact hinner c (hgood c)
  | cons cell layers ih =>
    obtain ⟨⟨m, hcell, hm⟩, hrest⟩ := List.forall_mem_cons.mp hlayers
    rw [List.foldr_cons, NextT.invoke, hcell]
    exact (hm _ cell (fun c' => ih hrest c') c).cons cell

/-- The condition on the application for a request: its chain lets no failure out, as far as
`dispatch` lets none out. -/
def App.AnswersFailures (w : World) (app : App σ) (c : Call σ) : Prop :=
  ContainsFailures app.heap.cells app.middleware.layers (app.Dispatchable w) c

/-- Then the request is answered, by a 500 if an exception was raised. -/
theorem contained_process {w : World} {app : App σ} {c : Call σ} (h : app.AnswersFailures w c) :
    Contained (app.process w c) := by
  have hchain := h (app.dispatch w) fun c' hc' => contained_dispatch hc'
  rw [App.process_eq_invoke_foldr]
  exact hchain

/-! ### A run -/

/-- What is written because of a request. -/
def Exchange.written (x : Exchange) : Bytes :=
  x.events.flatMap fun
    | .wrote bytes => bytes
    | _ => []

/-- The request is processed and then one response is written, as a whole. If a standard exception
was raised, it is a 500. -/
def Exchange.AnsweredOnce (x : Exchange) : Prop :=
  ∃ (during : List Event) (date : Bytes) (res : Response),
    x.events = .dispatched x.request :: during.map .during ++ [.wrote (res.serialize date)] ∧
      ((∃ e, .raised e ∈ during ∧ e.isStd = true) → res.status = 500)

variable {env : Env} {opts : ServerOptions} {app : App σ}

/-- Every request that is received from here on meets the condition. -/
def AllAnswerable (env : Env) (opts : ServerOptions) (app : App σ) (c : ConnState σ) : Prop :=
  ∀ c' d, Relation.ReflTransGen (Goes env opts app) c c' → receive env opts app c' = .dispatch d →
    app.AnswersFailures (env.world d.conn.socket.now) ⟨d.conn.user, d.request⟩

theorem AllAnswerable.of_goes {c c' : ConnState σ} (h : AllAnswerable env opts app c)
    (hgoes : Goes env opts app c c') : AllAnswerable env opts app c' :=
  fun c'' d hreaches => h c'' d (.head hgoes hreaches)

/-- Nothing is written while a request is processed. -/
theorem written_events (d : Dispatch σ) (head : Bytes) (bytes : Bytes) :
    Exchange.written ⟨head, d.request, d.events env app ++ [.wrote bytes]⟩ = bytes := by
  have hduring : ∀ events : List Event, (events.map ConnEvent.during).flatMap (fun
      | .wrote bytes => bytes
      | _ => []) = ([] : Bytes) := by
    intro events
    simp [List.flatMap_map]
  simp [Exchange.written, Dispatch.events, hduring]

/-- An iteration that receives a request answers it and goes on. -/
theorem step_of_answersFailures (hcalm : env.net.Calm) {c : ConnState σ} {d : Dispatch σ}
    (hreceive : receive env opts app c = .dispatch d)
    (h : app.AnswersFailures (env.world d.conn.socket.now) ⟨d.conn.user, d.request⟩) :
    ∃ c' x, step env opts app c = .next c' x ∧ x.isDispatched = true ∧ x.AnsweredOnce ∧
      c'.socket.outgoing = c.socket.outgoing ++ x.written := by
  obtain ⟨res, hres, hstatus⟩ := contained_process h
  have hreceived := received_of_receive hreceive
  have hresponds := responds_respond env app d
  rw [step, hreceive]
  simp only
  generalize respond env app d = st at hresponds
  cases hresponds with
  | @next res' c' hres' _ _ hout =>
    -- There is one response.
    obtain rfl : res = res' := by
      obtain ⟨a, ha, hok⟩ := hres
      obtain ⟨a', ha', hok'⟩ := hres'
      rw [Dispatch.invocation, ha] at ha'
      obtain rfl := Option.some_inj.mp ha'
      rw [hok] at hok'
      exact Except.ok.inj hok'
    refine ⟨c', _, rfl, rfl, ⟨(d.invocation env app).events, _, _, rfl, fun hraised => ?_⟩, ?_⟩
    · -- A field that is added to it leaves its status.
      have hfive := hstatus hraised
      split
      · exact hfive
      · rwa [Response.status_setHeader]
    · rw [hout, written_events, hreceived.outgoing_eq]
  | unanswered hno => exact absurd hres (hno res)
  | unwritten hnet => exact absurd hcalm hnet

/-- A run on which every request that is received meets the condition. The induction is on the
budget, which the pending bytes stay below. -/
theorem answered_runFor (hcalm : env.net.Calm) {budget : ℕ} {c : ConnState σ}
    (hall : AllAnswerable env opts app c) (hbudget : c.unread.length < budget) :
    (∀ x ∈ (runFor env opts app budget c).log, x.isDispatched = true → x.AnsweredOnce) ∧
      (runFor env opts app budget c).last.socket.outgoing = c.socket.outgoing ++
        ((runFor env opts app budget c).log.filter Exchange.isDispatched).flatMap
          Exchange.written ∧
      ((runFor env opts app budget c).last.keepAlive = false ∨
        ∃ exit x s, receive env opts app (runFor env opts app budget c).last =
          .stop exit x s) := by
  induction budget generalizing c with
  | zero => exact absurd hbudget (Nat.not_lt_zero _)
  | succ budget ih =>
    rw [runFor]
    by_cases hkeep : c.keepAlive = true
    · rw [if_pos hkeep]
      cases hreceive : receive env opts app c with
      | stop exit x s =>
        -- No further request is received, and what is logged was not dispatched.
        have hreceives := receives_receive env opts app c
        rw [hreceive] at hreceives
        have hno : ∀ y ∈ x.toList, y.isDispatched = false := by
          cases hreceives with
          | stop h => exact fun y hy => (h y (Option.mem_toList.mp hy)).isDispatched_eq
        rw [step, hreceive]
        refine ⟨fun y hy hyes => ?_, ?_, Or.inr ⟨exit, x, s, hreceive⟩⟩
        · rw [hno y hy] at hyes
          exact absurd hyes Bool.false_ne_true
        · have hnil : x.toList.filter Exchange.isDispatched = [] :=
            List.filter_eq_nil_iff.mpr fun y hy => by simp [hno y hy]
          simp only [hnil, List.flatMap_nil, List.append_nil]
      | dispatch d =>
        -- The request is answered, and the loop goes on with fewer bytes.
        obtain ⟨c', x, hstep, hdispatched, hanswered, hout⟩ :=
          step_of_answersFailures hcalm hreceive (hall c d .refl hreceive)
        have hlt := length_unread_lt hstep
        obtain ⟨hlog, houtgoing, hend⟩ := ih (hall.of_goes ⟨hkeep, x, hstep⟩) (by omega)
        rw [hstep]
        refine ⟨List.forall_mem_cons.mpr ⟨fun _ => hanswered, hlog⟩, ?_, hend⟩
        rw [List.filter_cons_of_pos hdispatched, List.flatMap_cons, ← List.append_assoc, ← hout]
        exact houtgoing
    · rw [if_neg hkeep]
      exact ⟨by simp, by simp, Or.inl (by simpa using hkeep)⟩

/-- On a connection on which every request that is received meets the condition, every request that
is received is answered once, by a 500 if an exception was raised; the responses are sent in the
order of the requests; and the loop ends only because the connection is to be closed or because no
further request is received. -/
theorem answered_handleConnection (hcalm : env.net.Calm) (user : σ) (incoming : Bytes)
    (hall : AllAnswerable env opts app (.init user incoming)) :
    let run := handleConnection env opts app user incoming
    (∀ x ∈ run.log, x.isDispatched = true → x.AnsweredOnce) ∧
      run.last.socket.outgoing =
        (run.log.filter Exchange.isDispatched).flatMap Exchange.written ∧
      (run.last.keepAlive = false ∨
        ∃ exit x s, receive env opts app run.last = .stop exit x s) := by
  have hbudget : (ConnState.init user incoming).unread.length < incoming.length + 1 := by
    rw [unread_init]
    exact Nat.lt_succ_self _
  exact answered_runFor hcalm hall hbudget

/-! ### Concrete connections -/

/-- Plain routes and no mounts are enough for `dispatch`. -/
theorem dispatchable_of_routes {app : App σ}
    (hroutes : ∀ route ∈ app.router.routes, ∀ c, PlainRoute route.handler c)
    (hmounts : app.staticFiles.mounts = []) (w : World) (c : Call σ) : app.Dispatchable w c := by
  have hlookup : ∀ c, app.LookupReady w c := by
    intro c _ before m after heq
    rw [hmounts] at heq
    exact absurd heq (by simp)
  have hplain : ∀ {method path params next params'},
      app.router.resolve method path params = (some next, params') →
        ∀ c, PlainRoute next c := by
    intro method path params next params' hres c
    obtain ⟨route, hmem, rfl⟩ := Router.exists_mem_of_resolve hres
    exact hroutes route hmem c
  unfold App.Dispatchable
  split
  next hres => exact hplain hres _
  next =>
    unfold App.HeadReady
    split
    · split
      next hres => exact hplain hres _
      next => exact hlookup _
    · exact hlookup _

/-- A middleware that only calls its continuation. -/
def passOn : Middleware σ := fun c => .call c fun a => .finish a

theorem containsFailures_passOn : (passOn : Middleware σ).ContainsFailures := by
  intro next cell hnext c
  obtain ⟨res, ⟨a, ha, hok⟩, hstatus⟩ := hnext c
  have hquiet : raisedEvents a = [] := by rw [raisedEvents, hok]
  refine ⟨res, ⟨a, ?_, hok⟩, fun ⟨e, he, hstd⟩ => hstatus ⟨e, ?_, hstd⟩⟩
  · simp [passOn, Body.run, ha]
  · simpa [passOn, Body.run, ha, hquiet] using he

/-- An application with such a middleware and a route whose handler throws. -/
def boomApp : App Unit :=
  (App.empty.use passOn).route .get (ascii "/boom") []
    fun c => ⟨c.user, c.req, .error (.standard (ascii "boom"))⟩

theorem allAnswerable_boomApp (env : Env) (c : ConnState Unit) :
    AllAnswerable env {} boomApp c := by
  intro c' d _ _
  refine containsFailures_of_layers (fun call => dispatchable_of_routes ?_ rfl _ call) ?_ _
  · intro route hroute c
    obtain rfl := List.mem_singleton.mp hroute
    refine ⟨fun c => ⟨c.user, c.req, .error (.standard (ascii "boom"))⟩, rfl, fun e he => ?_⟩
    obtain rfl := Except.error.inj he
    rfl
  · intro cell hcell
    obtain rfl := List.mem_singleton.mp hcell
    exact ⟨passOn, rfl, containsFailures_passOn⟩

/-- Two requests, the first for the route that throws. -/
def boomRequests : Bytes := ascii "GET /boom HTTP/1.1\r\n\r\nGET /a HTTP/1.1\r\n\r\n"

theorem answered_handleConnection_boomRequests :
    let run := handleConnection (sampleEnv sampleFiles) {} boomApp () boomRequests
    (∀ x ∈ run.log, x.isDispatched = true → x.AnsweredOnce) ∧
      run.last.socket.outgoing =
        (run.log.filter Exchange.isDispatched).flatMap Exchange.written ∧
      (run.last.keepAlive = false ∨
        ∃ exit x s, receive (sampleEnv sampleFiles) {} boomApp run.last = .stop exit x s) :=
  answered_handleConnection (fun _ => ⟨_, rfl⟩) () boomRequests (allAnswerable_boomApp _ _)

/-- A standard exception was raised while the request was processed. -/
def Exchange.raisesStd (x : Exchange) : Bool :=
  x.events.any fun
    | .during (.raised e) => e.isStd
    | _ => false

theorem Exchange.AnsweredOnce.isAnswered_eq {x : Exchange} (h : x.AnsweredOnce) :
    x.isAnswered = true := by
  obtain ⟨during, date, res, hevents, -⟩ := h
  simp [isAnswered, hevents]

/-- An application with a mount. -/
def siteApp : App Unit :=
  App.empty.register (.serveStatic sampleFiles (ascii "/static") (ascii "/") {})

/-- A request that raises a standard exception is not answered, when it is the middleware that
throws, and when it is the lookup of a mount whose prefix is asked for without its slash. -/
theorem not_answeredOnce_samples :
    (¬ ∀ (env : Env) (opts : ServerOptions) (app : App Unit) (incoming : Bytes), env.net.Calm →
        ∀ x ∈ (handleConnection env opts app () incoming).log, x.isDispatched = true →
          x.raisesStd = true → x.AnsweredOnce) ∧
      ∀ app ∈ [throwingApp, siteApp],
        ∃ x ∈ (handleConnection (sampleEnv sampleFiles) {} app ()
            (ascii "GET /static HTTP/1.1\r\n\r\n")).log,
          x.isDispatched = true ∧ x.raisesStd = true ∧ x.isAnswered = false := by
  have hsamples : ∀ app ∈ [throwingApp, siteApp],
      ∃ x ∈ (handleConnection (sampleEnv sampleFiles) {} app ()
          (ascii "GET /static HTTP/1.1\r\n\r\n")).log,
        x.isDispatched = true ∧ x.raisesStd = true ∧ x.isAnswered = false := by
    have hrun : [throwingApp, siteApp].all (fun app =>
        (handleConnection (sampleEnv sampleFiles) {} app ()
          (ascii "GET /static HTTP/1.1\r\n\r\n")).log.any fun x =>
            x.isDispatched && x.raisesStd && !x.isAnswered) = true := by
      decide +kernel
    intro app happ
    obtain ⟨x, hx, hflags⟩ := List.any_eq_true.mp (List.all_eq_true.mp hrun app happ)
    exact ⟨x, hx, by simpa [and_assoc] using hflags⟩
  refine ⟨fun h => ?_, hsamples⟩
  obtain ⟨x, hx, hdispatched, hraises, hno⟩ := hsamples siteApp (by simp)
  have hyes := (h _ _ _ _ (fun _ => ⟨_, rfl⟩) x hx hdispatched hraises).isAnswered_eq
  rw [hno] at hyes
  exact absurd hyes Bool.false_ne_true

end Lundi
