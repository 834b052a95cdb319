import Lundi.Server.ContentLength
import Lundi.Server.Iteration

/-!
# Global middleware

The middleware of the application stands in front of everything that `dispatch` starts. The three
kinds of endpoints that take over a connection are started before it.

* `precedes_invoke_foldr`: in a compiled chain every layer is entered, and has called its
  continuation, before anything inside it is served;
* `guarded_of_mem_log`: on every run the requests that are not taken over are guarded, and on a calm
  network only these.
-/

namespace Lundi

open Onion

/-- A user handler starts, or a static file is served. -/
def Event.IsService : Event → Prop
  | .startHandler _ => True
  | .serveStatic => True
  | _ => False

/-- The same on a connection. -/
def ConnEvent.IsService : ConnEvent → Prop
  | .during e => e.IsService
  | _ => False

/-- Whenever user code or a static file is served because of the request, every layer has been
entered before and has called its continuation. So a layer that answers without calling its
continuation keeps everything from running. -/
structure Exchange.Guarded (layers : List ℕ) (x : Exchange) : Prop where
  entered : ∀ cell ∈ layers,
    Precedes (· = .during (.enterLayer cell)) ConnEvent.IsService x.events
  passed : ∀ cell ∈ layers,
    Precedes (· = .during (.callNext cell)) ConnEvent.IsService x.events

variable {σ : Type}

/-! ### A compiled chain -/

/-- Finishing is no service. -/
theorem not_isService_of_mem_raisedEvents (a : Answer σ) :
    ∀ e ∈ raisedEvents a, ¬ e.IsService := by
  unfold raisedEvents
  split <;> simp [Event.IsService]

/-- In a compiled chain every layer is entered, and has called its continuation, before anything
inside it is served. The induction is on the layers outside the one in question. -/
theorem precedes_invoke_foldr {cells : ℕ → Option (Middleware σ)} {layers : List ℕ}
    (inner : NextT σ) {cell : ℕ} (hcell : cell ∈ layers) (c : Call σ) :
    Precedes (· = .enterLayer cell) Event.IsService
        ((layers.foldr .layer inner).invoke cells c).events ∧
      Precedes (· = .callNext cell) Event.IsService
        ((layers.foldr .layer inner).invoke cells c).events := by
  induction layers generalizing c with
  | nil => simp at hcell
  | cons mw layers ih =>
    rw [List.foldr_cons, NextT.invoke]
    cases cells mw with
    | none => exact ⟨.of_forall_not (by simp), .of_forall_not (by simp)⟩
    | some m =>
      have henter : ¬ (Event.enterLayer mw).IsService := id
      have hcall : ¬ (Event.callNext mw).IsService := id
      rcases List.mem_cons.mp hcell with rfl | hinside
      · -- The layer in question is the outermost one: whatever is inside comes after it.
        refine ⟨precedes_cons_of_left rfl henter, Precedes.cons ?_ henter⟩
        exact Body.precedes_run_of_call (p := (· = .callNext cell)) rfl hcall
          not_isService_of_mem_raisedEvents _
      · -- It is further inside: the outermost layer does nothing itself that is a service.
        refine ⟨Precedes.cons ?_ henter, Precedes.cons ?_ henter⟩
        · exact Body.precedes_run (fun a => (ih hinside a).1) hcall
            not_isService_of_mem_raisedEvents _
        · exact Body.precedes_run (fun a => (ih hinside a).2) hcall
            not_isService_of_mem_raisedEvents _

/-- The layers of the application stand in front of everything that is processed. -/
theorem precedes_process (w : World) (app : App σ) {cell : ℕ}
    (hcell : cell ∈ app.middleware.layers) (c : Call σ) :
    Precedes (· = .enterLayer cell) Event.IsService (app.process w c).events ∧
      Precedes (· = .callNext cell) Event.IsService (app.process w c).events := by
  rw [App.process_eq_invoke_foldr]
  exact precedes_invoke_foldr _ hcell c

/-! ### A run -/

variable {env : Env} {opts : ServerOptions} {app : App σ}

/-- Events without a service are guarded. -/
theorem guarded_of_forall_not {layers : List ℕ} {x : Exchange}
    (h : ∀ e ∈ x.events, ¬ e.IsService) : x.Guarded layers :=
  ⟨fun _ _ => .of_forall_not h, fun _ _ => .of_forall_not h⟩

/-- A request that is processed is guarded. -/
theorem guarded_of_events {d : Dispatch σ} {head : Bytes} {writes : List ConnEvent}
    (hwrites : ∀ e ∈ writes, (∃ bytes, e = .wrote bytes) ∨ e = .writeFailed) :
    Exchange.Guarded app.middleware.layers ⟨head, d.request, d.events env app ++ writes⟩ := by
  -- Neither the dispatch before nor the writes after the processing are a service.
  have hnone : ∀ e ∈ writes, ¬ e.IsService := by
    intro e he hservice
    rcases hwrites e he with ⟨bytes, rfl⟩ | rfl <;> exact hservice
  have hdispatched : ¬ (ConnEvent.dispatched d.request).IsService := id
  constructor
  · intro cell hcell
    obtain ⟨hentered, -⟩ := precedes_process (env.world d.conn.socket.now) app hcell
      ⟨d.conn.user, d.request⟩
    refine Precedes.append (Precedes.cons (Precedes.map ?_) hdispatched) (.of_forall_not hnone)
    simpa [ConnEvent.IsService, Dispatch.invocation] using hentered
  · intro cell hcell
    obtain ⟨-, hpassed⟩ := precedes_process (env.world d.conn.socket.now) app hcell
      ⟨d.conn.user, d.request⟩
    refine Precedes.append (Precedes.cons (Precedes.map ?_) hdispatched) (.of_forall_not hnone)
    simpa [ConnEvent.IsService, Dispatch.invocation] using hpassed

/-- An endpoint that is started right after its preamble is not guarded. -/
theorem not_guarded_of_handedOver {layers : List ℕ} (hlayers : layers ≠ []) {x : Exchange}
    {preamble : Bytes} {endpoint : Endpoint} {rest : List ConnEvent}
    (hevents : x.events = .wrote preamble :: .during (.startHandler endpoint) :: rest) :
    ¬ x.Guarded layers := by
  intro hguarded
  -- Only the preamble stands in front of the start, and it is no layer.
  obtain ⟨cell, hcell⟩ := List.exists_mem_of_ne_nil layers hlayers
  obtain ⟨d, hd, heq⟩ := hguarded.entered cell hcell [.wrote preamble] _ _ hevents trivial
  rw [List.mem_singleton.mp hd] at heq
  exact absurd heq (by simp)

/-- One entry of the log. -/
theorem guarded_of_mem_entry {c : ConnState σ} {x : Exchange}
    (hx : x ∈ (step env opts app c).entry) :
    (app.takesOver x.request = false → x.Guarded app.middleware.layers) ∧
      (env.net.Calm → app.takesOver x.request = true → app.middleware.layers ≠ [] →
        ¬ x.Guarded app.middleware.layers) := by
  rcases entry_cases hx with hundispatched | ⟨d, writes, hreceived, rfl, hwrites⟩
  · cases hundispatched with
    | refused hordinary hwrites =>
      refine ⟨fun _ => guarded_of_forall_not fun e he hservice => ?_, fun _ htaken => ?_⟩
      · rcases hwrites e he with ⟨bytes, rfl⟩ | rfl <;> exact hservice
      · rw [hordinary] at htaken
        exact absurd htaken Bool.false_ne_true
    | handedOver htaken preamble endpoint ends hends hevents =>
      refine ⟨fun hordinary => ?_, fun _ _ hlayers => not_guarded_of_handedOver hlayers hevents⟩
      rw [hordinary] at htaken
      exact absurd htaken Bool.false_ne_true
    | unwritten htaken hnet hevents =>
      refine ⟨fun hordinary => ?_, fun hcalm _ _ => absurd hcalm hnet⟩
      rw [hordinary] at htaken
      exact absurd htaken Bool.false_ne_true
  · have htaken : app.takesOver d.request = false := hreceived.takesOver_eq
    refine ⟨fun _ => guarded_of_events hwrites, fun _ hyes => ?_⟩
    rw [htaken] at hyes
    exact absurd hyes Bool.false_ne_true

/-- On every run, a request is guarded if no endpoint takes it over or if there is no global
middleware, and on a calm network only then. -/
theorem guarded_of_mem_log (env : Env) (opts : ServerOptions) (app : App σ) (user : σ)
    (incoming : Bytes) {x : Exchange} (hx : x ∈ (handleConnection env opts app user incoming).log) :
    (app.middleware.layers = [] ∨ app.takesOver x.request = false →
        x.Guarded app.middleware.layers) ∧
      (env.net.Calm → x.Guarded app.middleware.layers →
        app.middleware.layers = [] ∨ app.takesOver x.request = false) := by
  obtain ⟨hordinary, htaken⟩ := forall_mem_log (fun _ _ => guarded_of_mem_entry) _ _ x hx
  constructor
  · rintro (hlayers | hno)
    · rw [hlayers]
      exact ⟨by simp, by simp⟩
    · exact hordinary hno
  · intro hcalm hguarded
    by_contra hneither
    rw [not_or, Bool.not_eq_false] at hneither
    exact htaken hcalm hneither.2 hneither.1 hguarded

/-! ### A concrete connection -/

/-- An application with a middleware that refuses everything, and an endpoint for events. -/
def eventsApp : App Unit :=
  (App.empty.use fun c => .finish ⟨c.user, c.req, .ok (.text (ascii "Forbidden") 403)⟩).sse
    (ascii "/events") fun _ _ => pure ()

/-- A request for the events. -/
def eventsRequest : Bytes := ascii "GET /events HTTP/1.1\r\n\r\n"

/-- A request that is logged. -/
theorem exists_mem_log_eventsRequest :
    ∃ x ∈ (handleConnection (sampleEnv sampleFiles) {} eventsApp () eventsRequest).log,
      eventsApp.takesOver x.request = true := by
  have hrun : (handleConnection (sampleEnv sampleFiles) {} eventsApp () eventsRequest).log.any
      (fun x => eventsApp.takesOver x.request) = true := by
    decide +kernel
  exact List.any_eq_true.mp hrun

/-- The events are sent without asking the middleware. -/
theorem not_guarded_eventsRequest :
    ¬ ∀ (env : Env) (opts : ServerOptions) (app : App Unit) (incoming : Bytes),
      ∀ x ∈ (handleConnection env opts app () incoming).log, x.Guarded app.middleware.layers := by
  intro h
  obtain ⟨x, hx, htaken⟩ := exists_mem_log_eventsRequest
  obtain ⟨-, hnot⟩ := forall_mem_log (fun _ _ => guarded_of_mem_entry) _ _ x hx
  refine hnot (fun _ => ⟨_, rfl⟩) htaken ?_ (h _ _ _ _ x hx)
  simp [eventsApp, App.use, App.sse, App.empty, MiddlewareChain.add, MiddlewareChain.empty]

theorem guarded_of_mem_log_eventsRequest :
    ∃ x ∈ (handleConnection (sampleEnv sampleFiles) {} eventsApp () eventsRequest).log,
      (eventsApp.middleware.layers = [] ∨ eventsApp.takesOver x.request = false →
          x.Guarded eventsApp.middleware.layers) ∧
        ((sampleEnv sampleFiles).net.Calm → x.Guarded eventsApp.middleware.layers →
          eventsApp.middleware.layers = [] ∨ eventsApp.takesOver x.request = false) := by
  obtain ⟨x, hx, -⟩ := exists_mem_log_eventsRequest
  exact ⟨x, hx, guarded_of_mem_log (sampleEnv sampleFiles) {} eventsApp () eventsRequest hx⟩

end Lundi
