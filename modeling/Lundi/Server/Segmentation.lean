import Lundi.Server.Iteration
import Lundi.Server.RawRequest

/-!
# Requests in a byte stream

Requests that are sent one behind the other are received one by one, whatever the cuts of the
network are.

* `step_request`: one iteration, with a request at the front of the pending bytes;
* `requests_runFor`: a run, by induction on the requests;
* `requests_handleConnection`: a whole connection.
-/

namespace Lundi

open Search

/-- What a handler is given of a request, the views read as values. -/
def Exchange.values (x : Exchange) : Bytes × Bytes × Bytes :=
  (x.request.method.bytes, x.request.rawPath.bytes, x.request.body.bytes)

/-- Something has been written because of the request. -/
def Exchange.isAnswered (x : Exchange) : Bool :=
  x.events.any fun
    | .wrote _ => true
    | _ => false

variable {σ : Type} {env : Env} {opts : ServerOptions} {app : App σ}

/-- No endpoint takes the request over. -/
def RawRequest.Ordinary (app : App σ) (r : RawRequest opts) : Prop :=
  ∀ data : StringView, data.bytes = r.head → app.takesOver (parseHeaders data) = false

/-- A request that is dispatched without an answer has only been processed. -/
theorem isAnswered_events (d : Dispatch σ) :
    Exchange.isAnswered ⟨d.head, d.request, d.events env app⟩ = false := by
  simp [Exchange.isAnswered, Dispatch.events]

/-! ### One iteration -/

/-- A request at the front of the pending bytes is received. -/
theorem exists_receive_request (hcalm : env.net.Calm) {c : ConnState σ} {r : RawRequest opts}
    {rest : Bytes} (hunread : c.unread = r.bytes ++ rest) (hordinary : r.Ordinary app) :
    ∃ d, receive env opts app c = .dispatch d := by
  have hstream : c.unread = r.head ++ (r.bodyBytes ++ rest) := by
    rw [hunread, RawRequest.bytes, List.append_assoc]
  -- The scan stops behind the head of the request, whatever comes behind it.
  have hend : findHeaderEnd c.unread 0 = r.head.length := by
    rw [hstream, r.findHeaderEnd_eq]
  have hhead : c.unread.take (findHeaderEnd c.unread 0) = r.head := by
    rw [hend, hstream, List.take_left]
  apply exists_receive_eq_dispatch hcalm
  · rw [hend]
    exact List.length_pos_iff.mpr r.head_ne_nil |>.ne'
  · rw [hend]
    exact r.length_head_le
  · rw [hhead]
    exact r.framing_head
  · rw [hend, hstream, List.length_append, List.length_append]
    omega
  · intro data hdata
    rw [hhead] at hdata
    refine ⟨?_, hordinary data hdata⟩
    rw [(r.requestLine_parse data hdata).1]
    exact r.isToken_method.1

/-- An iteration with a request at the front of the pending bytes: the request is dispatched, and
the loop goes on behind it unless it has not been answered. -/
theorem step_request (hcalm : env.net.Calm) (hrunning : ∀ t, env.shuttingDown t = false)
    {c : ConnState σ} (hkeep : c.keepAlive = true) {r : RawRequest opts} {rest : Bytes}
    (hunread : c.unread = r.bytes ++ rest) (hordinary : r.Ordinary app) :
    ∃ x, x.isDispatched = true ∧ x.values = r.values ∧
      ((∃ exit s, step env opts app c = .stop exit (some x) s ∧ x.isAnswered = false) ∨
        ∃ c', step env opts app c = .next c' x ∧ c'.unread = rest ∧
          c'.requestCount = c.requestCount + 1 ∧
          (r.closes = false →
            opts.maxKeepaliveRequests ≤ 0 ∨ c.requestCount + 1 < opts.maxKeepaliveRequests →
            c'.keepAlive = true)) := by
  obtain ⟨d, hreceive⟩ := exists_receive_request hcalm hunread hordinary
  -- What the step consumes and what it says about the connection come from two lemmas about it.
  have hstep : step env opts app c = respond env app d := by rw [step, hreceive]
  have hframes := stepFrames_step env opts app c
  rw [hunread, hstep] at hframes
  have hreceived := received_of_receive hreceive
  have hresponds := responds_respond env app d
  rw [hstep]
  revert hresponds hframes
  generalize respond env app d = st
  intro hframes hresponds
  cases hresponds with
  | @next res c' _ hcount hkeep' _ =>
    cases hframes with
    | next hframe hdispatched =>
      obtain ⟨hhead, hvalues, hrest⟩ := r.frame_eq hframe
      refine ⟨_, hdispatched, hvalues, Or.inr ⟨c', rfl, hrest, ?_, fun hcloses hlimit => ?_⟩⟩
      · rw [hcount, hreceived.requestCount_eq]
      · -- The three reasons to close are absent.
        obtain ⟨now, hkeep''⟩ := hreceived.keepAlive_eq
        obtain ⟨generation, hreq⟩ := hframe.request_eq
        have hclose : d.request.headerEquals (ascii "connection") (ascii "close") = false := by
          have hparsed := r.headerEquals_close ⟨.readBuffer generation, 0, d.head⟩ hhead hcloses
          rw [show d.request = _ from hreq]
          exact hparsed
        rw [hkeep', hkeep'', hkeep, hclose, hrunning]
        simpa using hlimit
  | unanswered hno =>
    cases hframes with
    | logged hhead hframe =>
      -- The processing has ended without a response, so nothing is written.
      obtain ⟨n, rest', hframe⟩ := hframe rfl
      exact ⟨_, rfl, (r.frame_eq hframe).2.1, Or.inl ⟨_, _, rfl, isAnswered_events d⟩⟩
  | unwritten hnet => exact absurd hcalm hnet

/-- When everything has been consumed the loop stops and nothing is logged. -/
theorem step_of_unread_eq_nil (env : Env) (opts : ServerOptions) (app : App σ) {c : ConnState σ}
    (hunread : c.unread = []) :
    ∃ exit s, step env opts app c = .stop exit none s := by
  have hnone : ¬ 0 < findHeaderEnd [] 0 := by decide
  have hframes := stepFrames_step env opts app c
  rw [hunread] at hframes
  revert hframes
  generalize step env opts app c = st
  intro hframes
  cases hframes with
  | next hframe _ => exact absurd hframe.pos hnone
  | silent exit s => exact ⟨exit, s, rfl⟩
  | logged hhead _ => exact absurd hhead.pos hnone

/-! ### A run -/

/-- What is said of a run over a list of requests. -/
def Run.Serves (run : Run σ) (requests : List (RawRequest opts)) : Prop :=
  run.log.map Exchange.values <+: requests.map RawRequest.values ∧
    (∀ x ∈ run.log, x.isDispatched = true) ∧
    ((∀ x ∈ run.log, x.isAnswered = true) →
      run.log.map Exchange.values = requests.map RawRequest.values ∧ run.last.unread = [])

/-- A run that ends with a request that is not answered. -/
theorem Run.serves_of_unanswered {x : Exchange} {r : RawRequest opts}
    (requests : List (RawRequest opts)) (hdispatched : x.isDispatched = true)
    (hvalues : x.values = r.values) (hno : x.isAnswered = false) (exit : Exit) (c : ConnState σ)
    (s : Socket) : Run.Serves ⟨[x], exit, c, s⟩ (r :: requests) := by
  refine ⟨?_, by simpa using hdispatched, fun hall => ?_⟩
  · simp [hvalues, List.cons_prefix_cons]
  · -- The claim about complete runs is empty here.
    have hyes := hall x List.mem_cons_self
    rw [hno] at hyes
    exact absurd hyes Bool.false_ne_true

/-- A request in front of a run. -/
theorem Run.Serves.cons {run : Run σ} {requests : List (RawRequest opts)} {x : Exchange}
    {r : RawRequest opts} (h : run.Serves requests) (hdispatched : x.isDispatched = true)
    (hvalues : x.values = r.values) :
    Run.Serves { run with log := x :: run.log } (r :: requests) := by
  obtain ⟨hstart, hall, hdone⟩ := h
  refine ⟨?_, List.forall_mem_cons.mpr ⟨hdispatched, hall⟩, fun hanswered => ?_⟩
  · simpa [hvalues] using hstart
  · obtain ⟨hlog, hlast⟩ := hdone fun y hy => hanswered y (List.mem_cons_of_mem _ hy)
    exact ⟨by simp [hvalues, hlog], hlast⟩

/-- The invariant of a run: these requests are the ones that are still to be received. -/
structure ConnState.Awaits (app : App σ) (c : ConnState σ) (requests : List (RawRequest opts)) :
    Prop where
  unread_eq : c.unread = requests.flatMap RawRequest.bytes
  ordinary : ∀ r ∈ requests, r.Ordinary app
  closes : ∀ r ∈ requests.dropLast, r.closes = false
  limit : opts.maxKeepaliveRequests ≤ 0 ∨
    c.requestCount + requests.length ≤ opts.maxKeepaliveRequests
  keepAlive : requests ≠ [] → c.keepAlive = true

/-- Once the first request has been answered, the others are still to be received. -/
theorem ConnState.Awaits.tail {c c' : ConnState σ} {r : RawRequest opts}
    {requests : List (RawRequest opts)} (h : c.Awaits app (r :: requests))
    (hunread : c'.unread = requests.flatMap RawRequest.bytes)
    (hcount : c'.requestCount = c.requestCount + 1)
    (hkeep : r.closes = false →
      opts.maxKeepaliveRequests ≤ 0 ∨ c.requestCount + 1 < opts.maxKeepaliveRequests →
        c'.keepAlive = true) : c'.Awaits app requests where
  unread_eq := hunread
  ordinary := (List.forall_mem_cons.mp h.ordinary).2
  closes := by
    intro r' hr'
    apply h.closes r'
    cases requests with
    | nil => simp at hr'
    | cons r'' requests => exact List.mem_cons_of_mem _ hr'
  limit := by
    have hlimit := h.limit
    rw [List.length_cons] at hlimit
    rw [hcount]
    push_cast at hlimit ⊢
    omega
  keepAlive := by
    -- There is another request, so the first is not the last one and the limit is not reached.
    intro hne
    apply hkeep
    · apply h.closes
      rw [List.dropLast_cons_of_ne_nil hne]
      exact List.mem_cons_self
    · have hpos := List.length_pos_iff.mpr hne
      have hlimit := h.limit
      rw [List.length_cons] at hlimit
      push_cast at hlimit
      omega

/-- A run over a list of requests. The induction is on the list: a request that is answered leaves
the others at the front of the pending bytes, and a smaller allowance. -/
theorem requests_runFor (hcalm : env.net.Calm) (hrunning : ∀ t, env.shuttingDown t = false)
    {requests : List (RawRequest opts)} {c : ConnState σ} {budget : ℕ}
    (h : c.Awaits app requests) (hbudget : c.unread.length < budget) :
    (runFor env opts app budget c).Serves requests := by
  obtain ⟨budget, rfl⟩ : ∃ b, budget = b + 1 := ⟨budget - 1, by omega⟩
  induction requests generalizing c budget with
  | nil =>
    -- All requests have been received: the loop waits for more bytes, or it has ended.
    have hnil : c.unread = [] := h.unread_eq
    rw [runFor]
    by_cases hkeep : c.keepAlive = true
    · obtain ⟨exit, s, hstep⟩ := step_of_unread_eq_nil env opts app hnil
      rw [if_pos hkeep, hstep]
      exact ⟨List.prefix_rfl, by simp, fun _ => ⟨rfl, hnil⟩⟩
    · rw [if_neg hkeep]
      exact ⟨List.prefix_rfl, by simp, fun _ => ⟨rfl, hnil⟩⟩
  | cons r requests ih =>
    have hkeep := h.keepAlive (List.cons_ne_nil _ _)
    have hunread := h.unread_eq
    rw [List.flatMap_cons] at hunread
    obtain ⟨x, hdispatched, hvalues, hstep⟩ :=
      step_request hcalm hrunning hkeep hunread (h.ordinary r List.mem_cons_self)
    rw [runFor, if_pos hkeep]
    rcases hstep with ⟨exit, s, hstep, hno⟩ | ⟨c', hstep, hunread', hcount, hkeep'⟩
    · rw [hstep]
      exact Run.serves_of_unanswered requests hdispatched hvalues hno exit c s
    · -- The request has taken bytes from the pending ones, so the budget is large enough.
      have hlt := length_unread_lt hstep
      obtain ⟨budget, rfl⟩ : ∃ b, budget = b + 1 := ⟨budget - 1, by omega⟩
      have hrest := ih (h.tail hunread' hcount hkeep') budget (by omega)
      rw [hstep]
      exact hrest.cons hdispatched hvalues

/-- Requests that are sent one behind the other are dispatched one by one, in order, each with its
method, its target and its body, however the network cuts the bytes; and when all of them have been
answered, all of them have been dispatched and exactly their bytes consumed. -/
theorem requests_handleConnection (hcalm : env.net.Calm)
    (hrunning : ∀ t, env.shuttingDown t = false) (requests : List (RawRequest opts))
    (hordinary : ∀ r ∈ requests, r.Ordinary app)
    (hcloses : ∀ r ∈ requests.dropLast, r.closes = false)
    (hlimit : opts.maxKeepaliveRequests ≤ 0 ∨
      (requests.length : ℤ) ≤ opts.maxKeepaliveRequests) (user : σ) :
    let run := handleConnection env opts app user (requests.flatMap RawRequest.bytes)
    run.log.map Exchange.values <+: requests.map RawRequest.values ∧
      (∀ x ∈ run.log, x.isDispatched = true) ∧
      ((∀ x ∈ run.log, x.isAnswered = true) →
        run.log.map Exchange.values = requests.map RawRequest.values ∧ run.last.unread = []) := by
  have hawaits : (ConnState.init user (requests.flatMap RawRequest.bytes)).Awaits app requests :=
    ⟨unread_init _ _, hordinary, hcloses, by simpa [ConnState.init] using hlimit, fun _ => rfl⟩
  apply requests_runFor hcalm hrunning hawaits
  rw [unread_init]
  exact Nat.lt_succ_self _

/-! ### A concrete connection -/

/-- `GET /a`, without a body. -/
def sampleGet : RawRequest {} where
  method := ascii "GET"
  target := ascii "/a"
  version := ascii "HTTP/1.1"
  fieldLines := []
  body := none
  isToken_method := by decide
  isToken_target := by decide
  isToken_version := by decide
  isLine_fieldLines := by simp
  length_fieldLines_le := by decide
  announces := rfl
  length_head_le := by decide
  length_body_le := Nat.zero_le _

/-- `POST /b` with a body of one byte. -/
def samplePost : RawRequest {} where
  method := ascii "POST"
  target := ascii "/b"
  version := ascii "HTTP/1.1"
  fieldLines := [ascii "Host: x", ascii "content-length:  1"]
  body := some (ascii "x")
  isToken_method := by decide
  isToken_target := by decide
  isToken_version := by decide
  isLine_fieldLines := by decide
  length_fieldLines_le := by decide
  announces := ⟨ascii "1", by decide, ⟨by decide, List.all_eq_true.mp (by decide)⟩, by decide⟩
  length_head_le := by decide
  length_body_le := by decide

/-- The options of an application for which nothing is set. -/
abbrev defaultOptions : ServerOptions := {}

/-- A `GET` request with these header lines. -/
def sampleGetWith (target : Bytes) (fieldLines : List Bytes) (htarget : IsToken target)
    (hlines : ∀ l ∈ fieldLines, IsLine l) (hcount : fieldLines.length ≤ maxHeaders)
    (hannounces : Announces fieldLines none)
    (hlength : (headOf (requestLine (ascii "GET") target (ascii "HTTP/1.1") ::
      fieldLines)).length ≤ defaultOptions.maxHeaderSize) : RawRequest defaultOptions :=
  { sampleGet with
    target := target
    fieldLines := fieldLines
    isToken_target := htarget
    isLine_fieldLines := hlines
    length_fieldLines_le := hcount
    announces := hannounces
    length_head_le := hlength }

/-- A `GET` request without header lines. -/
def sampleGetFor (target : Bytes) (htarget : IsToken target)
    (hlength : (headOf [requestLine (ascii "GET") target (ascii "HTTP/1.1")]).length ≤
      defaultOptions.maxHeaderSize) : RawRequest defaultOptions :=
  sampleGetWith target [] htarget (by simp) (by decide) rfl hlength

theorem ordinary_empty (r : RawRequest opts) : r.Ordinary (.empty : App σ) := fun _ _ => by
  simp [App.takesOver, App.empty]

/-- Two requests whose bytes come one at a time. -/
theorem requests_handleConnection_samples :
    let run := handleConnection { sampleEnv sampleFiles with net := fun _ => .ready 1 } {}
      (.empty : App Unit) () ([samplePost, sampleGet].flatMap RawRequest.bytes)
    run.log.map Exchange.values <+:
        [samplePost, sampleGet].map RawRequest.values ∧
      (∀ x ∈ run.log, x.isDispatched = true) ∧
      ((∀ x ∈ run.log, x.isAnswered = true) →
        run.log.map Exchange.values = [samplePost, sampleGet].map RawRequest.values ∧
          run.last.unread = []) :=
  requests_handleConnection (fun _ => ⟨1, rfl⟩) (fun _ => rfl) _ (fun r _ => ordinary_empty r)
    (by decide) (by decide) ()

/-- All requests of a list are dispatched. -/
def DispatchesAll (env : Env) (opts : ServerOptions) (app : App Unit)
    (requests : List (RawRequest opts)) : Prop :=
  env.net.Calm → (∀ r ∈ requests, r.Ordinary app) →
    (∀ r ∈ requests.dropLast, r.closes = false) →
    (opts.maxKeepaliveRequests ≤ 0 ∨ (requests.length : ℤ) ≤ opts.maxKeepaliveRequests) →
    (handleConnection env opts app () (requests.flatMap RawRequest.bytes)).log.map
      Exchange.values = requests.map RawRequest.values

/-- An application whose middleware throws. -/
def throwingApp : App Unit :=
  App.empty.use fun c => .finish ⟨c.user, c.req, .error (.standard (ascii "thrown"))⟩

/-- The second request is not dispatched when the server is shutting down, nor when the processing
of the first ends without a response. -/
theorem not_dispatchesAll_samples :
    ¬ (∀ env opts app requests, DispatchesAll env opts app requests) ∧
      ¬ ∀ env opts app requests, (∀ t, env.shuttingDown t = false) →
        DispatchesAll env opts app requests := by
  have hcloses : ∀ r ∈ [sampleGet, sampleGet].dropLast, r.closes = false := by decide
  have hone : (handleConnection { sampleEnv sampleFiles with shuttingDown := fun _ => true } {}
        (.empty : App Unit) () ([sampleGet, sampleGet].flatMap RawRequest.bytes)).log.length = 1 ∧
      (handleConnection (sampleEnv sampleFiles) {} throwingApp ()
        ([sampleGet, sampleGet].flatMap RawRequest.bytes)).log.length = 1 := by
    decide +kernel
  constructor
  · intro h
    have hall := h { sampleEnv sampleFiles with shuttingDown := fun _ => true } {} .empty
      [sampleGet, sampleGet] (fun _ => ⟨_, rfl⟩) (fun r _ => ordinary_empty r) hcloses (by decide)
    have htwo := congrArg List.length hall
    rw [List.length_map, hone.1] at htwo
    exact absurd htwo (by decide)
  · intro h
    have hordinary : ∀ r ∈ [sampleGet, sampleGet], r.Ordinary throwingApp := fun r _ _ _ => by
      simp [App.takesOver, throwingApp, App.use, App.empty]
    have hall := h (sampleEnv sampleFiles) {} throwingApp [sampleGet, sampleGet] (fun _ => rfl)
      (fun _ => ⟨_, rfl⟩) hordinary hcloses (by decide)
    have htwo := congrArg List.length hall
    rw [List.length_map, hone.2] at htwo
    exact absurd htwo (by decide)

end Lundi
