import Lundi.Core.RequestTarget
import Lundi.Server.EndToEnd

/-!
# Services over a connection

What a client may rely on for one request is a contract: which responses may come in which state of
the application, and in which states they leave it. A client that makes calls by requests, one
behind the other on a connection, reads responses that keep the contracts of the calls, in order.

* `fulfilled_of_answers`: the answers of an application that keeps the contracts;
* `exists_fulfilled_readAnswers`: a whole connection.
-/

namespace Lundi

variable {σ ι : Type} {env : Env} {opts : ServerOptions} {app : App σ}

/-- What a handler is shown of the request line. -/
theorem RawRequest.Presents.line_eq {r : RawRequest opts} {req : Request} (h : r.Presents req)
    {path : Bytes} {entries : List QueryEntry} (htarget : EncodesTarget path entries r.target) :
    req.method.bytes = r.method ∧ req.path = path ∧ req.params = [] ∧
      req.queryParams = entries := by
  obtain ⟨generation, hreq⟩ := h.parsed
  have hline := r.requestLine_parse ⟨.readBuffer generation, 0, r.head⟩ rfl
  obtain ⟨hpath, hquery⟩ := htarget.decoded
  rw [hreq]
  refine ⟨hline.1, ?_, params_parseHeaders _, ?_⟩
  · change (parseHeaders _).path = _
    rw [path_parseHeaders, hline.2, hpath]
  · change (parseHeaders _).queryParams = _
    rw [queryParams_parseHeaders, hline.2, hquery]

/-- In this state a call may be answered by this response, which may leave that state. -/
abbrev Contract (σ : Type) := σ → σ → Response → Prop

/-- Whenever the application is given the request, it answers by its contract. -/
def App.Keeps (app : App σ) (env : Env) (r : RawRequest opts) (contract : Contract σ) : Prop :=
  ∀ now user req, r.Presents req → ∃ a res,
    (app.process (env.world now) ⟨user, req⟩).outcome = some a ∧ a.result = .ok res ∧
      res.Presentable ∧ contract user a.user res

/-- Responses to a list of calls, each by its contract, in the state that the calls before have
left. -/
inductive Fulfilled (contract : ι → Contract σ) : σ → List ι → List Response → Prop
  | nil (user : σ) : Fulfilled contract user [] []
  | cons {user user' : σ} {call : ι} {calls : List ι} {res : Response} {others : List Response}
      (hone : contract call user user' res) (hrest : Fulfilled contract user' calls others) :
      Fulfilled contract user (call :: calls) (res :: others)

theorem Fulfilled.length_eq {contract : ι → Contract σ} {user : σ} {calls : List ι}
    {responses : List Response} (h : Fulfilled contract user calls responses) :
    responses.length = calls.length := by
  induction h with
  | nil user => rfl
  | cons hone hrest ih => exact congrArg (· + 1) ih

/-- What the contracts say of the responses holds of the messages that a client reads, one for each
call. -/
theorem Fulfilled.forall₂_seen {contract : ι → Contract σ} {user : σ} {calls : List ι}
    {responses : List Response} (h : Fulfilled contract user calls responses) {dates : List Bytes}
    (hlength : dates.length = calls.length) {shows : ι → Message → Prop}
    (hshows : ∀ call user user' res date, contract call user user' res →
      shows call (res.seen date)) :
    List.Forall₂ shows calls (List.zipWith Response.seen dates responses) := by
  induction h generalizing dates with
  | nil user =>
    obtain rfl := List.eq_nil_of_length_eq_zero hlength
    exact .nil
  | cons hone hrest ih =>
    obtain ⟨date, dates, rfl⟩ := List.exists_cons_of_length_eq_add_one hlength
    exact .cons (hshows _ _ _ _ _ hone) (ih (by simpa using hlength))

/-- The answers to calls that leave the connection open keep the contracts. The induction is on the
calls, with the state that the application has reached. -/
theorem fulfilled_of_answers (hrunning : ∀ t, env.shuttingDown t = false)
    {request : ι → RawRequest opts} {contract : ι → Contract σ} {calls : List ι}
    (hkeeps : ∀ call ∈ calls, app.Keeps env (request call) (contract call))
    (hcloses : ∀ call ∈ calls, (request call).asksToClose = false) {n : ℕ} {user : σ}
    (hlimit : opts.maxKeepaliveRequests ≤ 0 ∨ (n + calls.length : ℤ) < opts.maxKeepaliveRequests)
    {written : List (Bytes × Response)}
    (h : Answers env app n user (calls.map request) written) :
    Fulfilled contract user calls (written.map Prod.snd) ∧
      ∀ p ∈ written, ∃ now, p.1 = env.date now := by
  induction calls generalizing n user written with
  | nil =>
    cases h
    exact ⟨.nil _, by simp⟩
  | cons call calls ih =>
    obtain ⟨hfirst, hkeeps⟩ := List.forall_mem_cons.mp hkeeps
    obtain ⟨hopen, hcloses⟩ := List.forall_mem_cons.mp hcloses
    rw [List.length_cons] at hlimit
    push_cast at hlimit
    rw [List.map_cons] at h
    cases h with
    | last hclose hone =>
      -- Nothing closes the connection.
      obtain ⟨now, hclose⟩ := hclose
      rw [hopen, hrunning, Bool.false_or, Bool.or_false] at hclose
      have hreached := of_decide_eq_true hclose.symm
      push_cast at hreached
      omega
    | cons hclose hone hrest =>
      obtain ⟨now, req, a, res, hreq, houtcome, hok, huser, rfl⟩ := hone.answered
      obtain ⟨a', res', houtcome', hok', -, hcontract⟩ := hfirst now user req hreq
      obtain rfl := Option.some_inj.mp (houtcome.symm.trans houtcome')
      obtain rfl := Except.ok.inj (hok.symm.trans hok')
      rw [← huser] at hrest
      obtain ⟨hothers, hdates⟩ := ih hkeeps hcloses (by push_cast; omega) hrest
      exact ⟨.cons hcontract hothers, List.forall_mem_cons.mpr ⟨⟨now, rfl⟩, hdates⟩⟩

/-- A client that makes calls by requests, one behind the other on a connection, reads responses
that keep the contracts of the calls, however the bytes are cut. -/
theorem exists_fulfilled_readAnswers (hcalm : env.net.Calm)
    (hrunning : ∀ t, env.shuttingDown t = false) (hdate : ∀ t, Unbroken (env.date t))
    {request : ι → RawRequest opts} {contract : ι → Contract σ} {calls : List ι}
    (hordinary : ∀ call ∈ calls, (request call).Ordinary app)
    (hmethods : ∀ call ∈ calls, ExpectsBody (request call).method)
    (hkeeps : ∀ call ∈ calls, app.Keeps env (request call) (contract call))
    (hcloses : ∀ call ∈ calls, (request call).asksToClose = false)
    (hlimit : opts.maxKeepaliveRequests ≤ 0 ∨ (calls.length : ℤ) < opts.maxKeepaliveRequests)
    (user : σ) :
    ∃ dates responses, (∀ d ∈ dates, ∃ now, d = env.date now) ∧ dates.length = calls.length ∧
      Fulfilled contract user calls responses ∧
      readAnswers (methodsOf (calls.map request)) (handleConnection env opts app user
        ((calls.map request).flatMap RawRequest.bytes)).socket.outgoing =
          some (List.zipWith Response.seen dates responses) := by
  have hpresents : app.PresentsAll env (calls.map request) := by
    intro r hr now user' req hreq
    obtain ⟨call, hcall, rfl⟩ := List.mem_map.mp hr
    obtain ⟨a, res, houtcome, hok, hres, -⟩ := hkeeps call hcall now user' req hreq
    exact ⟨a, res, houtcome, hok, hres⟩
  obtain ⟨written, hanswers, hread⟩ :=
    exists_answers_readAnswers hcalm hdate (calls.map request) (List.forall_mem_map.mpr hordinary)
      (List.forall_mem_map.mpr hmethods) hpresents user
  obtain ⟨hfulfilled, hdates⟩ :=
    fulfilled_of_answers hrunning hkeeps hcloses (by simpa using hlimit) hanswers
  refine ⟨written.map Prod.fst, written.map Prod.snd, List.forall_mem_map.mpr hdates, ?_,
    hfulfilled, ?_⟩
  · rw [List.length_map, ← hfulfilled.length_eq, List.length_map]
  · rw [hread, List.zipWith_map, List.zipWith_self]

end Lundi
