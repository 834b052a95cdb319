import Lundi.Server.Takeovers

/-!
# Requests that are refused

A connection on which requests are answered until one comes that is refused: its head announces a
body that is too long or no length at all, or its body stops before it is complete. The client
then reads the refusal behind the answers. Nothing that stands in a body that is refused, or behind
it, is taken for a request.

* `Refused`: what is refused, and how;
* `exists_step_eq_refuse`: the iteration that refuses;
* `readAnswers_handleConnection_refused`: a whole connection.
-/

namespace Lundi

variable {σ : Type} {env : Env} {opts : ServerOptions} {app : App σ}

/-- The head of a request that does not stand for the length of a body. -/
structure RefusedHead (opts : ServerOptions) where
  method : Bytes
  target : Bytes
  version : Bytes
  fieldLines : List Bytes
  isToken_method : IsToken method
  isToken_target : IsToken target
  isToken_version : IsToken version
  isLine_fieldLines : ∀ l ∈ fieldLines, IsLine l
  length_head_le :
    (headOf (requestLine method target version :: fieldLines)).length ≤ opts.maxHeaderSize
  framing_eq : framing opts.maxBodySize
    (headOf (requestLine method target version :: fieldLines)) = none

/-- The head as it is sent. -/
def RefusedHead.head (h : RefusedHead opts) : Bytes :=
  headOf (requestLine h.method h.target h.version :: h.fieldLines)

/-- What a client sends at last and how it is refused: a head that announces no length or too great
a one, with anything behind it, or a request of whose body a part is missing when the client closes
its side. No endpoint takes it over. The arguments are the method of the request, what is sent, and
the text and the status of the refusal. -/
inductive Refused (opts : ServerOptions) (app : App σ) : Bytes → Bytes → Bytes → ℤ → Prop
  | length (h : RefusedHead opts) (rest : Bytes)
      (hordinary : ∀ data : StringView, data.bytes = h.head →
        app.takesOver (parseHeaders data) = false) :
      Refused opts app h.method (h.head ++ rest) (ascii "Payload Too Large") 413
  | incomplete (r : RawRequest opts) (part : Bytes) (hordinary : r.Ordinary app)
      (hpart : part.length < r.bodyBytes.length) :
      Refused opts app r.method (r.head ++ part) (ascii "Request Timeout") 408

/-- The response that refuses. -/
def refusal (text : Bytes) (status : ℤ) : Response := (Response.text text status).announcing true

theorem legible_refusal {method ending text : Bytes} {status : ℤ}
    (h : Refused opts app method ending text status) : (refusal text status).Legible := by
  -- Nothing but the announcement of the end is added to the head.
  have hfields : ∀ body status', ∀ f ∈ (Response.text body status').customFields, False := by
    intro body status' f hf
    simp [Response.customFields, Response.writtenHeaders, Response.text] at hf
  have hpresentable : (Response.text text status).Presentable := by
    refine Response.HasBodyStatus.presentable ?_ (fun f hf => (hfields _ _ f hf).elim)
      (Response.framed_of_forall_ne fun f hf => (hfields _ _ f hf).elim) ?_ rfl
    · cases h <;> decide
    · cases h <;> decide
  exact hpresentable.announcing true

/-! ### One iteration -/

/-- Over a calm network a refusal is written. -/
theorem refuse_eq (σ : Type) (hcalm : env.net.Calm) (head : Bytes) (req : Request)
    (text : Bytes) (status : ℤ) (s : Socket) :
    ∃ x s', (refuse env head req text status s : Phase σ) = .stop .closed (some x) s' ∧
      s'.outgoing = s.outgoing ++ Response.serialize (env.date s.now) (refusal text status) ∧
      x.isDispatched = false := by
  unfold refuse
  simp only [run_asyncWrite hcalm]
  exact ⟨_, _, rfl, rfl, rfl⟩

/-- An ordinary request whose head has been read: its body is received. -/
theorem receive_eq_receiveBody {c : ConnState σ} {headerEnd : ℕ} {buffer : ReadBuffer} {s : Socket}
    {data : StringView}
    (hread : (readHead env.net opts c).run c.socket = (.done (headerEnd, buffer), s))
    (hpos : 0 < headerEnd) (hview : headView buffer headerEnd = data)
    (hmethod : (parseHeaders data).method.bytes ≠ [])
    (hordinary : app.takesOver (parseHeaders data) = false) :
    receive env opts app c = receiveBody env opts
      { c with buffer := buffer, socket := s, requestCount := c.requestCount + 1 } headerEnd
      data.bytes (parseHeaders data) := by
  have hsome := App.isSome_takeover env.net (env.date s.now) app ⟨c.user, parseHeaders data⟩
  rw [hordinary] at hsome
  have hnone := Option.not_isSome_iff_eq_none.mp (Bool.eq_false_iff.mp hsome)
  rw [receive, hread]
  simp only [if_neg hpos.ne']
  unfold receiveRequest
  simp only [hview, if_neg hmethod]
  rw [hnone]

/-- Over a calm network a body of which a part does not come is given up. -/
theorem exists_readBody_eq_none (net : Network) {buffer : ReadBuffer} {s : Socket} {headerEnd n : ℕ}
    (hle : headerEnd ≤ buffer.size) (hmissing : (pending buffer s).length < headerEnd + n) :
    ∃ s', (readBody net buffer headerEnd n).run s = (.done none, s') ∧
      s'.outgoing = s.outgoing := by
  rcases readBody_sound net s n hle with hnone | ⟨buffer', s', -, hbody⟩
  · exact hnone
  · -- The whole body cannot be in the buffer.
    have hlength := congrArg List.length hbody.pending_eq
    have hsize := hbody.length_le
    rw [pending, List.length_append, ReadBuffer.length_contents] at hlength
    omega

/-- An iteration with something at the front of the pending bytes that is refused. -/
theorem exists_step_eq_refuse (hcalm : env.net.Calm) {c : ConnState σ}
    {method ending text : Bytes} {status : ℤ} (h : Refused opts app method ending text status)
    (hunread : c.unread = ending) :
    ∃ x s now, step env opts app c = .stop .closed (some x) s ∧
      s.outgoing = c.socket.outgoing ++
        Response.serialize (env.date now) (refusal text status) ∧
      x.isDispatched = false := by
  suffices hreceive : ∃ x s now, receive env opts app c = .stop .closed (some x) s ∧
      s.outgoing = c.socket.outgoing ++
        Response.serialize (env.date now) (refusal text status) ∧ x.isDispatched = false by
    obtain ⟨x, s, now, hreceive, hrest⟩ := hreceive
    exact ⟨x, s, now, by rw [step, hreceive], hrest⟩
  cases h with
  | length h rest hordinary =>
    have hline := isLine_requestLine h.isToken_method h.isToken_target h.isToken_version
    have hlines := List.forall_mem_cons.mpr ⟨hline, h.isLine_fieldLines⟩
    obtain ⟨buffer, s, hread, hpos, hsound, hview⟩ := exists_readHead_of_lines hcalm hlines
      (show h.head = _ from rfl) hunread h.length_head_le
    have hmethod : (parseHeaders ⟨.readBuffer buffer.generation, 0, h.head⟩).method.bytes ≠ [] := by
      rw [(requestLine_parseHeaders h.isToken_method.2.1 h.isToken_target.2.1 hline.not_crlf
        (show h.head = _ from headOf_cons _ _)).1]
      exact h.isToken_method.1
    -- No length is declared that is taken.
    have hdeclared : declared opts
        (parseHeaders ⟨.readBuffer buffer.generation, 0, h.head⟩) = .refused := by
      have hframing := declared_parseHeaders opts ⟨.readBuffer buffer.generation, 0, h.head⟩
      rw [show framing opts.maxBodySize h.head = none from h.framing_eq] at hframing
      cases hdecl : declared opts (parseHeaders ⟨.readBuffer buffer.generation, 0, h.head⟩) with
      | absent =>
        rw [hdecl] at hframing
        exact absurd hframing (by simp)
      | length n =>
        rw [hdecl] at hframing
        exact absurd hframing (by simp)
      | refused => rfl
    rw [receive_eq_receiveBody hread hpos hview hmethod (hordinary _ rfl), receiveBody]
    obtain ⟨x, s', hrefuse, hout, hno⟩ := refuse_eq σ hcalm h.head
      (parseHeaders ⟨.readBuffer buffer.generation, 0, h.head⟩) (ascii "Payload Too Large") 413 s
    simp only [hdeclared]
    exact ⟨x, s', s.now, hrefuse, by rw [hout, hsound.outgoing_eq], hno⟩
  | incomplete r part hordinary hpart =>
    obtain ⟨buffer, s, hread, hpos, hsound, hview⟩ := exists_readHead_of_lines hcalm r.isLine_lines
      (show r.head = _ from rfl) hunread r.length_head_le
    have hmethod : (parseHeaders ⟨.readBuffer buffer.generation, 0, r.head⟩).method.bytes ≠ [] := by
      rw [(r.requestLine_parse _ rfl).1]
      exact r.isToken_method.1
    -- The length of the body is declared, and a part of it does not come.
    have hdeclared : declared opts (parseHeaders ⟨.readBuffer buffer.generation, 0, r.head⟩) =
        .length r.bodyBytes.length := by
      have hframing := declared_parseHeaders opts ⟨.readBuffer buffer.generation, 0, r.head⟩
      rw [show framing opts.maxBodySize r.head = _ from r.framing_head] at hframing
      cases hdecl : declared opts (parseHeaders ⟨.readBuffer buffer.generation, 0, r.head⟩) with
      | absent =>
        rw [hdecl] at hframing
        have hzero := Option.some_inj.mp hframing
        omega
      | length n =>
        rw [hdecl] at hframing
        rw [Option.some_inj.mp hframing]
      | refused =>
        rw [hdecl] at hframing
        exact absurd hframing (by simp)
    obtain ⟨s₁, hbody, hout₁⟩ := exists_readBody_eq_none env.net (n := r.bodyBytes.length)
      hsound.headerEnd_le (s := s) (by
        rw [hsound.pending_eq.trans hunread, List.length_append]
        exact Nat.add_lt_add_left hpart _)
    rw [receive_eq_receiveBody hread hpos hview hmethod (hordinary _ rfl), receiveBody]
    obtain ⟨x, s', hrefuse, hout, hno⟩ := refuse_eq σ hcalm r.head
      (parseHeaders ⟨.readBuffer buffer.generation, 0, r.head⟩) (ascii "Request Timeout") 408 s₁
    simp only [hdeclared, hbody]
    exact ⟨x, s', s₁.now, hrefuse, by rw [hout, hout₁, hsound.outgoing_eq], hno⟩

/-! ### A connection -/

/-- Requests, and something that is refused behind them: the client reads the answers of the
service to the requests and then the refusal, which announces the end of the connection. The
connection is closed, and nothing but these requests has been dispatched. -/
theorem readAnswers_handleConnection_refused (hcalm : env.net.Calm)
    (hrunning : ∀ t, env.shuttingDown t = false) (hdate : ∀ t, Unbroken (env.date t))
    {requests : List (RawRequest opts)} (hordinary : ∀ r ∈ requests, r.Ordinary app)
    (hmethods : ∀ r ∈ requests, ExpectsBody r.method)
    (hpresents : app.PresentsAll env requests) (hcloses : ∀ r ∈ requests, r.asksToClose = false)
    (hlimit : opts.maxKeepaliveRequests ≤ 0 ∨
      (requests.length : ℤ) < opts.maxKeepaliveRequests) {method ending text : Bytes} {status : ℤ}
    (hrefused : Refused opts app method ending text status) (hmethod : ExpectsBody method)
    (user : σ) :
    ∃ written now, Answers env app 0 user requests written ∧
      written.length = requests.length ∧
      let run := handleConnection env opts app user
        (requests.flatMap RawRequest.bytes ++ ending)
      readAnswers (methodsOf requests ++ [method]) run.socket.outgoing =
          some ((written.map fun p => Response.seen p.1 p.2) ++
            [Response.seen (env.date now) (refusal text status)]) ∧
        run.exit = .closed ∧
        (run.log.filter Exchange.isDispatched).map Exchange.values =
          requests.map RawRequest.values := by
  have hunread := unread_init user (requests.flatMap RawRequest.bytes ++ ending)
  obtain ⟨written, c, log, budget, hupTo, hending, hbudget, hlog, hvalues, hrun⟩ :=
    exists_answersUpTo hcalm hrunning
      (c := ConnState.init user (requests.flatMap RawRequest.bytes ++ ending)) rfl hunread
      hordinary hpresents hcloses (by simpa [ConnState.init] using hlimit)
      (by rw [hunread]; exact Nat.lt_succ_self _)
  obtain ⟨budget, rfl⟩ : ∃ b, budget = b + 1 := ⟨budget - 1, by omega⟩
  obtain ⟨x, s, now, hstep, hout, hno⟩ := exists_step_eq_refuse hcalm hrefused hending
  have hlast : runFor env opts app (budget + 1) c = ⟨[x], .closed, c, s⟩ := by
    rw [runFor, if_pos hupTo.keepAlive_eq, hstep]
    rfl
  refine ⟨written, now, hupTo.answers, hupTo.length_eq, ?_⟩
  simp only [handleConnection, hrun, hlast]
  refine ⟨?_, trivial, ?_⟩
  · -- The refusal is one more response behind the answers.
    have hsent : s.outgoing = (written ++ [(env.date now, refusal text status)]).flatMap
        fun p => Response.serialize p.1 p.2 := by
      rw [hout, hupTo.outgoing_eq, List.flatMap_append, List.flatMap_singleton]
      rfl
    have hread : readAnswers (methodsOf requests ++ [method])
        ((written ++ [(env.date now, refusal text status)]).flatMap
          fun p => Response.serialize p.1 p.2) =
          some ((written ++ [(env.date now, refusal text status)]).map
            fun p => Response.seen p.1 p.2) := by
      have hall : ∀ m ∈ methodsOf requests ++ [method], ExpectsBody m := List.forall_mem_append.mpr
        ⟨expectsBody_methodsOf hmethods, List.forall_mem_singleton.mpr hmethod⟩
      apply readAnswers_flatMap _ hall (by simp [methodsOf, hupTo.length_eq])
      intro p hp rest
      rcases List.mem_append.mp hp with hp | hp
      · obtain ⟨⟨now', hnow⟩, hres⟩ := hupTo.legible p hp
        rw [hnow]
        exact hres _ (hdate now') rest
      · obtain rfl := List.mem_singleton.mp hp
        exact legible_refusal hrefused _ (hdate now) rest
    rw [hsent, hread, List.map_append]
    rfl
  · rw [List.filter_append, List.filter_eq_self.mpr hlog, List.filter_cons_of_neg (by simp [hno]),
      List.filter_nil, List.append_nil, hvalues]

/-! ### A concrete connection -/

/-- A head that announces one byte more than is taken. -/
def longUpload : RefusedHead defaultOptions where
  method := ascii "PUT"
  target := ascii "/c"
  version := ascii "HTTP/1.0"
  fieldLines := [ascii "Content-Length: 10485761"]
  isToken_method := by decide
  isToken_target := by decide
  isToken_version := by decide
  isLine_fieldLines := by decide
  length_head_le := by decide
  framing_eq := by decide +kernel

/-- A request that is answered before, and that stands in the place of the body. -/
def plainGet : RawRequest defaultOptions :=
  sampleGetFor (ascii "/d") (by decide) (by decide)

/-- A request, and behind it an upload that is refused and whose body looks like a request. -/
theorem readAnswers_handleConnection_refused_longUpload :
    ∃ written now, Answers bytewiseEnv (.empty : App Unit) 0 () [plainGet] written ∧
      written.length = [plainGet].length ∧
      let run := handleConnection bytewiseEnv defaultOptions (.empty : App Unit) ()
        ([plainGet].flatMap RawRequest.bytes ++ (longUpload.head ++ plainGet.bytes))
      readAnswers (methodsOf [plainGet] ++ [longUpload.method]) run.socket.outgoing =
          some ((written.map fun p => Response.seen p.1 p.2) ++
            [Response.seen (bytewiseEnv.date now) (refusal (ascii "Payload Too Large") 413)]) ∧
        run.exit = .closed ∧
        (run.log.filter Exchange.isDispatched).map Exchange.values =
          [plainGet].map RawRequest.values := by
  have hdate : ∀ t, Unbroken (bytewiseEnv.date t) := fun _ =>
    show Unbroken (ascii "Sun, 06 Nov 1994 08:49:37 GMT") by decide
  have hrefused : Refused defaultOptions (.empty : App Unit) longUpload.method
      (longUpload.head ++ plainGet.bytes) (ascii "Payload Too Large") 413 :=
    .length longUpload plainGet.bytes fun _ _ => by simp [App.takesOver, App.empty]
  have hordinary : ∀ r ∈ [plainGet], r.Ordinary (.empty : App Unit) := fun r _ => ordinary_empty r
  have hcloses : ∀ r ∈ [plainGet], r.asksToClose = false := by decide
  have hcalm : bytewiseEnv.net.Calm := fun _ => ⟨1, rfl⟩
  exact readAnswers_handleConnection_refused hcalm (fun _ => rfl) hdate hordinary (by decide)
    (presentsAll_empty _ _) hcloses (Or.inr (by decide)) hrefused (by decide) ()

end Lundi
