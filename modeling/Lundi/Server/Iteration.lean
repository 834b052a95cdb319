import Lundi.Server.Framing
import Mathlib.Logic.Relation

/-!
# What an iteration does

The two halves of an iteration: which state a request is dispatched in, what is logged for a
request that is not dispatched, and what comes of one that is.

* `receives_receive`: everything that the first half of an iteration can lead to;
* `responds_respond`: everything that the second half can lead to;
* `entry_cases`, `forall_mem_log`: what an iteration leaves in the log, and from it the whole log;
* `exists_receive_eq_dispatch`: over a calm network an ordinary request within the limits that
  stands at the front of the pending bytes is received.
-/

namespace Lundi

open Search

variable {σ : Type} {env : Env} {opts : ServerOptions} {app : App σ} {c : ConnState σ}

/-- How the state at the dispatch comes from the state at the top of the loop. -/
structure Received (env : Env) (opts : ServerOptions) (app : App σ) (c : ConnState σ)
    (d : Dispatch σ) : Prop where
  requestCount_eq : d.conn.requestCount = c.requestCount + 1
  outgoing_eq : d.conn.socket.outgoing = c.socket.outgoing
  user_eq : d.conn.user = c.user
  takesOver_eq : app.takesOver d.request = false
  keepAlive_eq : ∃ now, d.conn.keepAlive =
    (c.keepAlive && !(d.request.headerEquals (ascii "connection") (ascii "close") ||
      decide (opts.maxKeepaliveRequests > 0 ∧ opts.maxKeepaliveRequests ≤ c.requestCount + 1) ||
      env.shuttingDown now))

/-- A request that is not dispatched: it is refused or its body does not come, or an endpoint takes
it over. -/
inductive Undispatched (env : Env) (app : App σ) : Exchange → Prop
  | refused {x : Exchange} (hordinary : app.takesOver x.request = false)
      (hwrites : ∀ e ∈ x.events, (∃ bytes, e = .wrote bytes) ∨ e = .writeFailed) :
      Undispatched env app x
  | handedOver {x : Exchange} (htaken : app.takesOver x.request = true) (preamble : Bytes)
      (endpoint : Endpoint) (ends : List Event) (hends : ∀ e ∈ ends, ∃ ex, e = .raised ex)
      (hevents : x.events =
        .wrote preamble :: .during (.startHandler endpoint) :: ends.map .during) :
      Undispatched env app x
  | unwritten {x : Exchange} (htaken : app.takesOver x.request = true) (hnet : ¬ env.net.Calm)
      (hevents : x.events = [.writeFailed]) : Undispatched env app x

/-- What the first half of an iteration leads to. -/
inductive Receives (env : Env) (opts : ServerOptions) (app : App σ) (c : ConnState σ) :
    Phase σ → Prop
  | dispatch {d : Dispatch σ} (h : Received env opts app c d) :
      Receives env opts app c (.dispatch d)
  | stop {exit : Exit} {x : Option Exchange} {s : Socket} (h : ∀ y ∈ x, Undispatched env app y) :
      Receives env opts app c (.stop exit x s)

theorem Undispatched.isDispatched_eq {x : Exchange} (h : Undispatched env app x) :
    x.isDispatched = false := by
  -- No event of such a request is the dispatch.
  rw [Exchange.isDispatched, List.any_eq_false]
  intro e he
  cases h with
  | refused _ hwrites =>
    rcases hwrites e he with ⟨bytes, rfl⟩ | rfl <;> simp
  | handedOver _ preamble endpoint ends _ hevents =>
    rw [hevents] at he
    rcases List.mem_cons.mp he with rfl | he
    · simp
    · rcases List.mem_cons.mp he with rfl | he
      · simp
      · obtain ⟨e, -, rfl⟩ := List.mem_map.mp he
        simp
  | unwritten _ _ hevents =>
    rw [hevents] at he
    obtain rfl := List.mem_singleton.mp he
    simp

/-! ### Everything that can happen -/

theorem receives_refuse {head : Bytes} {req : Request} (hordinary : app.takesOver req = false)
    (body : Bytes) (status : ℤ) (s : Socket) :
    Receives env opts app c (refuse env head req body status s) := by
  unfold refuse
  simp only
  split
  all_goals
    refine .stop fun y hy => ?_
    obtain rfl := Option.some_inj.mp hy
    exact .refused hordinary (by simp)

theorem receives_handOver {head : Bytes} {req : Request} (htaken : app.takesOver req = true)
    (t : Takeover) (s : Socket) : Receives env opts app c (handOver env head req t s) := by
  unfold handOver
  simp only
  split
  · -- The preamble is written; the endpoint returns, throws or is suspended for ever.
    split
    all_goals
      refine .stop fun y hy => ?_
      obtain rfl := Option.some_inj.mp hy
    · exact .handedOver htaken t.preamble t.endpoint [] (by simp) rfl
    · exact .handedOver htaken t.preamble t.endpoint [.raised _] (by simp) rfl
    · exact .handedOver htaken t.preamble t.endpoint [] (by simp) rfl
  all_goals
    next hwrite =>
      refine .stop fun y hy => ?_
      obtain rfl := Option.some_inj.mp hy
      exact .unwritten htaken (not_calm_of_run_asyncWrite hwrite (by simp)) rfl

/-- Where the endpoints have been passed, a request is refused, given up or dispatched. -/
theorem receives_receiveBody {c' : ConnState σ} {headerEnd : ℕ} {head : Bytes} {req : Request}
    (hordinary : app.takesOver req = false) (hle : headerEnd ≤ c'.buffer.size)
    (hcount : c'.requestCount = c.requestCount + 1) (hkeep : c'.keepAlive = c.keepAlive)
    (hout : c'.socket.outgoing = c.socket.outgoing) (huser : c'.user = c.user) :
    Receives env opts app c (receiveBody env opts c' headerEnd head req) := by
  -- The decision to close is made before the body is read, and the body has no part in it.
  have hreceived : ∀ (buffer : ReadBuffer) (s : Socket) (body : StringView) (n : ℕ),
      s.outgoing = c'.socket.outgoing → Received env opts app c
        ⟨{ c' with
            keepAlive := c'.keepAlive && !closing env opts c' req
            buffer := buffer
            socket := s }, head, { req with body := body }, headerEnd, n⟩ := by
    intro buffer s body n hs
    refine ⟨hcount, hs.trans hout, huser, hordinary, c'.socket.now, ?_⟩
    change (c'.keepAlive && !closing env opts c' req) = _
    rw [hkeep, closing, hcount]
    rfl
  unfold receiveBody
  simp only
  split
  · exact receives_refuse hordinary _ _ _
  · exact .dispatch (hreceived c'.buffer c'.socket req.body 0 rfl)
  next n _ =>
    rcases readBody_sound env.net c'.socket n hle with
      ⟨s, hread, -⟩ | ⟨buffer, s, hread, hbody⟩
    · rw [hread]
      exact receives_refuse hordinary _ _ _
    · rw [hread]
      exact .dispatch (hreceived _ _ _ _ hbody.outgoing_eq)

theorem receives_receive (env : Env) (opts : ServerOptions) (app : App σ) (c : ConnState σ) :
    Receives env opts app c (receive env opts app c) := by
  have hsilent : ∀ exit s, Receives env opts app c (.stop exit none s) :=
    fun exit s => .stop (by simp)
  unfold receive
  split
  next headerEnd buffer s hread =>
    split
    · exact hsilent _ _
    next hne =>
      have hsound := readHead_sound (Nat.pos_of_ne_zero hne) hread
      unfold receiveRequest
      simp only
      split
      · exact hsilent _ _
      · -- Which of the two branches is taken depends on the request alone.
        have htaken := App.isSome_takeover env.net (env.date s.now) app
          ⟨c.user, parseHeaders (headView buffer headerEnd)⟩
        split
        next t ht =>
          rw [ht] at htaken
          exact receives_handOver htaken.symm t _
        next hnone =>
          rw [hnone] at htaken
          exact receives_receiveBody htaken.symm hsound.headerEnd_le rfl rfl hsound.outgoing_eq rfl
  · exact hsilent _ _
  · exact hsilent _ _

/-- The state in which a request is dispatched. -/
theorem received_of_receive {d : Dispatch σ} (h : receive env opts app c = .dispatch d) :
    Received env opts app c d := by
  have hreceives := receives_receive env opts app c
  rw [h] at hreceives
  cases hreceives with
  | dispatch hreceived => exact hreceived

/-! ### What comes of a request that is dispatched -/

/-- The processing of a request that is dispatched. -/
def Dispatch.invocation (env : Env) (app : App σ) (d : Dispatch σ) : Invocation σ :=
  app.process (env.world d.conn.socket.now) ⟨d.conn.user, d.request⟩

/-- What is logged of it. -/
def Dispatch.events (env : Env) (app : App σ) (d : Dispatch σ) : List ConnEvent :=
  .dispatched d.request :: (d.invocation env app).events.map .during

/-- The bytes that are written when a request is answered by this response. -/
def Dispatch.answerBytes (env : Env) (d : Dispatch σ) (res : Response) : Bytes :=
  (if d.conn.keepAlive then res else res.setHeader (ascii "Connection") (ascii "close")).serialize
    (env.date d.conn.socket.now)

/-- The processing has ended with a response. -/
def HasResponse (t : Invocation σ) (res : Response) : Prop :=
  ∃ a, t.outcome = some a ∧ a.result = .ok res

/-- What the second half of an iteration leads to. -/
inductive Responds (env : Env) (app : App σ) (d : Dispatch σ) : Step σ → Prop
  | next {res : Response} {c' : ConnState σ} (hres : HasResponse (d.invocation env app) res)
      (hcount : c'.requestCount = d.conn.requestCount) (hkeep : c'.keepAlive = d.conn.keepAlive)
      (hout : c'.socket.outgoing = d.conn.socket.outgoing ++ d.answerBytes env res) :
      Responds env app d
        (.next c' ⟨d.head, d.request, d.events env app ++ [.wrote (d.answerBytes env res)]⟩)
  | unanswered {exit : Exit} (hno : ∀ res, ¬ HasResponse (d.invocation env app) res) :
      Responds env app d (.stop exit (some ⟨d.head, d.request, d.events env app⟩) d.conn.socket)
  | unwritten {exit : Exit} {s : Socket} (hnet : ¬ env.net.Calm) :
      Responds env app d
        (.stop exit (some ⟨d.head, d.request, d.events env app ++ [.writeFailed]⟩) s)

theorem responds_respond (env : Env) (app : App σ) (d : Dispatch σ) :
    Responds env app d (respond env app d) := by
  unfold respond
  simp only
  split
  next hnone =>
    -- The behaviour is undefined.
    refine .unanswered fun res ⟨a, ha, _⟩ => ?_
    rw [Dispatch.invocation, hnone] at ha
    exact absurd ha (by simp)
  next a ha =>
    split
    next e herror =>
      -- An exception has reached the connection.
      refine .unanswered fun res ⟨a', ha', hok⟩ => ?_
      rw [Dispatch.invocation, ha] at ha'
      obtain rfl := Option.some_inj.mp ha'
      rw [herror] at hok
      exact absurd hok (by simp)
    next res hok =>
      -- The write buffer is cleared before, so it holds just the response.
      have hbytes := Response.contents_serializeInto (env.date d.conn.socket.now)
        (if d.conn.keepAlive then res else res.setHeader (ascii "Connection") (ascii "close"))
        d.conn.outBuf.clear
      rw [WriteBuffer.contents_clear, List.nil_append] at hbytes
      simp only [hbytes]
      split
      next s hwrite =>
        exact .next ⟨a, ha, hok⟩ rfl rfl (congrArg Socket.outgoing (asyncWrite_sound hwrite))
      next e s hwrite => exact .unwritten (not_calm_of_run_asyncWrite hwrite (by simp))
      next s hwrite => exact .unwritten (not_calm_of_run_asyncWrite hwrite (by simp))

/-! ### What is logged -/

/-- The entry that an iteration leaves in the log. -/
def Step.entry : Step σ → Option Exchange
  | .next _ x => some x
  | .stop _ x _ => x

/-- A request that is logged was not dispatched, or it was processed and at most a write came after
that. -/
theorem entry_cases {x : Exchange} (hx : x ∈ (step env opts app c).entry) :
    Undispatched env app x ∨ ∃ d writes, Received env opts app c d ∧
      x = ⟨d.head, d.request, d.events env app ++ writes⟩ ∧
      ∀ e ∈ writes, (∃ bytes, e = .wrote bytes) ∨ e = .writeFailed := by
  have hreceives := receives_receive env opts app c
  rw [step] at hx
  cases hreceive : receive env opts app c with
  | stop exit y s =>
    rw [hreceive] at hx hreceives
    cases hreceives with
    | stop h => exact Or.inl (h x hx)
  | dispatch d =>
    rw [hreceive] at hx
    have hresponds := responds_respond env app d
    refine Or.inr ⟨d, ?_⟩
    -- The step itself does not matter, only that it is one of the three.
    revert hresponds hx
    simp only
    generalize respond env app d = st
    intro hx hresponds
    cases hresponds with
    | next _ _ _ _ =>
      obtain rfl := Option.some_inj.mp hx
      exact ⟨_, received_of_receive hreceive, rfl, by simp⟩
    | unanswered _ =>
      obtain rfl := Option.some_inj.mp hx
      exact ⟨[], received_of_receive hreceive, by simp, by simp⟩
    | unwritten _ =>
      obtain rfl := Option.some_inj.mp hx
      exact ⟨_, received_of_receive hreceive, rfl, by simp⟩

/-- A request that was dispatched was processed, and after that at most its response was written. -/
theorem entry_dispatched {x : Exchange} (hx : x ∈ (step env opts app c).entry)
    (hdispatched : x.isDispatched = true) :
    ∃ d, Received env opts app c d ∧ x.request = d.request ∧
      ((∃ res, HasResponse (d.invocation env app) res ∧
          x.events = d.events env app ++ [.wrote (d.answerBytes env res)]) ∨
        ((∀ res, ¬ HasResponse (d.invocation env app) res) ∧ x.events = d.events env app) ∨
        (¬ env.net.Calm ∧ x.events = d.events env app ++ [.writeFailed])) := by
  have hreceives := receives_receive env opts app c
  rw [step] at hx
  cases hreceive : receive env opts app c with
  | stop exit y s =>
    rw [hreceive] at hx hreceives
    cases hreceives with
    | stop h =>
      rw [(h x hx).isDispatched_eq] at hdispatched
      exact absurd hdispatched Bool.false_ne_true
  | dispatch d =>
    rw [hreceive] at hx
    have hresponds := responds_respond env app d
    refine ⟨d, received_of_receive hreceive, ?_⟩
    revert hresponds hx
    simp only
    generalize respond env app d = st
    intro hx hresponds
    cases hresponds with
    | next hres _ _ _ =>
      obtain rfl := Option.some_inj.mp hx
      exact ⟨rfl, Or.inl ⟨_, hres, rfl⟩⟩
    | unanswered hno =>
      obtain rfl := Option.some_inj.mp hx
      exact ⟨rfl, Or.inr (Or.inl ⟨hno, rfl⟩)⟩
    | unwritten hnet =>
      obtain rfl := Option.some_inj.mp hx
      exact ⟨rfl, Or.inr (Or.inr ⟨hnet, rfl⟩)⟩

/-- The loop goes from one state to the next. -/
def Goes (env : Env) (opts : ServerOptions) (app : App σ) (c c' : ConnState σ) : Prop :=
  c.keepAlive = true ∧ ∃ x, step env opts app c = .next c' x

/-- What holds of the entry of every iteration that is reached holds of the whole log. -/
theorem forall_mem_log_of_reaches {P : Exchange → Prop} {c : ConnState σ}
    (h : ∀ c', Relation.ReflTransGen (Goes env opts app) c c' → c'.keepAlive = true →
      ∀ x ∈ (step env opts app c').entry, P x) (budget : ℕ) :
    ∀ x ∈ (runFor env opts app budget c).log, P x := by
  induction budget generalizing c with
  | zero => simp [runFor]
  | succ budget ih =>
    rw [runFor]
    split
    next hkeep =>
      have hstep := h c .refl hkeep
      cases hs : step env opts app c with
      | next c' x =>
        rw [hs] at hstep
        -- What is reached behind this iteration is reached through it.
        have hrest := ih fun c'' hreaches => h c'' (.head ⟨hkeep, x, hs⟩ hreaches)
        exact List.forall_mem_cons.mpr ⟨hstep x rfl, hrest⟩
      | stop exit x s =>
        rw [hs] at hstep
        intro y hy
        exact hstep y (Option.mem_toList.mp hy)
    · simp

/-- What holds of the entry of every iteration holds of the whole log. -/
theorem forall_mem_log {P : Exchange → Prop}
    (h : ∀ c : ConnState σ, ∀ x ∈ (step env opts app c).entry, P x) (budget : ℕ)
    (c : ConnState σ) : ∀ x ∈ (runFor env opts app budget c).log, P x :=
  forall_mem_log_of_reaches (fun c' _ _ => h c') budget

/-! ### Calm networks -/

variable {net : Network}

/-- Over a calm network a body that is sent is received. -/
theorem exists_readBody_eq_done (hcalm : net.Calm) {buffer : ReadBuffer} {s : Socket}
    {headerEnd n : ℕ} (hhead : headerEnd ≤ buffer.size)
    (hsent : headerEnd + n ≤ (pending buffer s).length) :
    ∃ buffer' s', (readBody net buffer headerEnd n).run s = (.done (some buffer'), s') := by
  rw [pending, List.length_append, ReadBuffer.length_contents] at hsent
  unfold readBody
  simp only
  by_cases hmore : n > buffer.size - headerEnd
  · -- What is missing is still to come.
    have hlen : (s.incoming.take (n - (buffer.size - headerEnd))).length =
        n - (buffer.size - headerEnd) := List.length_take_of_le (by omega)
    have hread := run_asyncRead hcalm (List.take_append_drop _ s.incoming).symm hlen
    rw [if_pos hmore, if_pos (by omega), Awaitable.run_bind, run_orTimeout, hread]
    exact ⟨_, _, rfl⟩
  · rw [if_neg hmore, if_neg (lt_irrefl 0)]
    exact ⟨_, _, rfl⟩

/-- Over a calm network a head that fits is read, by the first request and by the others. -/
theorem exists_readHead_eq_done (hcalm : env.net.Calm)
    (hhead : findHeaderEnd c.unread 0 ≠ 0) (hfits : findHeaderEnd c.unread 0 ≤ opts.maxHeaderSize) :
    ∃ headerEnd buffer s, (readHead env.net opts c).run c.socket = (.done (headerEnd, buffer), s) ∧
      0 < headerEnd := by
  unfold readHead
  split
  · obtain ⟨⟨headerEnd, buffer⟩, s, hread, hpos⟩ :=
      readHeadersWithTimeout_complete hcalm hhead hfits
    exact ⟨headerEnd, buffer, s, hread, hpos⟩
  · obtain ⟨⟨headerEnd, buffer⟩, s, hread, hpos⟩ := readHeaders_complete hcalm hhead hfits
    exact ⟨headerEnd, buffer, s, hread, hpos⟩

/-- Over a calm network an ordinary request that stands at the front of the pending bytes with its
whole body is received. -/
theorem exists_receive_eq_dispatch (hcalm : env.net.Calm) {n : ℕ}
    (hhead : findHeaderEnd c.unread 0 ≠ 0) (hfits : findHeaderEnd c.unread 0 ≤ opts.maxHeaderSize)
    (hframing : framing opts.maxBodySize (c.unread.take (findHeaderEnd c.unread 0)) = some n)
    (hsent : findHeaderEnd c.unread 0 + n ≤ c.unread.length)
    (hrequest : ∀ data : StringView, data.bytes = c.unread.take (findHeaderEnd c.unread 0) →
      (parseHeaders data).method.bytes ≠ [] ∧ app.takesOver (parseHeaders data) = false) :
    ∃ d, receive env opts app c = .dispatch d := by
  -- The head is read, and it is the one at the front of the pending bytes.
  obtain ⟨headerEnd, buffer, s, hread, hpos⟩ := exists_readHead_eq_done hcalm hhead hfits
  have hsound := readHead_sound hpos hread
  have hend : headerEnd = findHeaderEnd c.unread 0 := hsound.headerEnd_eq hpos
  have hpending : pending buffer s = c.unread := hsound.pending_eq
  have hview : (headView buffer headerEnd).bytes = c.unread.take (findHeaderEnd c.unread 0) := by
    rw [← hend, ← hpending, pending, List.take_append_of_le_length (by
      rw [ReadBuffer.length_contents]
      exact hsound.headerEnd_le)]
    rfl
  -- The request parsed from it has a method, and no endpoint takes it over.
  obtain ⟨hmethod, hordinary⟩ := hrequest _ hview
  have htakeover : app.takeover env.net (env.date s.now)
      ⟨c.user, parseHeaders (headView buffer headerEnd)⟩ = none := by
    rw [← Option.not_isSome_iff_eq_none, App.isSome_takeover, hordinary]
    exact Bool.false_ne_true
  -- Its body is the one that the head stands for, and it comes.
  have hdeclared := declared_parseHeaders opts (headView buffer headerEnd)
  rw [hview, hframing] at hdeclared
  unfold receive
  rw [hread]
  simp only [if_neg hpos.ne']
  unfold receiveRequest
  simp only [if_neg hmethod, htakeover]
  unfold receiveBody
  cases hdecl : declared opts (parseHeaders (headView buffer headerEnd)) with
  | refused =>
    rw [hdecl] at hdeclared
    exact absurd hdeclared (by simp)
  | absent => exact ⟨_, rfl⟩
  | length m =>
    rw [hdecl] at hdeclared
    obtain rfl : n = m := by simpa using hdeclared
    obtain ⟨buffer', s', hbody⟩ := exists_readBody_eq_done hcalm hsound.headerEnd_le (n := n)
      (by rw [hend, hpending]; exact hsent)
    simp only [hbody]
    exact ⟨_, rfl⟩

end Lundi
