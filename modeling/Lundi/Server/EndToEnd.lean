import Lundi.Client.RoundTrip
import Lundi.Server.ConnectionField
import Lundi.Server.Segmentation

/-!
# What a client sees of a connection

`Answers` is the service without a connection: an application that is given requests one after the
other, keeps its state from one to the next, and stops behind the first request that closes. A
connection is compared with it through the eyes of a client, which reads responses from the bytes
that are sent.

* `step_answers`: one iteration answers the request at the front of the pending bytes;
* `answers_runFor`: a run, by induction on the requests;
* `readAnswers_handleConnection`: a whole connection.
-/

namespace Lundi

variable {σ : Type} {env : Env} {opts : ServerOptions} {app : App σ}

/-! ### The service -/

namespace RawRequest

/-- The first `Connection` field asks to close the connection. -/
def asksToClose (r : RawRequest opts) : Bool :=
  (valuesOf (ascii "connection") (r.fieldLines.filterMap fieldOf)).head?.any
    (equalsIgnoreCase · (ascii "close"))

/-- A lookup finds the first of the fields with the name. -/
theorem findHeaderCi_head {r : RawRequest opts} {data : StringView} (hdata : data.bytes = r.head)
    (name : Bytes) : ((parseHeaders data).findHeaderCi name).map StringView.bytes =
      (valuesOf name (r.fieldLines.filterMap fieldOf)).head? := by
  rw [findHeaderCi_eq, fieldsRead_parseHeaders, hdata, take_fields_head]

/-- A request as the handlers are given it: parsed from the head, with the body. -/
structure Presents (r : RawRequest opts) (req : Request) : Prop where
  parsed : ∃ generation, req =
    { parseHeaders ⟨.readBuffer generation, 0, r.head⟩ with body := req.body }
  body_eq : req.body.bytes = r.bodyBytes

theorem Presents.findHeaderCi_eq {r : RawRequest opts} {req : Request} (h : r.Presents req)
    (name : Bytes) : (req.findHeaderCi name).map StringView.bytes =
      (valuesOf name (r.fieldLines.filterMap fieldOf)).head? := by
  obtain ⟨generation, hreq⟩ := h.parsed
  rw [hreq]
  have hbytes : StringView.bytes ⟨.readBuffer generation, 0, r.head⟩ = r.head := rfl
  exact findHeaderCi_head hbytes name

/-- The server looks at the first `Connection` field. -/
theorem Presents.headerEquals_eq {r : RawRequest opts} {req : Request} (h : r.Presents req) :
    req.headerEquals (ascii "connection") (ascii "close") = r.asksToClose := by
  rw [Request.headerEquals, asksToClose, ← h.findHeaderCi_eq]
  cases req.findHeaderCi (ascii "connection") <;> rfl

end RawRequest

/-- A response as it is written: the last one of a connection says that it is the last. -/
def Response.announcing (close : Bool) (res : Response) : Response :=
  if close then res.setHeader (ascii "Connection") (ascii "close") else res

/-- What a client makes of a response. -/
def Response.seen (date : Bytes) (res : Response) : Message :=
  ⟨res.status.toNat, (res.headFields date).map trimmed, res.body⟩

/-- Whether the connection is to be closed behind its `n`-th request. The shutdown flag is read at
some time while the request is received. -/
def ClosesBehind (env : Env) (r : RawRequest opts) (n : ℕ) (close : Bool) : Prop :=
  ∃ now, close = (r.asksToClose ||
    decide (opts.maxKeepaliveRequests > 0 ∧ opts.maxKeepaliveRequests ≤ n) || env.shuttingDown now)

/-- The application, in this state, answers a request with this response, which is written with
this date and announces the end of the connection or not. -/
structure AnswersOne (env : Env) (app : App σ) (user : σ) (r : RawRequest opts) (close : Bool)
    (written : Bytes × Response) (user' : σ) : Prop where
  answered : ∃ now req a res, r.Presents req ∧
    (app.process (env.world now) ⟨user, req⟩).outcome = some a ∧ a.result = .ok res ∧
    a.user = user' ∧ written = (env.date now, res.announcing close)

/-- The service: requests are answered one after the other, up to the first that closes. The number
counts the requests before them. -/
inductive Answers (env : Env) (app : App σ) :
    ℕ → σ → List (RawRequest opts) → List (Bytes × Response) → Prop
  | nil (n : ℕ) (user : σ) : Answers env app n user [] []
  | last {n : ℕ} {user user' : σ} {r : RawRequest opts} {requests : List (RawRequest opts)}
      {written : Bytes × Response} (hclose : ClosesBehind env r (n + 1) true)
      (hone : AnswersOne env app user r true written user') :
      Answers env app n user (r :: requests) [written]
  | cons {n : ℕ} {user user' : σ} {r : RawRequest opts} {requests : List (RawRequest opts)}
      {written : Bytes × Response} {others : List (Bytes × Response)}
      (hclose : ClosesBehind env r (n + 1) false)
      (hone : AnswersOne env app user r false written user')
      (hrest : Answers env app (n + 1) user' requests others) :
      Answers env app n user (r :: requests) (written :: others)

/-- There are no more answers than requests. -/
theorem Answers.length_le {n : ℕ} {user : σ} {requests : List (RawRequest opts)}
    {written : List (Bytes × Response)} (h : Answers env app n user requests written) :
    written.length ≤ requests.length := by
  induction h with
  | nil => exact le_rfl
  | last => exact Nat.succ_le_succ (Nat.zero_le _)
  | cons _ _ _ ih => exact Nat.succ_le_succ ih

/-- When nothing closes the connection, every request is answered. -/
theorem Answers.length_eq {n : ℕ} {user : σ} {requests : List (RawRequest opts)}
    {written : List (Bytes × Response)} (h : Answers env app n user requests written)
    (hrunning : ∀ t, env.shuttingDown t = false)
    (hcloses : ∀ r ∈ requests.dropLast, r.asksToClose = false)
    (hlimit : opts.maxKeepaliveRequests ≤ 0 ∨
      (n + requests.length : ℤ) ≤ opts.maxKeepaliveRequests) :
    written.length = requests.length := by
  induction h with
  | nil n user => rfl
  | @last n user user' r requests written hclose hone =>
    -- A request that closes is the last one.
    cases requests with
    | nil => rfl
    | cons r' requests =>
      obtain ⟨now, hclose⟩ := hclose
      rw [hcloses r List.mem_cons_self, hrunning, Bool.false_or, Bool.or_false] at hclose
      have hreached := of_decide_eq_true hclose.symm
      rw [List.length_cons, List.length_cons] at hlimit
      push_cast at hlimit hreached
      omega
  | @cons n user user' r requests written others hclose hone hrest ih =>
    rw [List.length_cons, List.length_cons, ih]
    · intro r' hr'
      apply hcloses r'
      cases requests with
      | nil => simp at hr'
      | cons r'' requests => exact List.mem_cons_of_mem _ hr'
    · rw [List.length_cons] at hlimit
      push_cast at hlimit ⊢
      omega

namespace Response

/-- A client reads the response back, whatever comes behind it. -/
def Legible (res : Response) : Prop :=
  ∀ date, Unbroken date → ∀ rest,
    readResponse (res.serialize date ++ rest) = some (res.seen date, rest)

/-- A handler's response that a client can read: it is a final one, and all of its custom headers
are written. -/
structure Presentable (res : Response) : Prop extends res.Readable where
  final : 200 ≤ res.status
  counted : res.Counted

theorem HasBodyStatus.presentable {res : Response} (h : res.HasBodyStatus)
    (hclean : ∀ f ∈ res.customFields, CleanField f) (hframed : res.Framed)
    (hlength : res.body.length < 2 ^ 64) (hcounted : res.Counted) : res.Presentable :=
  ⟨h.readable hclean hframed hlength, h.1, hcounted⟩

theorem Presentable.legible {res : Response} (h : res.Presentable) : res.Legible :=
  fun _ hdate rest => h.toReadable.readResponse_serialize hdate rest

/-- A header that is set does not replace the generated length, unless it has its name. -/
theorem hasContentLength_setHeader {res : Response} (hcounted : res.Counted) {name : Bytes}
    (hname : equalsIgnoreCase name (ascii "content-length") = false) (value : Bytes) :
    (res.setHeader name value).hasContentLength = res.hasContentLength := by
  have hne : (name == ascii "Content-Length" || name == ascii "content-length") = false := by
    rw [Bool.or_eq_false_iff, beq_eq_false_iff_ne, beq_eq_false_iff_ne]
    constructor
    · rintro rfl
      exact absurd hname (by decide)
    · rintro rfl
      exact absurd hname (by decide)
  rw [hasContentLength, hasContentLength, writtenHeaders, writtenHeaders, setHeader, hcounted,
    List.take_length, List.take_of_length_le (by simp), List.any_append, List.any_cons,
    List.any_nil, Bool.or_false, hne, Bool.or_false]

/-- A header that is a line and frames nothing leaves a response presentable. -/
theorem Presentable.setHeader {res : Response} (h : res.Presentable) {name value : Bytes}
    (hclean : CleanField (name, value))
    (hname : ∀ n ∈ framingNames, equalsIgnoreCase name n = false) :
    (res.setHeader name value).Presentable := by
  have hfields := customFields_setHeader h.counted name value
  have hother : ∀ n ∈ framingNames, valuesOf n [(name, value)] = [] := fun n hn =>
    valuesOf_eq_nil (List.forall_mem_singleton.mpr (hname n hn))
  have hlength := hasContentLength_setHeader h.counted (hname _ List.mem_cons_self) value
  -- The field frames nothing.
  have hframed : res.Framed → (res.setHeader name value).Framed := by
    rintro ⟨hcoding, hframing⟩
    constructor
    · rw [hfields, valuesOf_append, hcoding, hother _ (by decide)]
      rfl
    · rw [hlength, hfields, valuesOf_append, hother _ List.mem_cons_self, List.append_nil]
      exact hframing
  refine ⟨⟨h.status_ge, h.status_le, ?_, ?_⟩, h.final, ?_⟩
  · rw [hfields]
    intro f hf
    rcases List.mem_append.mp hf with hf | hf
    · exact h.clean f hf
    · obtain rfl := List.mem_singleton.mp hf
      exact hclean
  · have hdelimited := h.delimited
    by_cases hnone : res.HasNoBodyStatus
    · rw [if_pos hnone] at hdelimited
      rwa [if_pos (show (res.setHeader name value).HasNoBodyStatus from hnone)]
    · rw [if_neg hnone] at hdelimited
      rw [if_neg (show ¬ (res.setHeader name value).HasNoBodyStatus from hnone)]
      exact ⟨hframed hdelimited.1, hdelimited.2⟩
  · rw [Counted, Response.setHeader, h.counted, List.length_append, List.length_singleton]

/-- Announcing the end of the connection leaves a response legible. -/
theorem Presentable.announcing {res : Response} (h : res.Presentable) (close : Bool) :
    (res.announcing close).Legible := by
  cases close with
  | false => exact h.legible
  | true => exact (h.setHeader ⟨by decide, by decide, by decide⟩ (by decide)).legible

end Response

/-- Whatever the user code keeps, it answers each of these requests with a presentable response. -/
def App.PresentsAll (app : App σ) (env : Env) (requests : List (RawRequest opts)) : Prop :=
  ∀ r ∈ requests, ∀ now user req, r.Presents req → ∃ a res,
    (app.process (env.world now) ⟨user, req⟩).outcome = some a ∧ a.result = .ok res ∧
      res.Presentable

/-! ### One iteration -/

/-- Over a calm network a response is written, and the loop goes on. -/
theorem exists_respond_eq_next (hcalm : env.net.Calm) {d : Dispatch σ} {a : Answer σ}
    {res : Response} (houtcome : (d.invocation env app).outcome = some a)
    (hok : a.result = .ok res) :
    ∃ c' x, respond env app d = .next c' x ∧ c'.user = a.user ∧
      c'.requestCount = d.conn.requestCount ∧ c'.keepAlive = d.conn.keepAlive ∧
      c'.socket.outgoing = d.conn.socket.outgoing ++ d.answerBytes env res := by
  have hbytes := Response.contents_serializeInto (env.date d.conn.socket.now)
    (if d.conn.keepAlive then res else res.setHeader (ascii "Connection") (ascii "close"))
    d.conn.outBuf.clear
  rw [WriteBuffer.contents_clear, List.nil_append] at hbytes
  rw [Dispatch.invocation] at houtcome
  simp only [respond, houtcome, hok, run_asyncWrite hcalm, hbytes]
  exact ⟨_, _, rfl, rfl, rfl, rfl, rfl⟩

/-- An iteration with a request at the front of the pending bytes: the application answers it, and
the loop goes on behind it unless the answer announces the end. -/
theorem step_answers (hcalm : env.net.Calm) {c : ConnState σ} (hkeep : c.keepAlive = true)
    {r : RawRequest opts} {rest : Bytes} (hunread : c.unread = r.bytes ++ rest)
    (hordinary : r.Ordinary app)
    (hpresents : ∀ now user req, r.Presents req → ∃ a res,
      (app.process (env.world now) ⟨user, req⟩).outcome = some a ∧ a.result = .ok res ∧
        res.Presentable) :
    ∃ c' x now res close, step env opts app c = .next c' x ∧ c'.unread = rest ∧
      c'.requestCount = c.requestCount + 1 ∧ c'.keepAlive = !close ∧
      c'.socket.outgoing = c.socket.outgoing ++ Response.serialize (env.date now) res ∧
      res.Legible ∧ ClosesBehind env r (c.requestCount + 1) close ∧
      AnswersOne env app c.user r close (env.date now, res) c'.user := by
  obtain ⟨d, hreceive⟩ := exists_receive_request hcalm hunread hordinary
  have hreceived := received_of_receive hreceive
  have hstep : step env opts app c = respond env app d := by rw [step, hreceive]
  -- The request is the one at the front, so the application answers it.
  have hphase := phaseFrames_receive env opts app c
  rw [hreceive] at hphase
  obtain ⟨hframed⟩ := hphase
  have hframe := hframed.frameAt []
  rw [hunread] at hframe
  obtain ⟨hhead, hvalues, -⟩ := r.frame_eq hframe
  have hreq : r.Presents d.request := by
    refine ⟨?_, ?_⟩
    · obtain ⟨generation, hparsed⟩ := hframe.request_eq
      have hhead' : d.head = r.head := hhead
      exact ⟨generation, by rw [← hhead']; exact hparsed⟩
    · have hbody := congrArg (fun v => v.2.2) hvalues
      exact hbody
  obtain ⟨a, res, houtcome, hok, hres⟩ := hpresents d.conn.socket.now d.conn.user d.request hreq
  obtain ⟨c', x, hrespond, huser, hcount, hkeep', hout⟩ :=
    exists_respond_eq_next hcalm houtcome hok
  -- What it consumes comes from the framing of the whole step.
  have hframes := stepFrames_step env opts app c
  rw [hstep, hrespond, hunread] at hframes
  obtain ⟨now, hclose⟩ := hreceived.keepAlive_eq
  rw [hkeep, Bool.true_and, hreq.headerEquals_eq] at hclose
  cases hframes with
  | next hframe' hdispatched =>
    have hrest := (r.frame_eq hframe').2.2
    refine ⟨c', x, d.conn.socket.now, res.announcing (!d.conn.keepAlive), !d.conn.keepAlive,
      hstep.trans hrespond, hrest, hcount.trans hreceived.requestCount_eq, ?_, ?_,
      hres.announcing _, ⟨now, ?_⟩, ⟨d.conn.socket.now, d.request, a, res, hreq, ?_, hok,
      huser.symm, rfl⟩⟩
    · rw [hkeep', Bool.not_not]
    · rw [hout, hreceived.outgoing_eq, Dispatch.answerBytes]
      cases d.conn.keepAlive <;> rfl
    · rw [hclose, Bool.not_not]
      push_cast
      rfl
    · rw [← hreceived.user_eq]
      exact houtcome

/-! ### A run -/

/-- Reading a head writes nothing, however it ends. -/
theorem outgoing_readHeadersLoop (net : Network) (maxSize budget scanStart : ℕ)
    (buffer : ReadBuffer) (s : Socket) :
    ((readHeadersLoop net maxSize budget scanStart buffer).run s).2.outgoing = s.outgoing := by
  induction budget generalizing scanStart buffer s with
  | zero => rfl
  | succ budget ih =>
    rw [readHeadersLoop]
    split
    · rfl
    · -- A read takes bytes that have come; it leaves what has been sent.
      have hread : ((asyncReadSome net (buffer.ensureWrite 4096).writeCapacity).run s).2.outgoing =
          s.outgoing := by
        simp only [Awaitable.run, asyncReadSome]
        split
        · split <;> rfl
        · rfl
        · rfl
      rw [Awaitable.run_bind]
      split
      next chunk t hdone =>
        rw [hdone] at hread
        dsimp only
        split
        · exact hread
        · rw [ih, ← hread]
      next e t hraised => rw [hraised] at hread; exact hread
      next t hsuspended => rw [hsuspended] at hread; exact hread

theorem outgoing_readHead (net : Network) (opts : ServerOptions) (c : ConnState σ) :
    ((readHead net opts c).run c.socket).2.outgoing = c.socket.outgoing := by
  have hread : ((readHeaders net opts.maxHeaderSize c.buffer).run c.socket).2.outgoing =
      c.socket.outgoing := by
    rw [Awaitable.run, readHeaders]
    split
    · rfl
    · exact outgoing_readHeadersLoop _ _ _ _ _ _
  unfold readHead
  split
  · -- The timer writes nothing either.
    rw [readHeadersWithTimeout, Awaitable.run_bind, run_orTimeout]
    revert hread
    generalize (readHeaders net opts.maxHeaderSize c.buffer).run c.socket = r
    obtain ⟨result, t⟩ := r
    cases result <;> exact id
  · exact hread

/-- When everything has been consumed the loop stops, and nothing more is written. -/
theorem exists_stop_of_unread_eq_nil (env : Env) (opts : ServerOptions) (app : App σ)
    {c : ConnState σ} (hunread : c.unread = []) :
    ∃ exit s, step env opts app c = .stop exit none s ∧ s.outgoing = c.socket.outgoing := by
  have hout := outgoing_readHead env.net opts c
  suffices hreceive : ∃ exit s, receive env opts app c = .stop exit none s ∧
      s.outgoing = c.socket.outgoing by
    obtain ⟨exit, s, hreceive, hs⟩ := hreceive
    exact ⟨exit, s, by rw [step, hreceive], hs⟩
  rw [receive]
  cases hread : (readHead env.net opts c).run c.socket with
  | mk result s =>
    rw [hread] at hout
    cases result with
    | done found =>
      obtain ⟨headerEnd, buffer⟩ := found
      -- A head that is read stands at the front of the pending bytes, and there are none.
      obtain rfl : headerEnd = 0 := by
        by_contra hne
        have hpos := Nat.pos_of_ne_zero hne
        have hend := (readHead_sound hpos hread).headerEnd_eq hpos
        rw [show pending c.buffer c.socket = [] from hunread] at hend
        exact hne (hend.trans (by decide))
      exact ⟨_, _, rfl, hout⟩
    | raised e => exact ⟨_, _, rfl, hout⟩
    | suspended => exact ⟨_, _, rfl, hout⟩

/-- A run over a list of requests: what is sent is what the service answers. The induction is on
the list; a request that is answered leaves the others at the front of the pending bytes. -/
theorem answers_runFor (hcalm : env.net.Calm) {requests : List (RawRequest opts)}
    {c : ConnState σ} {budget : ℕ} (hkeep : c.keepAlive = true)
    (hunread : c.unread = requests.flatMap RawRequest.bytes)
    (hordinary : ∀ r ∈ requests, r.Ordinary app) (hpresents : app.PresentsAll env requests)
    (hbudget : c.unread.length < budget) :
    ∃ written, Answers env app c.requestCount c.user requests written ∧
      (∀ p ∈ written, (∃ now, p.1 = env.date now) ∧ Response.Legible p.2) ∧
      (runFor env opts app budget c).socket.outgoing =
        c.socket.outgoing ++ written.flatMap fun p => Response.serialize p.1 p.2 := by
  obtain ⟨budget, rfl⟩ : ∃ b, budget = b + 1 := ⟨budget - 1, by omega⟩
  induction requests generalizing c budget with
  | nil =>
    obtain ⟨exit, s, hstep, hout⟩ := exists_stop_of_unread_eq_nil env opts app hunread
    refine ⟨[], .nil _ _, by simp, ?_⟩
    rw [runFor, if_pos hkeep, hstep, List.flatMap_nil, List.append_nil]
    exact hout
  | cons r requests ih =>
    rw [List.flatMap_cons] at hunread
    obtain ⟨hr, hrequests⟩ := List.forall_mem_cons.mp hordinary
    obtain ⟨c', x, now, res, close, hstep, hrest, hcount, hkeep', hout, hres, hclose, hone⟩ :=
      step_answers hcalm hkeep hunread hr (hpresents r List.mem_cons_self)
    have hlt := length_unread_lt hstep
    obtain ⟨budget, rfl⟩ : ∃ b, budget = b + 1 := ⟨budget - 1, by omega⟩
    have hwritten : (∃ now', env.date now = env.date now') ∧ res.Legible := ⟨⟨now, rfl⟩, hres⟩
    rw [runFor, if_pos hkeep, hstep]
    cases close with
    | true =>
      -- The loop ends; the other requests stay where they are.
      have hend : runFor env opts app (budget + 1) c' = ⟨[], .closed, c', c'.socket⟩ := by
        rw [runFor, hkeep']
        rfl
      refine ⟨[(env.date now, res)], .last hclose hone, List.forall_mem_singleton.mpr hwritten, ?_⟩
      simpa [hend] using hout
    | false =>
      obtain ⟨others, hanswers, hothers, hsent⟩ := ih (by rw [hkeep']; rfl) hrest hrequests
        (fun r' hr' => hpresents r' (List.mem_cons_of_mem _ hr')) budget (by omega)
      rw [hcount] at hanswers
      refine ⟨(env.date now, res) :: others, .cons hclose hone hanswers,
        List.forall_mem_cons.mpr ⟨hwritten, hothers⟩, ?_⟩
      rw [List.flatMap_cons, ← List.append_assoc, ← hout]
      exact hsent

/-- The methods of these requests. -/
def methodsOf (requests : List (RawRequest opts)) : List Bytes := requests.map RawRequest.method

theorem expectsBody_methodsOf {requests : List (RawRequest opts)}
    (h : ∀ r ∈ requests, ExpectsBody r.method) :
    ∀ method ∈ methodsOf requests, ExpectsBody method :=
  List.forall_mem_map.mpr h

/-- A client reads the answers of the service. -/
theorem exists_answers_readAnswers (hcalm : env.net.Calm) (hdate : ∀ t, Unbroken (env.date t))
    (requests : List (RawRequest opts)) (hordinary : ∀ r ∈ requests, r.Ordinary app)
    (hmethods : ∀ r ∈ requests, ExpectsBody r.method)
    (hpresents : app.PresentsAll env requests) (user : σ) :
    ∃ written, Answers env app 0 user requests written ∧
      readAnswers (methodsOf requests) (handleConnection env opts app user
        (requests.flatMap RawRequest.bytes)).socket.outgoing =
          some (written.map fun p => Response.seen p.1 p.2) := by
  have hunread := unread_init user (requests.flatMap RawRequest.bytes)
  obtain ⟨written, hanswers, hwritten, hsent⟩ := answers_runFor hcalm
    (c := ConnState.init user (requests.flatMap RawRequest.bytes)) rfl hunread hordinary hpresents
    (by rw [hunread]; exact Nat.lt_succ_self _)
  refine ⟨written, hanswers, ?_⟩
  rw [handleConnection, hsent]
  apply readAnswers_flatMap _ (expectsBody_methodsOf hmethods)
    (by rw [methodsOf, List.length_map]; exact hanswers.length_le)
  intro p hp rest
  obtain ⟨⟨now, hnow⟩, hres⟩ := hwritten p hp
  rw [hnow]
  exact hres _ (hdate now) rest

/-- A client that sends requests one behind the other, none with a method whose answers have no
body, and reads what comes back, sees the answers of the service to them, in order and nothing else,
however the network cuts the bytes. When nothing closes the connection these are the answers to all
of them. -/
theorem readAnswers_handleConnection (hcalm : env.net.Calm) (hdate : ∀ t, Unbroken (env.date t))
    (requests : List (RawRequest opts)) (hordinary : ∀ r ∈ requests, r.Ordinary app)
    (hmethods : ∀ r ∈ requests, ExpectsBody r.method)
    (hpresents : app.PresentsAll env requests) (user : σ) :
    ∃ written, Answers env app 0 user requests written ∧
      readAnswers (methodsOf requests) (handleConnection env opts app user
        (requests.flatMap RawRequest.bytes)).socket.outgoing =
          some (written.map fun p => Response.seen p.1 p.2) ∧
      ((∀ t, env.shuttingDown t = false) → (∀ r ∈ requests.dropLast, r.asksToClose = false) →
        (opts.maxKeepaliveRequests ≤ 0 ∨
          (requests.length : ℤ) ≤ opts.maxKeepaliveRequests) →
        written.length = requests.length) := by
  obtain ⟨written, hanswers, hread⟩ :=
    exists_answers_readAnswers hcalm hdate requests hordinary hmethods hpresents user
  refine ⟨written, hanswers, hread, fun hrunning hcloses hlimit => ?_⟩
  exact hanswers.length_eq hrunning hcloses (by simpa using hlimit)

/-! ### A concrete connection -/

/-- The answer of an application without any registration. -/
theorem process_empty (w : World) (c : Call σ) : ∃ req,
    ((App.empty : App σ).process w c).outcome =
      some ⟨c.user, req, .ok (.text (ascii "Not Found") 404)⟩ := by
  have hstatic : ∀ c' : Call σ, (App.empty : App σ).dispatchStatic w c' =
      ⟨some ⟨c'.user, c'.req, .ok (.text (ascii "Not Found") 404)⟩, []⟩ := by
    intro c'
    simp [App.dispatchStatic, App.empty, StaticFileHandler.hasMounts, StaticFileHandler.empty]
  have hresolve : ∀ method path params,
      (App.empty : App σ).router.resolve method path params = (none, params) :=
    fun _ _ _ => rfl
  have hmiddleware : (App.empty : App σ).hasMiddleware = false := rfl
  rw [App.process, hmiddleware, if_neg Bool.false_ne_true, App.dispatch, hresolve]
  dsimp only
  rw [App.dispatchHead]
  split
  · rw [hresolve]
    exact ⟨_, congrArg (·.outcome) (hstatic _)⟩
  · exact ⟨_, congrArg (·.outcome) (hstatic _)⟩

theorem presentsAll_empty (env : Env) (requests : List (RawRequest opts)) :
    (App.empty : App σ).PresentsAll env requests := by
  intro r _ now user req _
  obtain ⟨req', hprocess⟩ := process_empty (env.world now) ⟨user, req⟩
  refine ⟨_, _, hprocess, rfl, Response.HasBodyStatus.presentable (by decide) ?_
    (Response.framed_of_forall_ne ?_) (by decide) rfl⟩
  · exact fun f hf => absurd hf (by simp [Response.customFields, Response.writtenHeaders,
      Response.text])
  · exact fun f hf => absurd hf (by simp [Response.customFields, Response.writtenHeaders,
      Response.text])

/-- An environment in which the bytes come one at a time. -/
def bytewiseEnv : Env := { sampleEnv sampleFiles with net := fun _ => .ready 1 }

theorem readAnswers_handleConnection_samples :
    ∃ written, Answers bytewiseEnv (.empty : App Unit) 0 () [samplePost, sampleGet] written ∧
      readAnswers (methodsOf [samplePost, sampleGet]) (handleConnection bytewiseEnv {}
        (.empty : App Unit) ()
        ([samplePost, sampleGet].flatMap RawRequest.bytes)).socket.outgoing =
          some (written.map fun p => Response.seen p.1 p.2) ∧
      ((∀ t, bytewiseEnv.shuttingDown t = false) →
        (∀ r ∈ [samplePost, sampleGet].dropLast, r.asksToClose = false) →
        (({} : ServerOptions).maxKeepaliveRequests ≤ 0 ∨
          ([samplePost, sampleGet].length : ℤ) ≤ ({} : ServerOptions).maxKeepaliveRequests) →
        written.length = [samplePost, sampleGet].length) :=
  readAnswers_handleConnection (fun _ => ⟨1, rfl⟩)
    (fun _ => show Unbroken (ascii "Sun, 06 Nov 1994 08:49:37 GMT") by decide) _
    (fun r _ => ordinary_empty r) (by decide) (presentsAll_empty _ _) ()

end Lundi
