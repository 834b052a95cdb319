import Lundi.Core.HeaderParsing
import Lundi.Server.Connection

/-!
# Framing

How a connection cuts the byte stream of a client into requests. `framing` is the length of the
body behind a head, `FrameAt` says that a head and a body stand at the front of a stream, and
`Served` that a log was made from a stream frame by frame.

* `phaseFrames_receive`, `stepFrames_step`: what an iteration does to the pending bytes;
* `served_runFor`: a run serves the frames of its stream, in order, whatever the network does;
* `runFor_budget`: a run ends before its budget does.
-/

namespace Lundi

open Search

/-- The value of the first stored `Content-Length` field. -/
def firstContentLength (head : Bytes) : Option Bytes :=
  (valuesOf (ascii "content-length") ((fields head).take maxHeaders)).head?

/-- The body length that a head stands for: by its first stored `Content-Length` field, zero
without one, nothing when the field is refused. -/
def framing (maxBodySize : ℕ) (head : Bytes) : Option ℕ :=
  match firstContentLength head with
  | none => some 0
  | some val =>
    match fromCharsSize val with
    | .ok (n, _) => if n > maxBodySize then none else some n
    | .error _ => none

theorem findHeader_contentLength (data : StringView) :
    ((parseHeaders data).findHeader (ascii "content-length")).map StringView.bytes =
      firstContentLength data.bytes := by
  rw [Request.findHeader, findHeaderCi_eq, fieldsRead_parseHeaders, firstContentLength]

/-- The decision of the server depends on the head alone. -/
theorem declared_parseHeaders (opts : ServerOptions) (data : StringView) :
    framing opts.maxBodySize data.bytes = match declared opts (parseHeaders data) with
      | .absent => some 0
      | .length n => some n
      | .refused => none := by
  rw [framing, declared, ← findHeader_contentLength]
  cases (parseHeaders data).findHeader (ascii "content-length") with
  | none => rfl
  | some val =>
    simp only [Option.map_some]
    cases fromCharsSize val.bytes with
    | error e => rfl
    | ok result =>
      simp only
      split <;> rfl

/-- A head stands at the front of a stream, and a request was parsed from it. -/
structure HeadAt (stream : Bytes) (x : Exchange) : Prop where
  pos : 0 < findHeaderEnd stream 0
  head_eq : x.head = stream.take (findHeaderEnd stream 0)
  request_eq : ∃ generation, x.request =
    { parseHeaders ⟨.readBuffer generation, 0, x.head⟩ with body := x.request.body }
  method_ne_nil : x.request.method.bytes ≠ []

/-- A head and a body of the length it stands for are at the front of a stream, and `rest` is what
comes behind them. -/
structure FrameAt (maxBodySize : ℕ) (stream : Bytes) (x : Exchange) (n : ℕ) (rest : Bytes) :
    Prop extends HeadAt stream x where
  framing_eq : framing maxBodySize x.head = some n
  length_le : findHeaderEnd stream 0 + n ≤ stream.length
  body_eq : x.request.body.bytes = (stream.drop (findHeaderEnd stream 0)).take n
  rest_eq : rest = stream.drop (findHeaderEnd stream 0 + n)

/-- The request was handed to the handlers. -/
def Exchange.isDispatched (x : Exchange) : Bool :=
  x.events.any fun
    | .dispatched _ => true
    | _ => false

/-- A log was made from a stream: each request but the last stands at the front of what its
predecessor left, with its whole body, and so does the last one if it was dispatched. -/
inductive Served (maxBodySize : ℕ) : Bytes → List Exchange → Prop
  | nil (stream : Bytes) : Served maxBodySize stream []
  | last {stream : Bytes} {x : Exchange} (hhead : HeadAt stream x)
      (hframe : x.isDispatched = true → ∃ n rest, FrameAt maxBodySize stream x n rest) :
      Served maxBodySize stream [x]
  | cons {stream rest : Bytes} {x : Exchange} {n : ℕ} {log : List Exchange}
      (hframe : FrameAt maxBodySize stream x n rest) (hrest : Served maxBodySize rest log) :
      Served maxBodySize stream (x :: log)

/-! ### The body -/

variable {net : Network}

/-- What is known when a body has been read. -/
structure BodyRead (buffer : ReadBuffer) (s : Socket) (headerEnd n : ℕ) (buffer' : ReadBuffer)
    (s' : Socket) : Prop where
  pending_eq : pending buffer' s' = pending buffer s
  outgoing_eq : s'.outgoing = s.outgoing
  length_le : headerEnd + n ≤ buffer'.size
  contents_prefix : buffer.contents <+: buffer'.contents
  /-- The storage stays exactly when the rest of the body fits behind what is there. -/
  generation_eq : buffer'.generation = buffer.generation ↔
    n - (buffer.size - headerEnd) ≤ buffer.writeCapacity

/-- Reading a body gives the bytes behind the head, or gives up; it never throws. -/
theorem readBody_sound (net : Network) {buffer : ReadBuffer} (s : Socket) {headerEnd : ℕ} (n : ℕ)
    (hhead : headerEnd ≤ buffer.size) :
    (∃ s', (readBody net buffer headerEnd n).run s = (.done none, s') ∧
        s'.outgoing = s.outgoing) ∨
      ∃ buffer' s', (readBody net buffer headerEnd n).run s = (.done (some buffer'), s') ∧
        BodyRead buffer s headerEnd n buffer' s' := by
  unfold readBody
  simp only
  by_cases hmore : n > buffer.size - headerEnd
  · -- A part of the body is missing: it is read behind the bytes that are there, next to a timer.
    have hpos : n - (buffer.size - headerEnd) > 0 := by omega
    have hout := outgoing_asyncRead net (n - (buffer.size - headerEnd)) s
    rw [if_pos hmore, if_pos hpos, Awaitable.run_bind, run_orTimeout]
    cases hread : (asyncRead net (n - (buffer.size - headerEnd))).run s with
    | mk result s' =>
      rw [hread] at hout
      cases result with
      | done bytes =>
        obtain ⟨hin, hcount, -⟩ := asyncRead_sound hread
        have hcontents : ((buffer.ensureWrite (n - (buffer.size - headerEnd))).receive
            bytes).contents = buffer.contents ++ bytes := by
          rw [ReadBuffer.contents_receive _ (by
            rw [hcount]
            exact ReadBuffer.le_writeCapacity_ensureWrite _ _), ReadBuffer.contents_ensureWrite]
        refine Or.inr ⟨_, s', rfl, ?_, hout, ?_, ?_, ReadBuffer.generation_ensureWrite _ _⟩
        · rw [pending, pending, hcontents, hin, List.append_assoc]
        · rw [← ReadBuffer.length_contents, hcontents, List.length_append,
            ReadBuffer.length_contents, hcount]
          omega
        · rw [hcontents]
          exact List.prefix_append _ _
      | raised e => exact Or.inl ⟨s', rfl, hout⟩
      | suspended => exact Or.inl ⟨s', rfl, hout⟩
  · -- The whole body has come with the head, and the buffer stays as it is.
    rw [if_neg hmore, if_neg (lt_irrefl 0)]
    have hnothing : n - (buffer.size - headerEnd) ≤ buffer.writeCapacity := by omega
    exact Or.inr ⟨buffer, s, rfl, rfl, rfl, by omega, List.prefix_rfl, by simp [hnothing]⟩

/-- The bytes of the body view. -/
theorem bytes_bodyView {buffer : ReadBuffer} {headerEnd n : ℕ}
    (h : headerEnd + n ≤ buffer.size) (s : Socket) :
    (bodyView buffer headerEnd n).bytes = ((pending buffer s).drop headerEnd).take n := by
  have hlen : headerEnd + n ≤ buffer.contents.length := by rwa [ReadBuffer.length_contents]
  change (buffer.data.drop headerEnd).take n = _
  rw [ReadBuffer.take_drop_data _ h, pending, List.drop_append_of_le_length (by omega),
    List.take_append_of_le_length (by rw [List.length_drop]; omega)]

/-! ### One iteration -/

variable {σ : Type} {env : Env} {opts : ServerOptions} {app : App σ}

/-- The head that an iteration reads is the one at the front of the pending bytes. -/
theorem readHead_sound {c : ConnState σ} {headerEnd : ℕ} {buffer : ReadBuffer} {s : Socket}
    (hpos : 0 < headerEnd)
    (h : (readHead net opts c).run c.socket = (.done (headerEnd, buffer), s)) :
    HeadRead c.buffer c.socket headerEnd buffer s := by
  unfold readHead at h
  split at h
  · exact readHeadersWithTimeout_sound hpos h
  · exact readHeaders_sound h

/-- Both ways of consuming drop the consumed bytes from the queue. -/
theorem contents_consumed (b : ReadBuffer) (n : ℕ) :
    (if n ≥ b.size then b.clear else b.consume n).contents = b.contents.drop n := by
  split
  next h => rw [ReadBuffer.contents_clear, List.drop_eq_nil_of_le (by simpa using h)]
  next => exact ReadBuffer.contents_consume b n

/-- A request that has been received is a frame at the front of a stream. -/
structure Dispatch.Framed (maxBodySize : ℕ) (stream : Bytes) (d : Dispatch σ) : Prop where
  unread_eq : d.conn.unread = stream
  length_le : d.headerEnd + d.contentLength ≤ d.conn.buffer.size
  frameAt : ∀ events, FrameAt maxBodySize stream ⟨d.head, d.request, events⟩ d.contentLength
    (stream.drop (d.headerEnd + d.contentLength))

/-- What the first half of an iteration does with the pending bytes: it receives a frame at their
front, or it stops, without a log entry or with one for the head at their front. -/
inductive PhaseFrames (maxBodySize : ℕ) (stream : Bytes) : Phase σ → Prop
  | dispatch {d : Dispatch σ} (h : d.Framed maxBodySize stream) :
      PhaseFrames maxBodySize stream (.dispatch d)
  | silent (exit : Exit) (s : Socket) : PhaseFrames maxBodySize stream (.stop exit none s)
  | logged {exit : Exit} {x : Exchange} {s : Socket} (hhead : HeadAt stream x)
      (hno : x.isDispatched = false) : PhaseFrames maxBodySize stream (.stop exit (some x) s)

/-- A refusal is logged without a dispatch. -/
theorem refuse_spec (σ : Type) (env : Env) (head : Bytes) (req : Request) (body : Bytes)
    (status : ℤ) (s : Socket) :
    ∃ exit x s', (refuse env head req body status s : Phase σ) = .stop exit (some x) s' ∧
      x.head = head ∧ x.request = req ∧ x.isDispatched = false := by
  unfold refuse
  simp only
  split <;> exact ⟨_, _, _, rfl, rfl, rfl, rfl⟩

/-- A takeover is logged without a dispatch. -/
theorem handOver_spec (σ : Type) (env : Env) (head : Bytes) (req : Request) (t : Takeover)
    (s : Socket) :
    ∃ exit x s', (handOver env head req t s : Phase σ) = .stop exit (some x) s' ∧
      x.head = head ∧ x.request = req ∧ x.isDispatched = false := by
  unfold handOver
  simp only
  split
  · split <;> exact ⟨_, _, _, rfl, rfl, rfl, rfl⟩
  · exact ⟨_, _, _, rfl, rfl, rfl, rfl⟩
  · exact ⟨_, _, _, rfl, rfl, rfl, rfl⟩

/-- A request with its body in the buffer is a frame of the pending bytes. -/
theorem framed_of_body {stream : Bytes} {c : ConnState σ} {req : Request} {n : ℕ}
    (hunread : c.unread = stream) (hpos : 0 < findHeaderEnd stream 0)
    (hlen : findHeaderEnd stream 0 + n ≤ c.buffer.size) (generation : ℕ)
    (hreq : req = { parseHeaders ⟨.readBuffer generation, 0,
      stream.take (findHeaderEnd stream 0)⟩ with body := req.body })
    (hmethod : req.method.bytes ≠ [])
    (hframing : framing opts.maxBodySize (stream.take (findHeaderEnd stream 0)) = some n)
    (hbody : req.body.bytes = (stream.drop (findHeaderEnd stream 0)).take n) :
    Dispatch.Framed opts.maxBodySize stream
      ⟨c, stream.take (findHeaderEnd stream 0), req, findHeaderEnd stream 0, n⟩ := by
  -- What is in the buffer is a front part of the stream.
  have hle : findHeaderEnd stream 0 + n ≤ stream.length := by
    have : c.buffer.size ≤ c.unread.length := by
      rw [ConnState.unread, pending, List.length_append, ReadBuffer.length_contents]
      omega
    rw [hunread] at this
    omega
  refine ⟨hunread, hlen, fun events => ?_⟩
  exact ⟨⟨hpos, rfl, ⟨generation, hreq⟩, hmethod⟩, hframing, hle, hbody, rfl⟩

/-- An ordinary request, whatever its declared length is. -/
theorem phaseFrames_receiveBody {stream : Bytes} {c : ConnState σ} (hunread : c.unread = stream)
    (hpos : 0 < findHeaderEnd stream 0) (hle : findHeaderEnd stream 0 ≤ c.buffer.size)
    {generation : ℕ} {req : Request}
    (hreq : req = parseHeaders ⟨.readBuffer generation, 0,
      stream.take (findHeaderEnd stream 0)⟩)
    (hmethod : req.method.bytes ≠ []) :
    PhaseFrames opts.maxBodySize stream
      (receiveBody env opts c (findHeaderEnd stream 0)
        (stream.take (findHeaderEnd stream 0)) req) := by
  have hself : req = { parseHeaders ⟨.readBuffer generation, 0,
      stream.take (findHeaderEnd stream 0)⟩ with body := req.body } := by rw [hreq]
  have hframing := declared_parseHeaders opts ⟨.readBuffer generation, 0,
    stream.take (findHeaderEnd stream 0)⟩
  rw [← hreq] at hframing
  -- A request that is refused is logged with the head that was parsed.
  have hrefused : ∀ body status s, PhaseFrames opts.maxBodySize stream
      (refuse env (stream.take (findHeaderEnd stream 0)) req body status s : Phase σ) := by
    intro body status s
    obtain ⟨exit, x, s', hphase, hhead, hxreq, hno⟩ := refuse_spec σ env
      (stream.take (findHeaderEnd stream 0)) req body status s
    rw [hphase]
    refine .logged ⟨hpos, hhead, ⟨generation, ?_⟩, by rwa [hxreq]⟩ hno
    rw [hxreq, hhead]
    exact hself
  unfold receiveBody
  simp only
  cases hdecl : declared opts req with
  | refused => exact hrefused _ _ _
  | absent =>
    rw [hdecl] at hframing
    refine .dispatch (framed_of_body hunread hpos hle generation hself hmethod hframing ?_)
    rw [hreq, body_parseHeaders, List.take_zero]
    rfl
  | length n =>
    rw [hdecl] at hframing
    simp only
    rcases readBody_sound env.net c.socket n hle with
      ⟨s', hread, -⟩ | ⟨buffer', s', hread, hbody⟩
    · rw [hread]
      exact hrefused _ _ _
    · rw [hread]
      have hunread' : pending buffer' s' = stream := hbody.pending_eq.trans hunread
      refine .dispatch (framed_of_body hunread' hpos hbody.length_le generation ?_ hmethod
        hframing ?_)
      · rw [hreq]
      · rw [← hunread']
        exact bytes_bodyView (by rw [hunread']; exact hbody.length_le) s'

/-- A request whose head has been read. -/
theorem phaseFrames_receiveRequest {stream : Bytes} {c : ConnState σ} {headerEnd : ℕ}
    (hunread : c.unread = stream) (hpos : 0 < headerEnd)
    (hend : headerEnd = findHeaderEnd stream 0) (hle : headerEnd ≤ c.buffer.size) :
    PhaseFrames opts.maxBodySize stream (receiveRequest env opts app c headerEnd) := by
  -- The parser sees the front of the pending bytes.
  have hview : headView c.buffer headerEnd =
      ⟨.readBuffer c.buffer.generation, 0, stream.take headerEnd⟩ := by
    rw [headView, ← hunread, ConnState.unread, pending,
      List.take_append_of_le_length (by rwa [ReadBuffer.length_contents])]
  subst hend
  rw [receiveRequest, hview]
  simp only
  split
  · exact .silent _ _
  next hmethod =>
    split
    next t _ =>
      -- An endpoint takes over: nothing is dispatched.
      obtain ⟨exit, x, s', hphase, hhead, hxreq, hno⟩ := handOver_spec σ env
        (stream.take (findHeaderEnd stream 0)) (parseHeaders ⟨.readBuffer c.buffer.generation, 0,
          stream.take (findHeaderEnd stream 0)⟩) t c.socket
      rw [hphase]
      refine .logged ⟨hpos, hhead, ⟨c.buffer.generation, ?_⟩, by rwa [hxreq]⟩ hno
      rw [hxreq, hhead]
    next =>
      have hcount : ({ c with requestCount := c.requestCount + 1 } : ConnState σ).unread = stream :=
        hunread
      exact phaseFrames_receiveBody hcount hpos hle rfl hmethod

/-- What the first half of an iteration does, whatever the network does. -/
theorem phaseFrames_receive (env : Env) (opts : ServerOptions) (app : App σ) (c : ConnState σ) :
    PhaseFrames opts.maxBodySize c.unread (receive env opts app c) := by
  unfold receive
  split
  next headerEnd buffer s hread =>
    split
    · exact .silent _ _
    next hne =>
      have hpos : 0 < headerEnd := Nat.pos_of_ne_zero hne
      have hhead := readHead_sound hpos hread
      refine phaseFrames_receiveRequest ?_ hpos (hhead.headerEnd_eq hpos) hhead.headerEnd_le
      exact hhead.pending_eq
  · exact .silent _ _
  · exact .silent _ _

/-- A request that is processed is logged as dispatched; if the loop goes on, its head and its body
have been consumed. -/
theorem respond_spec (env : Env) (app : App σ) {d : Dispatch σ}
    (hlen : d.headerEnd + d.contentLength ≤ d.conn.buffer.size) :
    (∃ c' events, respond env app d =
        .next c' ⟨d.head, d.request, .dispatched d.request :: events⟩ ∧
        c'.unread = d.conn.unread.drop (d.headerEnd + d.contentLength)) ∨
      ∃ exit events s, respond env app d =
        .stop exit (some ⟨d.head, d.request, .dispatched d.request :: events⟩) s := by
  unfold respond
  simp only
  split
  · exact Or.inr ⟨_, _, _, rfl⟩
  next a ha =>
    split
    · exact Or.inr ⟨_, _, _, rfl⟩
    next res hres =>
      split
      next s hwrite =>
        -- The write leaves the incoming bytes alone, so only the buffer gives up bytes.
        refine Or.inl ⟨_, _, rfl, ?_⟩
        have hs := asyncWrite_sound hwrite
        rw [ConnState.unread, ConnState.unread, pending, pending, contents_consumed, hs,
          List.drop_append_of_le_length (by rwa [ReadBuffer.length_contents])]
      · exact Or.inr ⟨_, _, _, rfl⟩
      · exact Or.inr ⟨_, _, _, rfl⟩

/-- What an iteration does to the pending bytes: it goes on behind a frame at their front, or it
stops, without a log entry or with one for the head at their front. -/
inductive StepFrames (maxBodySize : ℕ) (stream : Bytes) : Step σ → Prop
  | next {c' : ConnState σ} {x : Exchange} {n : ℕ}
      (hframe : FrameAt maxBodySize stream x n c'.unread) (hdispatched : x.isDispatched = true) :
      StepFrames maxBodySize stream (.next c' x)
  | silent (exit : Exit) (s : Socket) : StepFrames maxBodySize stream (.stop exit none s)
  | logged {exit : Exit} {x : Exchange} {s : Socket} (hhead : HeadAt stream x)
      (hframe : x.isDispatched = true → ∃ n rest, FrameAt maxBodySize stream x n rest) :
      StepFrames maxBodySize stream (.stop exit (some x) s)

/-- What an iteration does to the pending bytes, whatever the network does. -/
theorem stepFrames_step (env : Env) (opts : ServerOptions) (app : App σ) (c : ConnState σ) :
    StepFrames opts.maxBodySize c.unread (step env opts app c) := by
  have hphase := phaseFrames_receive env opts app c
  rw [step]
  cases hreceive : receive env opts app c with
  | dispatch d =>
    -- Responding to a frame either consumes exactly this frame or stops.
    rw [hreceive] at hphase
    obtain ⟨hframed⟩ := hphase
    simp only
    rcases respond_spec env app hframed.length_le with
      ⟨c', events, hstep, hrest⟩ | ⟨exit, events, s, hstep⟩
    · rw [hstep]
      rw [hframed.unread_eq] at hrest
      exact .next (n := d.contentLength) (hrest ▸ hframed.frameAt _) rfl
    · rw [hstep]
      exact .logged (hframed.frameAt _).toHeadAt fun _ => ⟨_, _, hframed.frameAt _⟩
  | stop exit x s =>
    rw [hreceive] at hphase
    cases hphase with
    | silent => exact .silent _ _
    | logged hhead hno => exact .logged hhead fun hyes => absurd hyes (by simp [hno])

/-! ### A run -/

/-- A run serves the frames of its stream in order, however the network cuts it and whatever else
happens. -/
theorem served_runFor (env : Env) (opts : ServerOptions) (app : App σ) (budget : ℕ)
    (c : ConnState σ) :
    Served opts.maxBodySize c.unread (runFor env opts app budget c).log := by
  induction budget generalizing c with
  | zero => exact .nil _
  | succ budget ih =>
    rw [runFor]
    split
    · have hstep := stepFrames_step env opts app c
      cases hs : step env opts app c with
      | next c' x =>
        rw [hs] at hstep
        cases hstep with
        | next hframe _ => exact .cons hframe (ih c')
      | stop exit x s =>
        rw [hs] at hstep
        cases hstep with
        | silent => exact .nil _
        | logged hhead hframe => exact .last hhead hframe
    · exact .nil _

/-- The bytes of a fresh connection are those the client sends. -/
theorem unread_init (user : σ) (incoming : Bytes) :
    (ConnState.init user incoming).unread = incoming := by
  rw [ConnState.unread, pending]
  exact congrArg (· ++ incoming) (ReadBuffer.contents_init 8192)

/-- An iteration that goes on leaves fewer bytes. -/
theorem length_unread_lt {c c' : ConnState σ} {x : Exchange}
    (h : step env opts app c = .next c' x) : c'.unread.length < c.unread.length := by
  have hstep := stepFrames_step env opts app c
  rw [h] at hstep
  cases hstep with
  | next hframe _ =>
    have hpos := hframe.pos
    have hlen := hframe.length_le
    rw [hframe.rest_eq, List.length_drop]
    omega

/-- A run ends before its budget does: beyond the number of pending bytes, the budget does not
matter. -/
theorem runFor_budget {budget budget' : ℕ} {c : ConnState σ} (h : c.unread.length < budget)
    (h' : c.unread.length < budget') :
    runFor env opts app budget c = runFor env opts app budget' c := by
  induction budget generalizing budget' c with
  | zero => exact absurd h (Nat.not_lt_zero _)
  | succ budget ih =>
    obtain ⟨budget', rfl⟩ : ∃ b, budget' = b + 1 := ⟨budget' - 1, by omega⟩
    rw [runFor, runFor]
    split
    · cases hs : step env opts app c with
      | next c' x =>
        have hlt := length_unread_lt hs
        have hrest := ih (c := c') (by omega) (show c'.unread.length < budget' by omega)
        simp only [hrest]
      | stop exit x s => rfl
    · rfl

end Lundi
