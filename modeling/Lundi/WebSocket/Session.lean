import Lundi.WebSocket.Frames

/-!
# WebSocket sessions

A session in which the client sends valid frames: text and binary messages, pings and pongs with
any mask keys and any encodings of their lengths, and in the end a close frame. However the
network cuts the byte stream, repeated calls of `read` return the messages in order and then
`nullopt`, the server answers with one pong for each ping and one close frame, and all bytes of
the frames are consumed, and no more.

* `run_readBody`: reading one frame up to the decision what to do with it;
* `readsFirst_session`: a call of `read` in the middle of a session;
* `reads_session`: a whole session.
-/

namespace Lundi

open BigEndian

/-- The frames a client may send outside of fragmented messages. -/
inductive ClientOp
  | text | binary | ping | pong | close
  deriving DecidableEq

/-- The opcode of a frame. -/
def ClientOp.opcode : ClientOp → WsOpcode
  | .text => .text
  | .binary => .binary
  | .ping => .ping
  | .pong => .pong
  | .close => .close

/-- Control frames have short payloads. -/
def ClientOp.isControl : ClientOp → Bool
  | .text | .binary => false
  | .ping | .pong | .close => true

/-- The three encodings of the payload length. -/
inductive LengthWidth
  | seven | sixteen | sixtyFour

/-- The lengths that an encoding can hold are those below this bound. -/
def LengthWidth.bound : LengthWidth → ℕ
  | .seven => 126
  | .sixteen => 2 ^ 16
  | .sixtyFour => 2 ^ 64

/-- A valid frame of a client, with the limits the server sets. -/
structure ClientFrame (ws : WebSocket) where
  op : ClientOp
  maskKey : Bytes
  payload : Bytes
  width : LengthWidth
  length_maskKey : maskKey.length = 4
  payload_le : payload.length ≤ ws.maxMessageSize
  control_le : op.isControl = true → payload.length ≤ 125
  width_fits : payload.length < width.bound

variable {ws : WebSocket}

namespace ClientFrame

/-- The seven length bits. -/
def lengthCode (f : ClientFrame ws) : ℕ :=
  match f.width with
  | .seven => f.payload.length
  | .sixteen => 126
  | .sixtyFour => 127

/-- The extended length. -/
def extension (f : ClientFrame ws) : Bytes :=
  match f.width with
  | .seven => []
  | .sixteen => bigEndian 2 f.payload.length
  | .sixtyFour => bigEndian 8 f.payload.length

/-- The frame on the wire, with the FIN bit and the mask bit. -/
def bytes (f : ClientFrame ws) : Bytes :=
  [0x80 ||| f.op.opcode.code, 0x80 ||| UInt8.ofNat f.lengthCode] ++
    (f.extension ++ (f.maskKey ++ masked f.maskKey f.payload))

/-- The message that a frame delivers. -/
def message (f : ClientFrame ws) : Option WsMessage :=
  if f.op.isControl then none else some ⟨f.op.opcode, f.payload⟩

/-- The pong that answers a ping. -/
def answer (f : ClientFrame ws) : Bytes :=
  if f.op = .ping then 0x8A :: UInt8.ofNat f.payload.length :: f.payload else []

/-- Only pings are answered. -/
theorem answer_of_ne_ping {f : ClientFrame ws} (h : f.op ≠ .ping) : f.answer = [] := by
  rw [answer, if_neg h]

/-- A control frame in front of the close frame is a ping or a pong. -/
theorem op_eq_of_isControl {f : ClientFrame ws} (hcontrol : f.op.isControl = true)
    (hclose : f.op ≠ .close) : f.op = .ping ∨ f.op = .pong := by
  cases hop : f.op with
  | text => simp [hop, ClientOp.isControl] at hcontrol
  | binary => simp [hop, ClientOp.isControl] at hcontrol
  | ping => exact Or.inl rfl
  | pong => exact Or.inr rfl
  | close => exact absurd hop hclose

end ClientFrame

/-- The close frame of the server. -/
def closeAnswer : Bytes := [0x88, 0x00]

/-! ### One frame -/

/-- The first byte: its FIN bit and its opcode. -/
theorem opByte_spec (op : ClientOp) :
    ((0x80 ||| op.opcode.code) &&& 0x80 != 0) = true ∧
      WsOpcode.ofCode ((0x80 ||| op.opcode.code) &&& 0x0F) = op.opcode := by
  cases op <;> decide

variable {net : Network}

theorem lengthCode_lt (f : ClientFrame ws) : f.lengthCode < 128 := by
  have hfits := f.width_fits
  rw [ClientFrame.lengthCode]
  cases hwidth : f.width with
  | seven =>
    rw [hwidth] at hfits
    change f.payload.length < 126 at hfits
    exact hfits.trans (by decide)
  | sixteen => exact (by decide : 126 < 128)
  | sixtyFour => exact (by decide : 127 < 128)

/-- The length of the payload of a frame is read back. -/
theorem payloadLength_extension (f : ClientFrame ws) (rest : Bytes) :
    payloadLength (0x80 ||| UInt8.ofNat f.lengthCode) (f.extension ++ rest) =
      some (f.payload.length, rest) := by
  have hfits := f.width_fits
  -- The seven length bits decide how many bytes of the length follow.
  obtain ⟨-, hcode⟩ := lengthByte_spec (lengthCode_lt f)
  rw [ClientFrame.lengthCode] at hcode ⊢
  rw [ClientFrame.extension]
  cases hwidth : f.width with
  | seven =>
    rw [hwidth] at hcode hfits
    exact payloadLength_seven hcode hfits rest
  | sixteen =>
    rw [hwidth] at hcode hfits
    exact payloadLength_sixteen hcode hfits rest
  | sixtyFour =>
    rw [hwidth] at hcode hfits
    exact payloadLength_sixtyFour hcode hfits rest

/-- The frame at the front is the one that the client has sent. -/
theorem frontFrame_bytes (f : ClientFrame ws) (rest : Bytes) :
    frontFrame ws (f.bytes ++ rest) =
      some (⟨0x80 ||| f.op.opcode.code, 0x80 ||| UInt8.ofNat f.lengthCode, f.payload⟩, rest) := by
  obtain ⟨hmasked, -⟩ := lengthByte_spec (lengthCode_lt f)
  have hdata : (f.maskKey ++ masked f.maskKey f.payload).length = 4 + f.payload.length := by
    simp [masked, f.length_maskKey]
  rw [ClientFrame.bytes, List.append_assoc, List.append_assoc, List.append_assoc, List.cons_append,
    List.cons_append, List.nil_append,
    frontFrame_of_payloadLength (payloadLength_extension f _) f.payload_le
      (by simp [hmasked, masked, f.length_maskKey]),
    hmasked, payloadOf_true f.length_maskKey, if_pos rfl, ← List.append_assoc,
    List.drop_left' hdata]

/-- Reading a frame, up to the decision what to do with it. -/
theorem run_readBody (hcalm : net.Calm) (f : ClientFrame ws)
    (again : Awaitable (Option WsMessage)) {s : Socket} {rest : Bytes}
    (h : s.incoming = f.bytes ++ rest) :
    ∃ t, (WebSocket.readBody net ws again).run s =
      (WebSocket.handleFrame net again f.op.opcode true f.payload).run
        { s with incoming := rest, now := t } := by
  obtain ⟨hfin, hop⟩ := opByte_spec f.op
  have hfront := frontFrame_bytes f rest
  rw [← h] at hfront
  obtain ⟨t, hbody⟩ := run_readBody_of_frontFrame hcalm hfront
  refine ⟨t, ?_⟩
  rw [hbody, WireFrame.op, WireFrame.fin, hop, hfin]

/-! ### A session -/

/-- `read` was called until it returned `nullopt`, and returned these messages before. -/
inductive Reads (net : Network) (ws : WebSocket) : Socket → List WsMessage → Socket → Prop
  | stop {s s' : Socket} (h : (ws.read net).run s = (.done none, s')) : Reads net ws s [] s'
  | next {s s' s'' : Socket} {msg : WsMessage} {msgs : List WsMessage}
      (h : (ws.read net).run s = (.done (some msg), s')) (hrest : Reads net ws s' msgs s'') :
      Reads net ws s (msg :: msgs) s''

/-- The same with `x` in place of the first call. -/
def ReadsFirst (net : Network) (ws : WebSocket) (x : Awaitable (Option WsMessage)) (s : Socket)
    (msgs : List WsMessage) (s' : Socket) : Prop :=
  (msgs = [] ∧ x.run s = (.done none, s')) ∨
    ∃ msg rest mid, msgs = msg :: rest ∧ x.run s = (.done (some msg), mid) ∧
      Reads net ws mid rest s'

theorem Reads.of_readsFirst {s s' : Socket} {msgs : List WsMessage}
    (h : ReadsFirst net ws (ws.read net) s msgs s') : Reads net ws s msgs s' := by
  rcases h with ⟨rfl, hstop⟩ | ⟨msg, rest, mid, rfl, hmsg, hrest⟩
  · exact .stop hstop
  · exact .next hmsg hrest

/-- A call that goes on with the recursive call ends as the recursive call does. -/
theorem ReadsFirst.of_again {budget : ℕ} {s mid s' : Socket} {msgs : List WsMessage}
    (hagain : (WebSocket.readBody net ws (ws.readFrames net budget)).run s =
      (ws.readFrames net budget).run mid)
    (h : ReadsFirst net ws (ws.readFrames net budget) mid msgs s') :
    ReadsFirst net ws (ws.readFrames net (budget + 1)) s msgs s' := by
  rcases h with ⟨rfl, hstop⟩ | ⟨msg, more, mid', rfl, hmsg, hmore⟩
  · exact Or.inl ⟨rfl, Awaitable.run_catching_of_done (hagain.trans hstop)⟩
  · exact Or.inr ⟨msg, more, mid', rfl, Awaitable.run_catching_of_done (hagain.trans hmsg), hmore⟩

/-- A text or binary frame is returned, once its turn comes. -/
theorem run_handleFrame_message (f : ClientFrame ws) (again : Awaitable (Option WsMessage))
    (hop : f.op.isControl = false) (s : Socket) :
    (WebSocket.handleFrame net again f.op.opcode true f.payload).run s =
      (.done (some ⟨f.op.opcode, f.payload⟩), s) := by
  cases h : f.op <;> rw [h] at hop <;> first | exact absurd hop (by decide) | rfl

/-- A ping is answered before the next frame is read. -/
theorem run_handleFrame_ping (hcalm : net.Calm) (f : ClientFrame ws)
    (again : Awaitable (Option WsMessage)) (hop : f.op = .ping) (s : Socket) :
    (WebSocket.handleFrame net again f.op.opcode true f.payload).run s =
      again.run { s with outgoing := s.outgoing ++ f.answer, now := s.now + 1 } := by
  -- The payload of a ping is short, so the pong has a header of two bytes.
  have hshort : f.payload.length < 126 := by
    have := f.control_le (by rw [hop]; rfl)
    omega
  have hframe : frameHeader .pong f.payload.length ++ f.payload = f.answer := by
    rw [ClientFrame.answer, if_pos hop, frameHeader, if_pos hshort]
    rfl
  have hwrite : (WebSocket.writeFrame net .pong f.payload).run s =
      (.done (), { s with outgoing := s.outgoing ++ f.answer, now := s.now + 1 }) := by
    rw [WebSocket.writeFrame, run_asyncWrite hcalm, hframe]
  rw [hop]
  change (WebSocket.writeFrame net .pong f.payload >>= fun _ => again).run s = _
  rw [Awaitable.run_bind_of_done hwrite]

/-- A close frame is answered and ends the session. -/
theorem run_handleFrame_close (hcalm : net.Calm) (f : ClientFrame ws)
    (again : Awaitable (Option WsMessage)) (hop : f.op = .close) (s : Socket) :
    (WebSocket.handleFrame net again f.op.opcode true f.payload).run s =
      (.done none, { s with outgoing := s.outgoing ++ closeAnswer, now := s.now + 1 }) := by
  have hwrite : (WebSocket.writeFrame net .close []).run s =
      (.done (), { s with outgoing := s.outgoing ++ closeAnswer, now := s.now + 1 }) := by
    rw [WebSocket.writeFrame, run_asyncWrite hcalm]
    rfl
  rw [hop]
  change (WebSocket.writeFrame net .close [] >>= fun _ => pure none).run s = _
  rw [Awaitable.run_bind_of_done hwrite, Awaitable.run_pure]

/-- A pong is skipped. -/
theorem run_handleFrame_pong (f : ClientFrame ws) (again : Awaitable (Option WsMessage))
    (hop : f.op = .pong) (s : Socket) :
    (WebSocket.handleFrame net again f.op.opcode true f.payload).run s = again.run s := by
  rw [hop]
  rfl

/-- Every frame has a header. -/
theorem length_le_length_flatMap_bytes (frames : List (ClientFrame ws)) :
    frames.length ≤ (frames.flatMap ClientFrame.bytes).length := by
  induction frames with
  | nil => exact le_rfl
  | cons f frames ih =>
    simp only [List.flatMap_cons, List.length_append, List.length_cons, ClientFrame.bytes]
    omega

/-- A session of valid frames, in the middle of a call of `read` or before one. The induction is
on the frames; control frames stay inside the call, text and binary frames end it. -/
theorem readsFirst_session (hcalm : net.Calm) {frames : List (ClientFrame ws)}
    (hframes : ∀ f ∈ frames, f.op ≠ .close) {last : ClientFrame ws} (hlast : last.op = .close)
    {rest : Bytes} {budget : ℕ} (hbudget : frames.length < budget) {s : Socket}
    (h : s.incoming = frames.flatMap ClientFrame.bytes ++ (last.bytes ++ rest)) :
    ∃ t, ReadsFirst net ws (ws.readFrames net budget) s (frames.filterMap ClientFrame.message)
      { incoming := rest
        outgoing := s.outgoing ++ (frames.flatMap ClientFrame.answer ++ closeAnswer)
        now := t } := by
  obtain ⟨budget, rfl⟩ : ∃ b, budget = b + 1 := ⟨budget - 1, by omega⟩
  induction frames generalizing budget s with
  | nil =>
    -- Only the close frame is left: it is answered and the call returns `nullopt`.
    have hin : s.incoming = last.bytes ++ rest := by simpa using h
    obtain ⟨t, hbody⟩ := run_readBody hcalm last (ws.readFrames net budget) hin
    rw [run_handleFrame_close hcalm last _ hlast] at hbody
    exact ⟨t + 1, Or.inl ⟨rfl, Awaitable.run_catching_of_done hbody⟩⟩
  | cons f frames ih =>
    obtain ⟨hclose, hrest⟩ := List.forall_mem_cons.mp hframes
    rw [List.flatMap_cons, List.append_assoc] at h
    obtain ⟨t, hbody⟩ := run_readBody hcalm f (ws.readFrames net budget) h
    rw [List.length_cons] at hbudget
    by_cases hdata : f.op.isControl = false
    · -- The message is returned; the rest of the session is left to the next calls, which have a
      -- budget of their own.
      rw [run_handleFrame_message f _ hdata] at hbody
      have hmsg : f.message = some ⟨f.op.opcode, f.payload⟩ := by
        simp [ClientFrame.message, hdata]
      have hanswer : f.answer = [] := by
        apply ClientFrame.answer_of_ne_ping
        intro hping
        rw [hping] at hdata
        exact absurd hdata (by decide)
      have hlt : frames.length <
          (frames.flatMap ClientFrame.bytes ++ (last.bytes ++ rest)).length + 1 := by
        have hlen := length_le_length_flatMap_bytes frames
        rw [List.length_append]
        omega
      obtain ⟨t', hreads⟩ := ih hrest (s := ⟨_, s.outgoing, t⟩) rfl _ hlt
      refine ⟨t', Or.inr ⟨_, frames.filterMap ClientFrame.message, _, ?_,
        Awaitable.run_catching_of_done hbody, .of_readsFirst ?_⟩⟩
      · rw [List.filterMap_cons, hmsg]
      · rw [List.flatMap_cons, hanswer, List.nil_append]
        exact hreads
    · -- The call goes on, with the rest of its budget.
      rw [Bool.not_eq_false] at hdata
      obtain ⟨b, rfl⟩ : ∃ b, budget = b + 1 := ⟨budget - 1, by omega⟩
      have hlt : frames.length < b + 1 := by omega
      -- A control frame is no message, and only a ping has an answer.
      have hmsg : (f :: frames).filterMap ClientFrame.message =
          frames.filterMap ClientFrame.message := by
        simp [ClientFrame.message, hdata]
      rw [hmsg, List.flatMap_cons, List.append_assoc, ← List.append_assoc s.outgoing]
      rcases ClientFrame.op_eq_of_isControl hdata hclose with hping | hpong
      · rw [run_handleFrame_ping hcalm f _ hping] at hbody
        obtain ⟨t', hreads⟩ := ih hrest (s := ⟨_, s.outgoing ++ f.answer, t + 1⟩) rfl _ hlt
        exact ⟨t', .of_again hbody hreads⟩
      · rw [run_handleFrame_pong f _ hpong] at hbody
        obtain ⟨t', hreads⟩ := ih hrest (s := ⟨_, s.outgoing, t⟩) rfl _ hlt
        rw [ClientFrame.answer_of_ne_ping (by rw [hpong]; decide), List.append_nil]
        exact ⟨t', .of_again hbody hreads⟩

/-- A session of valid frames loses and reorders nothing: the calls of `read` return the messages
and then `nullopt`, each ping is answered by a pong and the close frame by a close frame, and the
bytes of the frames are consumed. -/
theorem reads_session (hcalm : net.Calm) {frames : List (ClientFrame ws)}
    (hframes : ∀ f ∈ frames, f.op ≠ .close) {last : ClientFrame ws} (hlast : last.op = .close)
    {rest : Bytes} {s : Socket}
    (h : s.incoming = frames.flatMap ClientFrame.bytes ++ (last.bytes ++ rest)) :
    ∃ s', Reads net ws s (frames.filterMap ClientFrame.message) s' ∧ s'.incoming = rest ∧
      s'.outgoing = s.outgoing ++ (frames.flatMap ClientFrame.answer ++ closeAnswer) := by
  have hlen : frames.length < s.incoming.length + 1 := by
    have := length_le_length_flatMap_bytes frames
    rw [h, List.length_append]
    omega
  obtain ⟨t, hreads⟩ := readsFirst_session hcalm hframes hlast hlen h
  exact ⟨_, .of_readsFirst hreads, rfl, rfl⟩

/-- A text message and a ping, then the close frame. -/
theorem reads_session_hello :
    let ws : WebSocket := {}
    let hello : ClientFrame ws :=
      ⟨.text, [1, 2, 3, 4], ascii "hello", .sixtyFour, by decide, by decide, by decide, by decide⟩
    let ping : ClientFrame ws :=
      ⟨.ping, [9, 8, 7, 6], ascii "?", .seven, by decide, by decide, by decide, by decide⟩
    let last : ClientFrame ws :=
      ⟨.close, [0, 0, 0, 0], [], .seven, by decide, by decide, by decide, by decide⟩
    let net : Network := fun _ => .ready 1
    ∃ s', Reads net ws
        ⟨[hello, ping].flatMap ClientFrame.bytes ++ (last.bytes ++ [7]), [], 0⟩
        ([hello, ping].filterMap ClientFrame.message) s' ∧ s'.incoming = [7] ∧
      s'.outgoing = [] ++ ([hello, ping].flatMap ClientFrame.answer ++ closeAnswer) := by
  intro ws hello ping last net
  exact reads_session (fun _ => ⟨1, rfl⟩) (by decide) rfl rfl

end Lundi
