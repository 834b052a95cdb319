import Lundi.WebSocket.LegalFrames
import Lundi.WebSocket.Session

/-!
# WebSocket conversations

A handler that reads messages until there are none, and sends replies to each. The other party sends
frames, and in the end closes the connection, breaks a rule or is gone. What the handler and `read`
write in between is the transcript of the conversation: pongs and replies, in the order of the
frames that ask for them.

* `run_converse`: the frames that are written are those of the transcript;
* `framesOf_flatMap`: a client reads them back.
-/

namespace Lundi

/-- A frame without its encoding. -/
abbrev PlainFrame := WsOpcode × Bytes

/-- A frame as the server writes it. -/
def PlainFrame.bytes (f : PlainFrame) : Bytes := writtenFrame f.1 f.2

/-- What a handler sends. -/
inductive WsReply
  | text (data : Bytes)
  | binary (data : Bytes)
  | ping
  deriving DecidableEq

namespace WsReply

/-- The frame of a reply. -/
def frame : WsReply → PlainFrame
  | .text data => (.text, data)
  | .binary data => (.binary, data)
  | .ping => (.ping, [])

variable (net : Network)

/-- The call that sends a reply. -/
def perform : WsReply → Awaitable Unit
  | .text data => WebSocket.send net data
  | .binary data => WebSocket.sendBinary net data
  | .ping => WebSocket.ping net

/-- Several replies. -/
def performAll : List WsReply → Awaitable Unit
  | [] => pure ()
  | r :: replies => do
    r.perform net
    performAll replies

end WsReply

section Handlers

variable {τ : Type} (net : Network) (ws : WebSocket) (reply : τ → WsMessage → τ × List WsReply)

/-- The loop `while( auto msg = co_await ws.read() )` of a handler that keeps a state and sends
replies to each message, with at most `budget` messages. -/
def converseFor : ℕ → τ → Awaitable τ
  | 0, _ => .suspend
  | budget + 1, t => do
    match ← ws.read net with
    | none => pure t
    | some msg =>
      WsReply.performAll net (reply t msg).2
      converseFor budget (reply t msg).1

/-- The loop. Every message takes bytes from the socket, so there are fewer messages than bytes. -/
def converse (t : τ) : Awaitable τ := fun s =>
  (converseFor net ws reply (s.incoming.length + 1) t).run s

/-- A handler with a greeting in front of the loop. -/
def chatHandler (greeting : List WsReply) (t : τ) : Awaitable Unit := do
  WsReply.performAll net greeting
  let _ ← converse net ws reply t
  pure ()

end Handlers

/-! ### The transcript -/

/-- The rest of a stream announces a frame that is too long. -/
def tooLong (ws : WebSocket) (ending : Bytes) : Bool :=
  if ending.length < 2 then false
  else (payloadLength (ending.getD 1 0) (ending.drop 2)).any fun p => p.1 > ws.maxMessageSize

/-- How the stream of the other party ends, and the frames that answer it: it is gone, perhaps in
the middle of a frame, it sends a frame that is too long, a part of a fragmented message, or a close
frame. -/
inductive Farewell (ws : WebSocket) (ending : Bytes) : List PlainFrame → Prop
  | gone (hnone : frontFrame ws ending = none) (hshort : tooLong ws ending = false) :
      Farewell ws ending []
  | tooLong (hlong : tooLong ws ending = true) : Farewell ws ending [(.close, [0x03, 0xF1])]
  | fragment {f : WireFrame} {rest : Bytes} (hfront : frontFrame ws ending = some (f, rest))
      (hping : f.op ≠ .ping) (hclose : f.op ≠ .close) (hpong : f.op ≠ .pong)
      (hdata : f.op = .continuation ∨ f.fin = false) : Farewell ws ending [(.close, [0x03, 0xEB])]
  | closed {f : WireFrame} {rest : Bytes} (hfront : frontFrame ws ending = some (f, rest))
      (hclose : f.op = .close) : Farewell ws ending [(.close, [])]

variable {τ : Type} {net : Network} {ws : WebSocket} {reply : τ → WsMessage → τ × List WsReply}

/-- The frames that answer the frames of the other party: a pong for each ping, and the replies to
each message. -/
def transcript (reply : τ → WsMessage → τ × List WsReply) : τ → List (ClientFrame ws) →
    List PlainFrame
  | _, [] => []
  | t, f :: frames =>
    match f.message with
    | some msg => (reply t msg).2.map WsReply.frame ++ transcript reply (reply t msg).1 frames
    | none =>
      if f.op = .ping then (.pong, f.payload) :: transcript reply t frames
      else transcript reply t frames

/-- The state of the handler behind these frames. -/
def stateBehind (reply : τ → WsMessage → τ × List WsReply) (t : τ)
    (frames : List (ClientFrame ws)) : τ :=
  (frames.filterMap ClientFrame.message).foldl (fun t msg => (reply t msg).1) t

/-! ### The end of the stream -/

variable (net) in
/-- Where no frame stands at the front, and none that is too long is announced, a call of `read`
stops. -/
theorem exists_stops_of_frontFrame_eq_none {s : Socket}
    (hnone : frontFrame ws s.incoming = none) (hshort : tooLong ws s.incoming = false) :
    ∃ r, Stops net s r ∧ ∀ again, (WebSocket.readBody net ws again).run s = r := by
  unfold WebSocket.readBody
  rcases asyncRead_cases net 2 s with ⟨header, s₁, hheader⟩ | hstop
  swap
  · obtain ⟨r, hr, hall⟩ := hstop.bind (Option WsMessage)
    exact ⟨r, hr, fun again => hall _⟩
  obtain ⟨hin, htwo, hout₁⟩ := asyncRead_sound hheader
  obtain ⟨header0, header1, rfl⟩ := List.length_eq_two.mp htwo
  simp only [Awaitable.run_bind_of_done hheader, List.getD_cons_zero, List.getD_cons_succ]
  have houtLen := outgoing_readLength net header1 s₁
  rcases readLength_cases net header1 s₁ with ⟨len, s₂, hlength⟩ | hstop
  swap
  · obtain ⟨r, ⟨hsame, hr⟩, hall⟩ := hstop.bind (Option WsMessage)
    exact ⟨r, ⟨hsame.trans hout₁, hr⟩, fun again => hall _⟩
  rw [hlength] at houtLen
  have hout₂ : s₂.outgoing = s.outgoing := houtLen.trans hout₁
  have hlen := readLength_sound hlength
  -- The length that is announced is not too long.
  have hle : len ≤ ws.maxMessageSize := by
    rw [hin, tooLong, if_neg (by simp)] at hshort
    simpa [hlen] using hshort
  simp only [Awaitable.run_bind_of_done hlength, if_neg (not_lt.mpr hle)]
  have houtPayload := outgoing_readPayload net (header1 &&& 0x80 != 0) len s₂
  rcases readPayload_cases net (header1 &&& 0x80 != 0) len s₂ with ⟨payload, s₃, hpayload⟩ | hstop
  · -- A payload that is read belongs to a frame at the front.
    obtain ⟨rfl, hsize, hrest⟩ := readPayload_sound hpayload
    rw [hin] at hnone
    exact absurd (hnone.symm.trans (frontFrame_of_payloadLength hlen hle hsize)) (by simp)
  · obtain ⟨r, ⟨hsame, hr⟩, hall⟩ := hstop.bind (Option WsMessage)
    exact ⟨r, ⟨hsame.trans hout₂, hr⟩, fun again => hall _⟩

/-- Over a calm network a frame is written. -/
theorem exists_writeFrame_eq_done (hcalm : net.Calm) (op : WsOpcode) (payload : Bytes)
    (s : Socket) :
    ∃ t, (WebSocket.writeFrame net op payload).run s = (.done (), t) ∧ t.incoming = s.incoming ∧
      t.outgoing = s.outgoing ++ writtenFrame op payload :=
  ⟨_, run_asyncWrite hcalm _ _, rfl, rfl⟩

/-- A frame that is too long is answered by a close frame. -/
theorem exists_readBody_of_tooLong (hcalm : net.Calm) {s : Socket}
    (hlong : tooLong ws s.incoming = true) :
    ∃ t, (∀ again, (WebSocket.readBody net ws again).run s = (.done none, t)) ∧
      t.outgoing = s.outgoing ++ writtenFrame .close [0x03, 0xF1] := by
  rw [tooLong] at hlong
  split at hlong
  · exact absurd hlong (by simp)
  next hlength =>
  obtain ⟨header0, header1, tail, hin⟩ : ∃ header0 header1 tail,
      s.incoming = header0 :: header1 :: tail := by
    match hin : s.incoming with
    | [] => exact absurd hlength (by simp [hin])
    | [_] => exact absurd hlength (by simp [hin])
    | header0 :: header1 :: tail => exact ⟨_, _, _, rfl⟩
  rw [hin] at hlong
  simp only [List.getD_cons_zero, List.getD_cons_succ, List.drop_succ_cons, List.drop_zero,
    Option.any_eq_true] at hlong
  obtain ⟨⟨len, behind⟩, hlen, hlt⟩ := hlong
  have hheader := run_asyncRead hcalm (show s.incoming = [header0, header1] ++ tail from hin)
    (show _ = 2 from rfl)
  obtain ⟨now, hread⟩ := run_readLength hcalm
    (s := { s with incoming := tail, now := s.now + 1 }) hlen
  obtain ⟨t, hwrite, -, hout⟩ := exists_writeFrame_eq_done hcalm .close [0x03, 0xF1]
    { s with incoming := behind, now := now }
  refine ⟨t, fun again => ?_, hout⟩
  unfold WebSocket.readBody
  rw [Awaitable.run_bind_of_done hheader]
  simp only [List.getD_cons_zero, List.getD_cons_succ]
  rw [Awaitable.run_bind_of_done hread, if_pos (of_decide_eq_true hlt)]
  exact Awaitable.run_bind_of_done hwrite

/-- At its end a stream is answered, and `read` returns `nullopt`. -/
theorem exists_read_of_farewell (hcalm : net.Calm) {s : Socket} {answer : List PlainFrame}
    (h : Farewell ws s.incoming answer) :
    ∃ t, (ws.read net).run s = (.done none, t) ∧
      t.outgoing = s.outgoing ++ answer.flatMap PlainFrame.bytes := by
  cases h with
  | gone hnone hshort =>
    obtain ⟨⟨result, t⟩, ⟨hout, hr⟩, hall⟩ :=
      exists_stops_of_frontFrame_eq_none net hnone hshort
    refine ⟨t, ?_, by simpa using hout⟩
    rw [read_of_ends hall]
    rcases hr with ⟨e, rfl⟩ | ⟨-, now, hsilent⟩
    · rfl
    · obtain ⟨n, hn⟩ := hcalm now
      rw [hsilent] at hn
      exact absurd hn (by simp)
  | tooLong hlong =>
    obtain ⟨t, hall, hout⟩ := exists_readBody_of_tooLong hcalm hlong
    exact ⟨t, read_of_ends hall, by simpa [PlainFrame.bytes] using hout⟩
  | @fragment f rest hfront hping hclose hpong hdata =>
    obtain ⟨now, hbody⟩ := run_readBody_of_frontFrame hcalm hfront
    obtain ⟨t, hwrite, -, hout⟩ := exists_writeFrame_eq_done hcalm .close [0x03, 0xEB]
      { s with incoming := rest, now := now }
    have hall : ∀ again, (WebSocket.readBody net ws again).run s = (.done none, t) := by
      intro again
      rw [hbody, WebSocket.handleFrame, if_neg hping, if_neg hclose, if_neg hpong, if_pos hdata]
      exact Awaitable.run_bind_of_done hwrite
    exact ⟨t, read_of_ends hall, by simpa [PlainFrame.bytes] using hout⟩
  | @closed f rest hfront hclose =>
    obtain ⟨now, hbody⟩ := run_readBody_of_frontFrame hcalm hfront
    obtain ⟨t, hwrite, -, hout⟩ := exists_writeFrame_eq_done hcalm .close []
      { s with incoming := rest, now := now }
    have hall : ∀ again, (WebSocket.readBody net ws again).run s = (.done none, t) := by
      intro again
      rw [hbody, hclose]
      exact Awaitable.run_bind_of_done hwrite
    exact ⟨t, read_of_ends hall, by simpa [PlainFrame.bytes] using hout⟩

/-! ### The loop -/

theorem WsReply.perform_eq (net : Network) (r : WsReply) :
    r.perform net = WebSocket.writeFrame net r.frame.1 r.frame.2 := by
  cases r <;> rfl

/-- Over a calm network the replies are written. -/
theorem exists_performAll_replies (hcalm : net.Calm) (replies : List WsReply) (s : Socket) :
    ∃ t, (WsReply.performAll net replies).run s = (.done (), t) ∧ t.incoming = s.incoming ∧
      t.outgoing = s.outgoing ++ (replies.map WsReply.frame).flatMap PlainFrame.bytes := by
  induction replies generalizing s with
  | nil => exact ⟨s, rfl, rfl, by simp⟩
  | cons r replies ih =>
    obtain ⟨t, hwrite, hin, hout⟩ := exists_writeFrame_eq_done hcalm r.frame.1 r.frame.2 s
    obtain ⟨t', hrest, hin', hout'⟩ := ih t
    refine ⟨t', ?_, hin'.trans hin, ?_⟩
    · rw [WsReply.performAll, WsReply.perform_eq, Awaitable.run_bind_of_done hwrite, hrest]
    · rw [hout', hout, List.map_cons, List.flatMap_cons, List.append_assoc]
      rfl

/-- The frame at the front has the opcode and the FIN bit of the frame that was sent. -/
theorem ClientFrame.exists_frontFrame (f : ClientFrame ws) (rest : Bytes) :
    ∃ w : WireFrame, frontFrame ws (f.bytes ++ rest) = some (w, rest) ∧ w.op = f.op.opcode ∧
      w.fin = true ∧ w.payload = f.payload := by
  obtain ⟨hfin, hop⟩ := opByte_spec f.op
  exact ⟨_, frontFrame_bytes f rest, hop, hfin, rfl⟩

/-- A control frame in front of the close frame leads to another call, behind its answer. -/
theorem ClientFrame.exists_callsAgain (hcalm : net.Calm) {f : ClientFrame ws}
    (hcontrol : f.op.isControl = true) (hclose : f.op ≠ .close) {rest : Bytes} {s : Socket}
    (hin : s.incoming = f.bytes ++ rest) :
    ∃ t, CallsAgain net ws s t ∧ t.incoming = rest ∧
      t.outgoing = s.outgoing ++
        if f.op = .ping then PlainFrame.bytes (.pong, f.payload) else [] := by
  obtain ⟨w, hfront, hop, -, hpayload⟩ := f.exists_frontFrame rest
  rw [← hin] at hfront
  rcases ClientFrame.op_eq_of_isControl hcontrol hclose with hping | hpong
  · obtain ⟨t, hagain, hrest, hout⟩ :=
      exists_callsAgain_of_ping hcalm hfront (by rw [hop, hping]; rfl)
    refine ⟨t, hagain, hrest, ?_⟩
    rw [hout, hpayload, if_pos hping]
    rfl
  · obtain ⟨t, hagain, hrest, hout⟩ :=
      exists_callsAgain_of_pong hcalm hfront (by rw [hop, hpong]; rfl)
    refine ⟨t, hagain, hrest, ?_⟩
    rw [hout, hpong, if_neg (by decide), List.append_nil]

/-- A text or binary frame is returned. -/
theorem ClientFrame.exists_read (hcalm : net.Calm) {f : ClientFrame ws}
    (hdata : f.op.isControl = false) {rest : Bytes} {s : Socket}
    (hin : s.incoming = f.bytes ++ rest) :
    ∃ t, (ws.read net).run s = (.done (some ⟨f.op.opcode, f.payload⟩), t) ∧ t.incoming = rest ∧
      t.outgoing = s.outgoing := by
  obtain ⟨w, hfront, hop, hfin, hpayload⟩ := f.exists_frontFrame rest
  rw [← hin] at hfront
  obtain ⟨now, hbody⟩ := run_readBody_of_frontFrame hcalm hfront
  rw [hop, hfin, hpayload] at hbody
  have hall : ∀ again, (WebSocket.readBody net ws again).run s =
      (.done (some ⟨f.op.opcode, f.payload⟩), { s with incoming := rest, now := now }) := by
    intro again
    rw [hbody, run_handleFrame_message f again hdata]
  exact ⟨_, read_of_ends hall, rfl, rfl⟩

/-- The loop goes on from a call of `read` as from the call that it is. -/
theorem run_converseFor_of_read_eq {s s' : Socket}
    (h : (ws.read net).run s = (ws.read net).run s') (budget : ℕ) (t : τ) :
    (converseFor net ws reply (budget + 1) t).run s =
      (converseFor net ws reply (budget + 1) t).run s' := by
  rw [converseFor, Awaitable.run_bind, Awaitable.run_bind, h]

variable (reply) in
/-- The loop of a handler, on frames that are followed by the end of the stream. The induction is on
the frames: a control frame stays inside the call of `read`, a message takes a round of the loop. -/
theorem run_converseFor (hcalm : net.Calm) {frames : List (ClientFrame ws)}
    (hframes : ∀ f ∈ frames, f.op ≠ .close) {ending : Bytes} {answer : List PlainFrame}
    (hfarewell : Farewell ws ending answer) {s : Socket}
    (hin : s.incoming = frames.flatMap ClientFrame.bytes ++ ending) {budget : ℕ}
    (hbudget : frames.length < budget) (t : τ) :
    ∃ s', (converseFor net ws reply budget t).run s = (.done (stateBehind reply t frames), s') ∧
      s'.outgoing =
        s.outgoing ++ (transcript reply t frames ++ answer).flatMap PlainFrame.bytes := by
  induction frames generalizing budget s t with
  | nil =>
    obtain ⟨budget, rfl⟩ : ∃ b, budget = b + 1 := ⟨budget - 1, by omega⟩
    rw [← show s.incoming = ending by simpa using hin] at hfarewell
    obtain ⟨s', hread, hout⟩ := exists_read_of_farewell hcalm hfarewell
    refine ⟨s', ?_, hout⟩
    rw [converseFor, Awaitable.run_bind_of_done hread]
    rfl
  | cons f frames ih =>
    obtain ⟨hclose, hrest⟩ := List.forall_mem_cons.mp hframes
    rw [List.flatMap_cons, List.append_assoc] at hin
    rw [List.length_cons] at hbudget
    by_cases hdata : f.op.isControl = false
    · -- The message is returned, its replies are sent, and the loop goes on.
      obtain ⟨budget, rfl⟩ : ∃ b, budget = b + 1 := ⟨budget - 1, by omega⟩
      have hmsg : f.message = some ⟨f.op.opcode, f.payload⟩ := by
        simp [ClientFrame.message, hdata]
      obtain ⟨s₁, hread, hin₁, hout₁⟩ := ClientFrame.exists_read hcalm hdata hin
      obtain ⟨s₂, hreplies, hin₂, hout₂⟩ := exists_performAll_replies hcalm
        (reply t ⟨f.op.opcode, f.payload⟩).2 s₁
      obtain ⟨s', hloop, hout'⟩ := ih hrest (hin₂.trans hin₁) (by omega : frames.length < budget)
        (reply t ⟨f.op.opcode, f.payload⟩).1
      refine ⟨s', ?_, ?_⟩
      · rw [converseFor, Awaitable.run_bind_of_done hread]
        simp only
        rw [Awaitable.run_bind_of_done hreplies, hloop, stateBehind, stateBehind,
          List.filterMap_cons, hmsg, List.foldl_cons]
      · rw [hout', hout₂, hout₁, transcript, hmsg]
        simp only [List.flatMap_append, List.append_assoc]
    · -- The call goes on behind the answer to the control frame.
      rw [Bool.not_eq_false] at hdata
      have hmsg : f.message = none := by simp [ClientFrame.message, hdata]
      obtain ⟨s₁, hagain, hin₁, hout₁⟩ := ClientFrame.exists_callsAgain hcalm hdata hclose hin
      obtain ⟨budget, rfl⟩ : ∃ b, budget = b + 1 := ⟨budget - 1, by omega⟩
      obtain ⟨s', hloop, hout'⟩ := ih hrest hin₁ (by omega : frames.length < budget + 1) t
      refine ⟨s', ?_, ?_⟩
      · rw [run_converseFor_of_read_eq (read_of_callsAgain hagain), hloop, stateBehind, stateBehind,
          List.filterMap_cons, hmsg]
      · rw [hout', hout₁, transcript, hmsg]
        by_cases hping : f.op = .ping
        · simp only [if_pos hping, List.cons_append, List.flatMap_cons, List.append_assoc]
        · simp only [if_neg hping, List.append_nil]

variable (reply) in
/-- A handler with a greeting: the frames that it and `read` write are those of the transcript. -/
theorem run_chatHandler (hcalm : net.Calm) {frames : List (ClientFrame ws)}
    (hframes : ∀ f ∈ frames, f.op ≠ .close) {ending : Bytes} {answer : List PlainFrame}
    (hfarewell : Farewell ws ending answer) {s : Socket}
    (hin : s.incoming = frames.flatMap ClientFrame.bytes ++ ending) (greeting : List WsReply)
    (t : τ) :
    ∃ s', (chatHandler net ws reply greeting t).run s = (.done (), s') ∧
      s'.outgoing = s.outgoing ++ (greeting.map WsReply.frame ++
        (transcript reply t frames ++ answer)).flatMap PlainFrame.bytes := by
  obtain ⟨s₁, hgreeting, hin₁, hout₁⟩ := exists_performAll_replies hcalm greeting s
  have hbudget : frames.length < s₁.incoming.length + 1 := by
    have hlength := length_le_length_flatMap_bytes frames
    rw [hin₁, hin, List.length_append]
    omega
  obtain ⟨s', hloop, hout'⟩ :=
    run_converseFor reply hcalm hframes hfarewell (hin₁.trans hin) hbudget t
  have hconverse : (converse net ws reply t).run s₁ = (.done (stateBehind reply t frames), s') :=
    hloop
  refine ⟨s', ?_, ?_⟩
  · rw [chatHandler, Awaitable.run_bind_of_done hgreeting, Awaitable.run_bind_of_done hconverse]
    rfl
  · rw [hout', hout₁]
    simp only [List.flatMap_append, List.append_assoc]

/-! ### What the other party reads -/

/-- The frames at the front of a stream, at most `budget` of them, and what is left. -/
def framesOf (client : WebSocket) : ℕ → Bytes → List PlainFrame × Bytes
  | 0, stream => ([], stream)
  | budget + 1, stream =>
    match frontFrame client stream with
    | none => ([], stream)
    | some (f, rest) =>
      let others := framesOf client budget rest
      ((f.op, f.payload) :: others.1, others.2)

/-- Frames that are written are read back by a party that accepts their lengths. -/
theorem framesOf_flatMap {client : WebSocket} (hmax : client.maxMessageSize < 2 ^ 64)
    {frames : List PlainFrame} (hops : ∀ f ∈ frames, ∃ op : ClientOp, f.1 = op.opcode)
    (hsizes : ∀ f ∈ frames, f.2.length ≤ client.maxMessageSize) {budget : ℕ}
    (hbudget : frames.length ≤ budget) :
    framesOf client budget (frames.flatMap PlainFrame.bytes) = (frames, []) := by
  induction frames generalizing budget with
  | nil => cases budget <;> rfl
  | cons f frames ih =>
    obtain ⟨⟨op, hop⟩, hops⟩ := List.forall_mem_cons.mp hops
    obtain ⟨hsize, hsizes⟩ := List.forall_mem_cons.mp hsizes
    rw [List.length_cons] at hbudget
    obtain ⟨budget, rfl⟩ : ∃ b, budget = b + 1 := ⟨budget - 1, by omega⟩
    obtain ⟨header1, hfront⟩ := frontFrame_writtenFrame f.1 hsize hmax
      (frames.flatMap PlainFrame.bytes)
    have hcode : WsOpcode.ofCode ((0x80 ||| f.1.code) &&& 0x0F) = f.1 := by
      rw [hop]
      exact (opByte_spec op).2
    rw [List.flatMap_cons, framesOf, PlainFrame.bytes, hfront]
    simp only [ih hops hsizes (by omega : frames.length ≤ budget), WireFrame.op, hcode]

/-- A frame has at least one byte. -/
theorem length_le_length_flatMap_plainBytes (frames : List PlainFrame) :
    frames.length ≤ (frames.flatMap PlainFrame.bytes).length := by
  induction frames with
  | nil => exact le_rfl
  | cons f frames ih =>
    rw [List.flatMap_cons, List.length_append, List.length_cons, PlainFrame.bytes, writtenFrame,
      frameHeader_eq, List.length_append, List.length_cons]
    omega

theorem exists_opcode_frame (r : WsReply) : ∃ op : ClientOp, r.frame.1 = op.opcode := by
  cases r with
  | text data => exact ⟨.text, rfl⟩
  | binary data => exact ⟨.binary, rfl⟩
  | ping => exact ⟨.ping, rfl⟩

theorem exists_opcode_of_farewell {ending : Bytes} {answer : List PlainFrame}
    (h : Farewell ws ending answer) : ∀ f ∈ answer, ∃ op : ClientOp, f.1 = op.opcode := by
  cases h with
  | gone => simp
  | tooLong => exact List.forall_mem_singleton.mpr ⟨.close, rfl⟩
  | fragment => exact List.forall_mem_singleton.mpr ⟨.close, rfl⟩
  | closed => exact List.forall_mem_singleton.mpr ⟨.close, rfl⟩

/-- A transcript has frames with the opcodes of the protocol. -/
theorem exists_opcode_of_mem_transcript {frames : List (ClientFrame ws)} {t : τ} :
    ∀ f ∈ transcript reply t frames, ∃ op : ClientOp, f.1 = op.opcode := by
  induction frames generalizing t with
  | nil => simp [transcript]
  | cons f frames ih =>
    rw [transcript]
    cases f.message with
    | some msg =>
      intro g hg
      rcases List.mem_append.mp hg with hg | hg
      · obtain ⟨r, -, rfl⟩ := List.mem_map.mp hg
        exact exists_opcode_frame r
      · exact ih g hg
    | none =>
      simp only
      split
      · exact List.forall_mem_cons.mpr ⟨⟨.pong, rfl⟩, ih⟩
      · exact ih

end Lundi
