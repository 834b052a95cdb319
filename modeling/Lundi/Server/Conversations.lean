import Lundi.Server.StreamedResponses
import Lundi.WebSocket.Conversation

/-!
# Conversations over a connection

A client that asks for a WebSocket on a connection, in whatever state the connection is, and then
sends frames. It reads the answer to the handshake and then the frames of the conversation, if only
the frames have not come together with the head of the request: what has been read with the head is
not given to the handler.

* `readConversation_runFor`: what the client reads.
-/

namespace Lundi

variable {σ τ : Type} {env : Env} {opts : ServerOptions} {app : App σ}

/-! ### The route -/

/-- The request is for the WebSocket endpoint of a route, with this key. -/
structure RawRequest.ToWs (r : RawRequest opts) (app : App σ) (key : Bytes)
    (handler : EndpointHandler σ) : Prop where
  upgrade_eq : (valuesOf (ascii "upgrade") (r.fieldLines.filterMap fieldOf)).head?.any
    (equalsIgnoreCase · (ascii "websocket")) = true
  key_eq : (valuesOf (ascii "sec-websocket-key") (r.fieldLines.filterMap fieldOf)).head? = some key
  key_ne_nil : key ≠ []
  lookup_eq : app.wsRoutes.lookup r.path = some handler

namespace RawRequest

variable {r : RawRequest opts} {data : StringView}

variable {key : Bytes} {handler : EndpointHandler σ}

theorem ToWs.header_key (h : r.ToWs app key handler) (hdata : data.bytes = r.head) :
    ((parseHeaders data).header (ascii "sec-websocket-key")).bytes = key := by
  have hlookup := (findHeaderCi_head hdata (ascii "sec-websocket-key")).trans h.key_eq
  obtain ⟨val, hval, hbytes⟩ := Option.map_eq_some_iff.mp hlookup
  rw [Request.header, hval]
  exact hbytes

theorem ToWs.isWsUpgrade (h : r.ToWs app key handler) (hdata : data.bytes = r.head) :
    isWsUpgrade (parseHeaders data) = true := by
  have hlookup := findHeaderCi_head hdata (ascii "upgrade")
  have hupgrade : (parseHeaders data).headerEquals (ascii "upgrade") (ascii "websocket") =
      true := by
    have hany := h.upgrade_eq
    rw [← hlookup] at hany
    rw [Request.headerEquals]
    cases hfind : (parseHeaders data).findHeaderCi (ascii "upgrade") with
    | none =>
      rw [hfind] at hany
      exact absurd hany (by simp)
    | some val =>
      rw [hfind] at hany
      exact hany
  rw [Lundi.isWsUpgrade, hupgrade, h.header_key hdata]
  simpa using h.key_ne_nil

theorem ToWs.takeover_eq (h : r.ToWs app key handler) (hdata : data.bytes = r.head) (net : Network)
    (date : Bytes) (user : σ) :
    app.takeover net date ⟨user, parseHeaders data⟩ =
      some ⟨.webSocket, wsHandshakeResponse (parseHeaders data), handler net user⟩ := by
  have hlookup := h.lookup_eq
  rw [← path_eq hdata] at hlookup
  have hws : app.wsTakeover net ⟨user, parseHeaders data⟩ =
      some ⟨.webSocket, wsHandshakeResponse (parseHeaders data), handler net user⟩ := by
    simp [App.wsTakeover, not_isEmpty_of_lookup hlookup, h.isWsUpgrade hdata, hlookup]
  rw [App.takeover, hws]

end RawRequest

/-! ### The client -/

/-- What a client sees of a conversation: the answer to its handshake, and the frames behind it. -/
structure ConversationSeen where
  status : ℕ
  fields : List (Bytes × Bytes)
  frames : List PlainFrame
  deriving DecidableEq

/-- A client reads the answer to its handshake and then frames, up to the end of the connection. It
goes on whatever the `Sec-WebSocket-Accept` field says. A client that compares the field with the
accept key of the protocol does not: the GUID of `wsAcceptKey` is another one. -/
def readConversation (client : WebSocket) (stream : Bytes) : Option ConversationSeen :=
  match readResponseHead stream with
  | none => none
  | some (status, fields, rest) =>
    match framesOf client rest.length rest with
    | (frames, []) => some ⟨status, fields, frames⟩
    | (_, _ :: _) => none

/-- The fields of the answer to a handshake. -/
def handshakeFields (key : Bytes) : List (Bytes × Bytes) :=
  upgradeFields ++ [(ascii "Sec-WebSocket-Accept", wsAcceptKey key)]

theorem cleanField_handshakeFields (key : Bytes) : ∀ f ∈ handshakeFields key, CleanField f := by
  have hclean : ∀ b ∈ [cr, lf, sp, tab], b ∉ wsAcceptKey key := by
    intro b hb
    rw [wsAcceptKey_eq]
    exact not_mem_encode hb _
  simp only [handshakeFields, upgradeFields, List.cons_append, List.nil_append,
    List.forall_mem_cons]
  exact ⟨cleanField_of_name (by decide) (by decide), cleanField_of_name (by decide) (by decide),
    cleanField_of_name (by decide) ⟨hclean cr (by simp), hclean lf (by simp)⟩, by simp⟩

/-- A client reads the frames behind an answer to a handshake. -/
theorem readConversation_append {client : WebSocket} (hmax : client.maxMessageSize < 2 ^ 64)
    {frames : List PlainFrame} (hops : ∀ f ∈ frames, ∃ op : ClientOp, f.1 = op.opcode)
    (hsizes : ∀ f ∈ frames, f.2.length ≤ client.maxMessageSize) {req : Request} {key : Bytes}
    (hkey : (req.header (ascii "sec-websocket-key")).bytes = key) :
    readConversation client (wsHandshakeResponse req ++ frames.flatMap PlainFrame.bytes) =
      some ⟨101, (handshakeFields key).map trimmed, frames⟩ := by
  have hstatus : statusOf (ascii "HTTP/1.1 101 Switching Protocols") = some 101 := by decide
  have hhead := readResponseHead_append (by decide) (cleanField_handshakeFields key) hstatus
    (frames.flatMap PlainFrame.bytes)
  have hframes := framesOf_flatMap hmax hops hsizes (length_le_length_flatMap_plainBytes frames)
  rw [readConversation, wsHandshakeResponse_eq, hkey, ← handshakeFields, hhead]
  simp only [hframes]

/-! ### The conversation -/

/-- A connection on which a client asks for a WebSocket, in any state. Some bytes may be read
together with the head; then frames follow, and the end of the stream. The client reads the answer
to its handshake, and then the greeting, a pong for each ping, the replies to each message, and the
answer to the end of the stream, in this order and nothing else. What has been read with the head
has no part in it. -/
theorem readConversation_runFor (hcalm : env.net.Calm) {c : ConnState σ}
    (hkeep : c.keepAlive = true) {r : RawRequest opts} {key : Bytes} {ws : WebSocket}
    {reply : τ → WsMessage → τ × List WsReply} {greeting : List WsReply} {t : τ}
    (hroute : r.ToWs app key fun net _ => chatHandler net ws reply greeting t)
    {early : Bytes} {frames : List (ClientFrame ws)} {ending : Bytes} {answer : List PlainFrame}
    (hunread : c.unread = r.head ++ (early ++ (frames.flatMap ClientFrame.bytes ++ ending)))
    {headerEnd : ℕ} {buffer : ReadBuffer} {s : Socket}
    (hread : (readHead env.net opts c).run c.socket = (.done (headerEnd, buffer), s))
    (hearly : buffer.contents = r.head ++ early) (hframes : ∀ f ∈ frames, f.op ≠ .close)
    (hfarewell : Farewell ws ending answer) {client : WebSocket}
    (hmax : client.maxMessageSize < 2 ^ 64)
    (hsizes : ∀ f ∈ greeting.map WsReply.frame ++ (transcript reply t frames ++ answer),
      f.2.length ≤ client.maxMessageSize) (budget : ℕ) :
    ∃ sent, (runFor env opts app (budget + 1) c).socket.outgoing = c.socket.outgoing ++ sent ∧
      (runFor env opts app (budget + 1) c).exit = .handedOver ∧
      readConversation client sent =
        some ⟨101, (handshakeFields key).map trimmed,
          greeting.map WsReply.frame ++ (transcript reply t frames ++ answer)⟩ := by
  have htaken : ∀ data : StringView, data.bytes = r.head →
      app.takesOver (parseHeaders data) = true := fun data hdata =>
    RawRequest.takesOver_of_takeover_eq (hroute.takeover_eq hdata env.net [] c.user)
  obtain ⟨buffer', s', takeover, exit, x, hread', hpending, -, hout, ht, hstep, hexit⟩ :=
    exists_step_eq_handOver hcalm hunread htaken
  obtain ⟨hresult, rfl⟩ := Prod.mk.inj (hread.symm.trans hread')
  obtain ⟨-, rfl⟩ := Prod.mk.inj (IoResult.done.inj hresult)
  rw [hroute.takeover_eq rfl] at ht
  obtain rfl := Option.some_inj.mp ht
  -- The handler is given what has not been read with the head.
  have hin : s.incoming = frames.flatMap ClientFrame.bytes ++ ending := by
    rw [pending, hearly, List.append_assoc] at hpending
    exact List.append_cancel_left (List.append_cancel_left hpending)
  generalize hreq : parseHeaders ⟨.readBuffer buffer.generation, 0, r.head⟩ = req at hstep hexit
  have hkey : (req.header (ascii "sec-websocket-key")).bytes = key := by
    rw [← hreq]
    exact hroute.header_key rfl
  obtain ⟨s', hchat, hsent⟩ := run_chatHandler reply hcalm hframes hfarewell
    (s := Takeover.start ⟨.webSocket, wsHandshakeResponse req,
      chatHandler env.net ws reply greeting t⟩ s) hin greeting t
  refine ⟨wsHandshakeResponse req ++ (greeting.map WsReply.frame ++
    (transcript reply t frames ++ answer)).flatMap PlainFrame.bytes, ?_, ?_, ?_⟩
  · have hrun : (runFor env opts app (budget + 1) c).socket = s' := by
      rw [runFor, if_pos hkeep, hstep]
      exact congrArg Prod.snd hchat
    rw [hrun, hsent, Takeover.start, hout, List.append_assoc]
  · rw [runFor, if_pos hkeep, hstep]
    exact hexit (congrArg Prod.fst hchat)
  · refine readConversation_append hmax ?_ hsizes hkey
    intro f hf
    rcases List.mem_append.mp hf with hf | hf
    · obtain ⟨g, -, rfl⟩ := List.mem_map.mp hf
      exact exists_opcode_frame g
    · rcases List.mem_append.mp hf with hf | hf
      · exact exists_opcode_of_mem_transcript f hf
      · exact exists_opcode_of_farewell hfarewell f hf

/-! ### A concrete conversation -/

/-- A request for the chat. -/
def chatGet : RawRequest defaultOptions :=
  sampleGetWith (ascii "/chat")
    [ascii "Upgrade: websocket", ascii "Sec-WebSocket-Key: " ++ sampleNonce]
    (by decide) (by decide +kernel) (by decide) (show valuesOf _ _ = [] by decide +kernel)
    (by decide +kernel)

/-- Text messages are echoed. -/
def echoReply (_ : Unit) (msg : WsMessage) : Unit × List WsReply :=
  if msg.opcode = .text then ((), [.text (ascii "echo: " ++ msg.data)]) else ((), [])

/-- An application with one chat. -/
def chatApp : App Unit :=
  App.empty.ws (ascii "/chat") fun net _ =>
    chatHandler net {} echoReply [.text (ascii "welcome")] ()

theorem toWs_chatGet : chatGet.ToWs chatApp sampleNonce fun net _ =>
    chatHandler net {} echoReply [.text (ascii "welcome")] () where
  upgrade_eq := by decide +kernel
  key_eq := by decide +kernel
  key_ne_nil := by decide +kernel
  lookup_eq := by
    rw [show chatGet.path = ascii "/chat" by decide]
    rfl

/-- A ping and a message. -/
def chatFrames : List (ClientFrame {}) :=
  [{ op := .ping, maskKey := [1, 2, 3, 4], payload := [7], width := .seven
     length_maskKey := rfl, payload_le := by decide, control_le := by decide
     width_fits := by decide },
   { op := .text, maskKey := [5, 6, 7, 8], payload := ascii "hi", width := .sixteen
     length_maskKey := rfl, payload_le := by decide, control_le := by decide
     width_fits := by decide }]

/-- A close frame. -/
def chatEnding : Bytes := [0x88, 0x80, 1, 2, 3, 4]

theorem farewell_chatEnding : Farewell {} chatEnding [(.close, [])] :=
  .closed (show frontFrame {} chatEnding = some (⟨0x88, 0x80, []⟩, []) by decide +kernel)
    (by decide)

/-- The connection. -/
def chatState : ConnState Unit :=
  .init () (chatGet.head ++ ([] ++ (chatFrames.flatMap ClientFrame.bytes ++ chatEnding)))

/-- What the buffer holds when a head has been read. -/
def bufferedBytes : IoResult (ℕ × ReadBuffer) → Option Bytes
  | .done (_, buffer) => some buffer.contents
  | .raised _ => none
  | .suspended => none

/-- Byte by byte, nothing is read together with the head. -/
theorem exists_readHead_chatState :
    ∃ headerEnd buffer s, (readHead bytewiseEnv.net defaultOptions chatState).run chatState.socket =
        (.done (headerEnd, buffer), s) ∧ buffer.contents = chatGet.head ++ [] := by
  have hrun :
      bufferedBytes ((readHead bytewiseEnv.net defaultOptions chatState).run chatState.socket).1 =
        some (chatGet.head ++ []) := by
    decide +kernel
  generalize (readHead bytewiseEnv.net defaultOptions chatState).run chatState.socket = result
    at hrun
  obtain ⟨value, s⟩ := result
  cases value with
  | done found => exact ⟨found.1, found.2, s, rfl, Option.some_inj.mp hrun⟩
  | raised e => exact absurd hrun (by simp [bufferedBytes])
  | suspended => exact absurd hrun (by simp [bufferedBytes])

/-- A greeting, a pong and an echo. -/
theorem readConversation_runFor_chat :
    ∃ sent, (runFor bytewiseEnv defaultOptions chatApp (0 + 1) chatState).socket.outgoing =
        chatState.socket.outgoing ++ sent ∧
      (runFor bytewiseEnv defaultOptions chatApp (0 + 1) chatState).exit = .handedOver ∧
      readConversation {} sent =
        some ⟨101, (handshakeFields sampleNonce).map trimmed,
          [WsReply.text (ascii "welcome")].map WsReply.frame ++
            (transcript echoReply () chatFrames ++ [(.close, [])])⟩ := by
  obtain ⟨headerEnd, buffer, s, hread, hearly⟩ := exists_readHead_chatState
  have hunread : chatState.unread =
      chatGet.head ++ ([] ++ (chatFrames.flatMap ClientFrame.bytes ++ chatEnding)) :=
    unread_init _ _
  have hcalm : bytewiseEnv.net.Calm := fun _ => ⟨1, rfl⟩
  have hkeep : chatState.keepAlive = true := rfl
  exact readConversation_runFor hcalm hkeep toWs_chatGet hunread hread hearly (by decide)
    farewell_chatEnding (by decide) (by decide +kernel) 0

end Lundi
