import Lundi.Lib.PrefixCode
import Lundi.WebSocket.Reading
import Lundi.WebSocket.Session

/-!
# The closing handshake

The frames that a websocket writes in any sequence of calls. A call of `read` writes pongs and
then at most one close frame, and `close` writes one; but the class does not remember that it has
written one, so that later calls write more frames.

* `isPrefixCode_bytes`: a text has at most one reading as a sequence of frames;
* `emits_readFrames`, `emits_nothing_of_not_answers`: what a call of `read` writes;
* `closeLast_run`: the close frame is the last frame in every run in which nothing is written
  behind it.
-/

namespace Lundi

open BigEndian

/-- A byte string with the length of a `std::string_view`. -/
abbrev SizedBytes := { bytes : Bytes // bytes.length < 2 ^ 64 }

/-- The frames that the server writes. -/
structure ServerFrame where
  op : ClientOp
  payload : SizedBytes

namespace ServerFrame

/-- The frame on the wire. -/
def bytes (f : ServerFrame) : Bytes := frameHeader f.op.opcode f.payload.1.length ++ f.payload.1

end ServerFrame

/-- A call of a handler on its websocket. -/
inductive WsCall
  | read
  | send (data : SizedBytes)
  | sendBinary (data : SizedBytes)
  | ping
  | close (code : ℕ)

/-- A call. -/
def WsCall.perform (net : Network) (ws : WebSocket) : WsCall → Awaitable Unit
  | .read => do
    let _ ← ws.read net
    pure ()
  | .send data => WebSocket.send net data.1
  | .sendBinary data => WebSocket.sendBinary net data.1
  | .ping => WebSocket.ping net
  | .close code => WebSocket.close net code

/-- A handler between two calls, or in a call that never returns. -/
structure WsRun where
  socket : Socket
  suspended : Bool := false

namespace WsRun

variable (net : Network) (ws : WebSocket)

/-- The next call. The handler may catch what it throws. -/
def step (r : WsRun) (c : WsCall) : WsRun :=
  if r.suspended then r
  else
    match (c.perform net ws).run r.socket with
    | (.suspended, s) => ⟨s, true⟩
    | (_, s) => ⟨s, false⟩

/-- A sequence of calls. -/
def run (r : WsRun) (calls : List WsCall) : WsRun := calls.foldl (step net ws) r

end WsRun

/-- Among the first `budget` frames, a frame that is answered stands in front of the first message:
a ping, a close frame, a fragment, or a frame that is too long. -/
def answersFor (ws : WebSocket) : ℕ → Bytes → Bool
  | 0, _ => false
  | budget + 1, incoming =>
    if incoming.length < 2 then false
    else
      let header0 := incoming.getD 0 0
      let header1 := incoming.getD 1 0
      match payloadLength header1 (incoming.drop 2) with
      | none => false
      | some (len, rest) =>
        if len > ws.maxMessageSize then true
        else
          let size := (if header1 &&& 0x80 != 0 then 4 else 0) + len
          if rest.length < size then false
          else
            let op := WsOpcode.ofCode (header0 &&& 0x0F)
            if op = .ping ∨ op = .close then true
            else if op = .pong then answersFor ws budget (rest.drop size)
            else op = .continuation ∨ (header0 &&& 0x80 != 0) = false

/-- The client has sent a frame that a call of `read` answers. -/
def answers (ws : WebSocket) (incoming : Bytes) : Bool :=
  answersFor ws (incoming.length + 1) incoming

/-! ### Frames -/

/-- The bytes of a length can be told apart in front of any text. -/
theorem sizeBytes_eq_of_append_eq {m n : ℕ} {s t : Bytes}
    (h : sizeBytes m ++ s = sizeBytes n ++ t) : sizeBytes m = sizeBytes n := by
  -- A short length is not one of the two bytes 126 and 127 that announce a longer one.
  have hshort : ∀ {size : ℕ} {b : UInt8}, size < 126 → 126 ≤ b.toNat → UInt8.ofNat size ≠ b := by
    rintro size b hsize hb rfl
    rw [toNat_ofNat_of_lt hsize] at hb
    omega
  unfold sizeBytes at h ⊢
  split_ifs at h ⊢ with hm hn hn' hm' hn hn' hn hn'
  all_goals rw [List.cons_append, List.cons_append] at h
  all_goals obtain ⟨hhead, htail⟩ := List.cons.inj h
  · rw [hhead]
  · exact absurd hhead (hshort hm (by decide))
  · exact absurd hhead (hshort hm (by decide))
  · exact absurd hhead.symm (hshort hn (by decide))
  · rw [(List.append_inj htail (by simp)).1]
  · exact absurd hhead (by decide)
  · exact absurd hhead.symm (hshort hn (by decide))
  · exact absurd hhead (by decide)
  · rw [(List.append_inj htail (by simp)).1]

/-- Different lengths have different bytes. -/
theorem sizeBytes_inj {m n : ℕ} (hm : m < 2 ^ 64) (hn : n < 2 ^ 64)
    (h : sizeBytes m = sizeBytes n) : m = n := by
  -- The number of bytes tells which of the three encodings it is.
  have hlen := congrArg List.length h
  unfold sizeBytes at h hlen
  split_ifs at h hlen with hm' hn' hn'' hm'' hn' hn'' hn' hn''
  all_goals simp only [List.length_cons, List.length_nil, length_bigEndian] at hlen
  all_goals first | omega | skip
  · have hbyte := congrArg UInt8.toNat (List.singleton_inj.mp h)
    rwa [toNat_ofNat_of_lt hm', toNat_ofNat_of_lt hn'] at hbyte
  · have hvalue := congrArg fromBigEndian (List.cons.inj h).2
    rwa [fromBigEndian_bigEndian (by omega), fromBigEndian_bigEndian (by omega)] at hvalue
  · have hvalue := congrArg fromBigEndian (List.cons.inj h).2
    rwa [fromBigEndian_bigEndian (by omega), fromBigEndian_bigEndian (by omega)] at hvalue

/-- A text has at most one reading as a sequence of frames. -/
theorem isPrefixCode_bytes : PrefixCode.IsPrefixCode ServerFrame.bytes := by
  -- The header of a frame gives its opcode and the length of its payload.
  have hsize : ∀ {a b : ServerFrame}, frameHeader a.op.opcode a.payload.1.length =
      frameHeader b.op.opcode b.payload.1.length → a.payload.1.length = b.payload.1.length := by
    intro a b h
    rw [frameHeader_eq, frameHeader_eq] at h
    exact sizeBytes_inj a.payload.2 b.payload.2 (List.cons.inj h).2
  refine .of_header (fun f => frameHeader f.op.opcode f.payload.1.length) (fun f => f.payload.1)
    (fun f => rfl) (fun f => List.cons_ne_nil _ _) ?_ hsize ?_
  · intro a b s t h
    simp only [frameHeader_eq, List.cons_append] at h ⊢
    obtain ⟨hop, hrest⟩ := List.cons.inj h
    rw [hop, sizeBytes_eq_of_append_eq hrest]
  · rintro ⟨op, payload⟩ ⟨op', payload'⟩ hheader hpayload
    simp only [frameHeader_eq] at hheader
    have hop : op = op' := by
      have hcode := (List.cons.inj hheader).1
      cases op <;> cases op' <;> first | rfl | exact absurd hcode (by decide)
    obtain rfl : payload = payload' := Subtype.ext hpayload
    rw [hop]

/-! ### Emissions -/

/-- A coroutine writes frames with a property, whatever becomes of it. -/
def Emits {α : Type} (p : List ServerFrame → Prop) (x : Awaitable α) (s : Socket) : Prop :=
  ∃ frames, (x.run s).2.outgoing = s.outgoing ++ frames.flatMap ServerFrame.bytes ∧ p frames

/-- No close frame is written, except as the last frame. -/
def CloseLast (frames : List ServerFrame) : Prop := ∀ f ∈ frames.dropLast, f.op ≠ .close

section Emits

variable {α β : Type} {p : List ServerFrame → Prop} {net : Network} {s : Socket}

theorem Emits.of_outgoing_eq {x : Awaitable α} (h : (x.run s).2.outgoing = s.outgoing)
    (hp : p []) : Emits p x s := ⟨[], by simpa using h, hp⟩

/-- A step that writes nothing, in front of one that emits. -/
theorem Emits.bind {x : Awaitable α} {f : α → Awaitable β}
    (hx : (x.run s).2.outgoing = s.outgoing) (hp : p [])
    (hf : ∀ a s', x.run s = (.done a, s') → Emits p (f a) s') : Emits p (x >>= f) s := by
  cases hrun : x.run s with
  | mk result s' =>
    rw [hrun] at hx
    cases result with
    | done a =>
      obtain ⟨frames, hout, hframes⟩ := hf a s' hrun
      refine ⟨frames, ?_, hframes⟩
      rw [Awaitable.run_bind_of_done hrun, hout, hx]
    | raised e =>
      refine .of_outgoing_eq ?_ hp
      rw [Awaitable.run_bind, hrun]
      exact hx
    | suspended =>
      refine .of_outgoing_eq ?_ hp
      rw [Awaitable.run_bind, hrun]
      exact hx

/-- The `catch` block writes nothing. -/
theorem Emits.catching {x : Awaitable α} (h : Emits p x s) (a : α) :
    Emits p (x.catching fun _ => pure a) s := by
  obtain ⟨frames, hout, hframes⟩ := h
  refine ⟨frames, ?_, hframes⟩
  rw [Awaitable.outgoing_catching, hout]

/-- A single frame is written, or nothing is. -/
theorem emits_writeFrame (f : ServerFrame) (hnone : p []) (hone : p [f]) :
    Emits p (WebSocket.writeFrame net f.op.opcode f.payload.1) s := by
  rcases asyncWrite_cases net f.bytes s with hrun | ⟨result, -, hrun⟩
  · refine ⟨[f], ?_, hone⟩
    show ((asyncWrite net f.bytes).run s).2.outgoing = _
    rw [hrun, List.flatMap_singleton]
  · refine .of_outgoing_eq ?_ hnone
    show ((asyncWrite net f.bytes).run s).2.outgoing = _
    rw [hrun]

end Emits

/-! ### Reading -/

section Read

variable {net : Network} {ws : WebSocket} {s s' : Socket}

/-! ### What `read` writes -/

theorem closeLast_nil : CloseLast [] := by simp [CloseLast]

theorem closeLast_singleton (f : ServerFrame) : CloseLast [f] := by simp [CloseLast]

/-- Another frame in front of the frames. -/
theorem CloseLast.cons {f : ServerFrame} (hf : f.op ≠ .close) {frames : List ServerFrame}
    (h : CloseLast frames) : CloseLast (f :: frames) := by
  rcases frames with _ | ⟨g, frames⟩
  · exact closeLast_singleton f
  · exact List.forall_mem_cons.mpr ⟨hf, h⟩

/-- The close frame with a status code. -/
def closeFrame (code : ℕ) : ServerFrame where
  op := .close
  payload := ⟨[UInt8.ofNat (code >>> 8), UInt8.ofNat (code &&& 0xFF)], (by decide : 2 < 2 ^ 64)⟩

/-- A call that ends with the frame at the front writes a close frame or nothing. -/
theorem exists_of_ends {r : IoResult (Option WsMessage) × Socket} (h : Ends net ws s r) :
    r.2.outgoing = s.outgoing ∨
      ∃ payload : SizedBytes,
        r.2.outgoing = s.outgoing ++ ServerFrame.bytes ⟨.close, payload⟩ := by
  cases h with
  | stops hstop => exact Or.inl hstop.1
  | @closed t payload hsize hout => exact Or.inr ⟨⟨payload, by omega⟩, hout⟩
  | delivered _ _ _ _ _ hout => exact Or.inl hout

/-- A call of `read` writes pongs, and at most one close frame behind them. -/
theorem emits_readFrames (hmax : ws.maxMessageSize < 2 ^ 64) (budget : ℕ) (s : Socket) :
    Emits CloseLast (ws.readFrames net budget) s := by
  induction budget generalizing s with
  | zero => exact .of_outgoing_eq rfl closeLast_nil
  | succ budget ih =>
    refine Emits.catching ?_ none
    rcases readBody_cases net ws s with ⟨r, hends, hall⟩ | ⟨t, f, hfront, hgoes, hagain⟩
    · -- The frame at the front is the last one.
      rcases exists_of_ends hends with hout | ⟨payload, hout⟩
      · exact .of_outgoing_eq (by rw [hall, hout]) closeLast_nil
      · exact ⟨[⟨.close, payload⟩], by rw [hall, hout, List.flatMap_singleton],
          closeLast_singleton _⟩
    · -- The frames of the rest come behind the pong, if there is one.
      obtain ⟨frames, hframes, hlast⟩ := ih t
      rcases hgoes with ⟨-, hout⟩ | ⟨-, hout⟩
      · have hsize := length_payload_le_of_frontFrame hfront
        refine ⟨⟨.pong, ⟨f.payload, by omega⟩⟩ :: frames, ?_,
          hlast.cons (show ClientOp.pong ≠ .close by decide)⟩
        rw [hagain, hframes, hout, List.flatMap_cons, List.append_assoc]
        rfl
      · exact ⟨frames, by rw [hagain, hframes, hout], hlast⟩

/-- Without a frame that is answered, a call of `read` writes nothing. The cases are those of the
frame at the front of the pending bytes. -/
theorem emits_nothing_of_not_answers {budget : ℕ}
    (h : answersFor ws budget s.incoming = false) :
    Emits (· = []) (ws.readFrames net budget) s := by
  induction budget generalizing s with
  | zero => exact .of_outgoing_eq rfl rfl
  | succ budget ih =>
    refine Emits.catching ?_ none
    unfold WebSocket.readBody
    refine Emits.bind (outgoing_asyncRead net 2 s) rfl fun header s₁ hheader => ?_
    refine Emits.bind (outgoing_readLength net _ s₁) rfl fun len s₂ hlength => ?_
    -- The header and the length that are read are those at the front of the pending bytes.
    obtain ⟨hin, htwo, -⟩ := asyncRead_sound hheader
    obtain ⟨header0, header1, rfl⟩ := List.length_eq_two.mp htwo
    have hlen := readLength_sound hlength
    rw [answersFor, hin, if_neg (by simp)] at h
    simp only [List.cons_append, List.nil_append, List.getD_cons_zero, List.getD_cons_succ,
      List.drop_succ_cons, List.drop_zero] at h hlen ⊢
    rw [hlen] at h
    simp only at h
    split at h
    next => exact absurd h (by simp)
    next hle =>
      rw [if_neg hle]
      refine Emits.bind (outgoing_readPayload net _ len s₂) rfl fun payload s₃ hread => ?_
      obtain ⟨-, hsize, hrest⟩ := readPayload_sound hread
      rw [if_neg (not_lt.mpr hsize), ← hrest] at h
      unfold WebSocket.handleFrame
      by_cases hanswered : WsOpcode.ofCode (header0 &&& 0x0F) = .ping ∨
          WsOpcode.ofCode (header0 &&& 0x0F) = .close
      · rw [if_pos hanswered] at h
        exact absurd h (by simp)
      rw [if_neg hanswered] at h
      obtain ⟨hping, hclose⟩ := not_or.mp hanswered
      rw [if_neg hping, if_neg hclose]
      by_cases hpong : WsOpcode.ofCode (header0 &&& 0x0F) = .pong
      · -- A pong is skipped.
        rw [if_pos hpong] at h ⊢
        exact ih h
      · rw [if_neg hpong] at h ⊢
        rw [if_neg (of_decide_eq_false h)]
        exact .of_outgoing_eq rfl rfl

/-- The result of a call of `read` is dropped. -/
theorem emits_dropped {p : List ServerFrame → Prop}
    (h : Emits p (ws.readFrames net (s.incoming.length + 1)) s) :
    Emits p (WsCall.read.perform net ws) s := by
  obtain ⟨frames, hout, hframes⟩ := h
  refine ⟨frames, ?_, hframes⟩
  have hread : (ws.read net).run s = (ws.readFrames net (s.incoming.length + 1)).run s := rfl
  rw [← hout, ← hread]
  show ((ws.read net >>= fun _ => pure ()).run s).2.outgoing = _
  rw [Awaitable.run_bind]
  split
  next heq => rw [heq]; rfl
  next heq => rw [heq]
  next heq => rw [heq]

/-- A call writes no close frame, except as its last frame. -/
theorem emits_perform (hmax : ws.maxMessageSize < 2 ^ 64) (c : WsCall) (s : Socket) :
    Emits CloseLast (c.perform net ws) s := by
  cases c with
  | read => exact emits_dropped (emits_readFrames hmax (s.incoming.length + 1) s)
  | send data => exact emits_writeFrame ⟨.text, data⟩ closeLast_nil (closeLast_singleton _)
  | sendBinary data => exact emits_writeFrame ⟨.binary, data⟩ closeLast_nil (closeLast_singleton _)
  | ping =>
    exact emits_writeFrame ⟨.ping, ⟨[], by decide⟩⟩ closeLast_nil (closeLast_singleton _)
  | close code => exact emits_writeFrame (closeFrame code) closeLast_nil (closeLast_singleton _)

end Read

/-! ### Runs -/

section Runs

variable {net : Network} {ws : WebSocket}

/-- A close frame has been written. -/
def CloseWritten (before after : Socket) : Prop :=
  ∃ frames : List ServerFrame,
    after.outgoing = before.outgoing ++ frames.flatMap ServerFrame.bytes ∧
      ∃ f ∈ frames, f.op = .close

/-- Once a close frame has been written, the handler only calls `read`, and only when the client
has sent no frame that is answered. -/
def SilentAfterClose (net : Network) (ws : WebSocket) (s : Socket) (calls : List WsCall) : Prop :=
  ∀ before call after, calls = before ++ call :: after →
    (WsRun.run net ws ⟨s, false⟩ before).suspended = false →
    CloseWritten s (WsRun.run net ws ⟨s, false⟩ before).socket →
    call = .read ∧ answers ws (WsRun.run net ws ⟨s, false⟩ before).socket.incoming = false

theorem run_append_singleton (r : WsRun) (calls : List WsCall) (c : WsCall) :
    WsRun.run net ws r (calls ++ [c]) = (WsRun.run net ws r calls).step net ws c := by
  rw [WsRun.run, List.foldl_append]
  rfl

/-- What a step writes. -/
theorem step_socket (r : WsRun) (c : WsCall) (hr : r.suspended = false) :
    (r.step net ws c).socket = ((c.perform net ws).run r.socket).2 := by
  rw [WsRun.step, if_neg (by simp [hr])]
  split
  next heq => rw [heq]
  next heq => rw [heq]

/-- In every run in which nothing is written behind a close frame, at most one close frame is
written, and no frame behind it. The induction is on the calls, from the last one. -/
theorem closeLast_run (hmax : ws.maxMessageSize < 2 ^ 64) {s : Socket} {calls : List WsCall}
    (h : SilentAfterClose net ws s calls) :
    ∃ frames, (WsRun.run net ws ⟨s, false⟩ calls).socket.outgoing =
        s.outgoing ++ frames.flatMap ServerFrame.bytes ∧ CloseLast frames := by
  induction calls using List.reverseRecOn with
  | nil => exact ⟨[], (List.append_nil _).symm, closeLast_nil⟩
  | append_singleton calls c ih =>
    -- The condition holds of the calls before the last one, too.
    have hbefore : SilentAfterClose net ws s calls := by
      rintro before call after rfl
      exact h before call (after ++ [c]) (by simp)
    obtain ⟨frames, hout, hframes⟩ := ih hbefore
    rw [run_append_singleton]
    by_cases hsuspended : (WsRun.run net ws ⟨s, false⟩ calls).suspended = true
    · -- A call that never returns is the last one.
      rw [WsRun.step, if_pos hsuspended]
      exact ⟨frames, hout, hframes⟩
    rw [Bool.not_eq_true] at hsuspended
    rw [step_socket _ _ hsuspended]
    by_cases hclosed : ∃ f ∈ frames, f.op = .close
    · -- The close frame is the last frame, and stays it.
      obtain ⟨rfl, hsilent⟩ := h calls c [] rfl hsuspended ⟨frames, hout, hclosed⟩
      obtain ⟨more, hmore, rfl⟩ := emits_dropped (emits_nothing_of_not_answers hsilent)
      refine ⟨frames, ?_, hframes⟩
      rw [hmore, hout, List.flatMap_nil, List.append_nil]
    · obtain ⟨more, hmore, hmoreLast⟩ :=
        emits_perform hmax c (WsRun.run net ws ⟨s, false⟩ calls).socket
      refine ⟨frames ++ more, ?_, ?_⟩
      · rw [hmore, hout, List.flatMap_append, List.append_assoc]
      · -- The frames before this call are not close frames.
        intro f hf
        rcases more.eq_nil_or_concat with rfl | ⟨init, last, rfl⟩
        · rw [List.append_nil] at hf
          exact hframes f hf
        · rw [List.concat_eq_append, ← List.append_assoc, List.dropLast_concat] at hf
          rw [List.concat_eq_append] at hmoreLast
          rcases List.mem_append.mp hf with hold | hnew
          · exact fun hop => hclosed ⟨f, hold, hop⟩
          · exact hmoreLast f (by rwa [List.dropLast_concat])

end Runs

/-- The client answers the close frame of the server, and the server answers the answer. -/
theorem close_echo_answered :
    ¬ ∀ (net : Network) (ws : WebSocket) (s : Socket) (calls : List WsCall),
      ws.maxMessageSize < 2 ^ 64 →
      ∃ frames, (WsRun.run net ws ⟨s, false⟩ calls).socket.outgoing =
        s.outgoing ++ frames.flatMap ServerFrame.bytes ∧ CloseLast frames := by
  intro h
  obtain ⟨frames, hout, hlast⟩ := h (fun _ => .ready 1) {} ⟨[0x88, 0x80, 0, 0, 0, 0], [], 0⟩
    [.close 1000, .read] (by decide)
  have hsent : [closeFrame 1000, ⟨.close, ⟨[], by decide⟩⟩].flatMap ServerFrame.bytes =
      frames.flatMap ServerFrame.bytes := hout
  obtain rfl := isPrefixCode_bytes.flatMap_injective hsent
  exact hlast (closeFrame 1000) List.mem_cons_self rfl

/-- A handler that closes and reads until the client goes away. -/
theorem closeLast_run_close :
    ∃ frames, (WsRun.run (fun _ => .ready 1) {} ⟨⟨[], [], 0⟩, false⟩
        [.close 1000, .read]).socket.outgoing = [] ++ frames.flatMap ServerFrame.bytes ∧
      CloseLast frames := by
  apply closeLast_run (by decide)
  intro before call after hcalls _ hclosed
  rcases before with _ | ⟨first, _ | ⟨second, before⟩⟩
  · -- Nothing has been written before the first call.
    obtain ⟨frames, hout, f, hf, -⟩ := hclosed
    have hnil : [].flatMap ServerFrame.bytes = frames.flatMap ServerFrame.bytes := hout
    obtain rfl := isPrefixCode_bytes.flatMap_injective hnil
    exact absurd hf List.not_mem_nil
  · simp only [List.cons_append, List.nil_append, List.cons.injEq] at hcalls
    obtain ⟨rfl, rfl, -⟩ := hcalls
    exact ⟨rfl, rfl⟩
  · have hlen := congrArg List.length hcalls
    simp only [List.length_cons, List.length_append, List.length_nil] at hlen
    omega

end Lundi
