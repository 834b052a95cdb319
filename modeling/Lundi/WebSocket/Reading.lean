import Lundi.WebSocket.Frames

/-!
# Calls of `read`

What a call of `read` comes to on any network. It takes the frame at the front and then either ends,
or answers or skips the frame and calls itself; such a call is the call that it ends in.

* `readBody_cases`: what reading one frame comes to;
* `run_readFrames`: every sufficient budget gives the same call;
* `read_of_callsAgain`: a call that calls itself is that call.
-/

namespace Lundi

variable {net : Network} {ws : WebSocket} {s t : Socket}

/-! ### Operations that do not complete -/

section Stops

variable {α β : Type}

/-- A run ends without a value and has written nothing: an operation has failed, or the network has
gone silent. -/
def Stops (net : Network) (s : Socket) (r : IoResult α × Socket) : Prop :=
  r.2.outgoing = s.outgoing ∧
    ((∃ e, r.1 = .raised e) ∨ r.1 = .suspended ∧ ∃ now, net now = .silent)

/-- What would follow a step that stops has no part in the run. -/
theorem Stops.bind (β : Type) {x : Awaitable α} (h : Stops net s (x.run s)) :
    ∃ r : IoResult β × Socket, Stops net s r ∧ ∀ f : α → Awaitable β, (x >>= f).run s = r := by
  generalize hrun : x.run s = r at h
  obtain ⟨result, t⟩ := r
  obtain ⟨hout, ⟨e, rfl⟩ | ⟨rfl, hsilent⟩⟩ := h
  · exact ⟨(.raised e, t), ⟨hout, Or.inl ⟨e, rfl⟩⟩, fun f => by rw [Awaitable.run_bind, hrun]⟩
  · exact ⟨(.suspended, t), ⟨hout, Or.inr ⟨rfl, hsilent⟩⟩, fun f => by
      rw [Awaitable.run_bind, hrun]⟩

/-- Two steps, the second of which starts where the first one ends. -/
theorem stops_bind {x : Awaitable α} {f : α → Awaitable β}
    (hout : (x.run s).2.outgoing = s.outgoing)
    (hx : (∃ a t, x.run s = (.done a, t)) ∨ Stops net s (x.run s))
    (hf : ∀ a t, x.run s = (.done a, t) →
      (∃ b t', (f a).run t = (.done b, t')) ∨ Stops net t ((f a).run t)) :
    (∃ b t, (x >>= f).run s = (.done b, t)) ∨ Stops net s ((x >>= f).run s) := by
  rcases hx with ⟨a, t, hrun⟩ | hstop
  · rw [Awaitable.run_bind_of_done hrun]
    rcases hf a t hrun with hdone | ⟨hout', hstop⟩
    · exact Or.inl hdone
    · rw [hrun] at hout
      exact Or.inr ⟨hout'.trans hout, hstop⟩
  · obtain ⟨r, hr, hall⟩ := hstop.bind β
    exact Or.inr (hall f ▸ hr)

theorem asyncRead_cases (net : Network) (count : ℕ) (s : Socket) :
    (∃ bytes t, (asyncRead net count).run s = (.done bytes, t)) ∨
      Stops net s ((asyncRead net count).run s) := by
  simp only [Awaitable.run, asyncRead]
  split
  · split
    · exact Or.inl ⟨_, _, rfl⟩
    · exact Or.inr ⟨rfl, Or.inl ⟨_, rfl⟩⟩
  · exact Or.inr ⟨rfl, Or.inl ⟨_, rfl⟩⟩
  next hsilent => exact Or.inr ⟨rfl, Or.inr ⟨rfl, _, hsilent⟩⟩

theorem readLength_cases (net : Network) (header1 : UInt8) (s : Socket) :
    (∃ len t, (WebSocket.readLength net header1).run s = (.done len, t)) ∨
      Stops net s ((WebSocket.readLength net header1).run s) := by
  have hext : ∀ count : ℕ, (∃ len t, (asyncRead net count >>= fun ext =>
      (pure (extendedLength ext) : Awaitable ℕ)).run s = (.done len, t)) ∨
      Stops net s ((asyncRead net count >>= fun ext =>
        (pure (extendedLength ext) : Awaitable ℕ)).run s) := fun count =>
    stops_bind (outgoing_asyncRead net count s) (asyncRead_cases net count s)
      fun _ _ _ => Or.inl ⟨_, _, rfl⟩
  unfold WebSocket.readLength
  simp only
  split
  · exact hext 2
  · split
    · exact hext 8
    · exact Or.inl ⟨_, _, rfl⟩

theorem readPayload_cases (net : Network) (masked : Bool) (len : ℕ) (s : Socket) :
    (∃ payload t, (WebSocket.readPayload net masked len).run s = (.done payload, t)) ∨
      Stops net s ((WebSocket.readPayload net masked len).run s) := by
  -- Each of the two reads may be left out.
  have hread : ∀ (c : Prop) [Decidable c] (count : ℕ) (bytes : Bytes) (s : Socket),
      ((if c then asyncRead net count else pure bytes : Awaitable Bytes).run s).2.outgoing =
          s.outgoing ∧
        ((∃ bytes' t, (if c then asyncRead net count else pure bytes : Awaitable Bytes).run s =
            (.done bytes', t)) ∨
          Stops net s
            ((if c then asyncRead net count else pure bytes : Awaitable Bytes).run s)) := by
    intro c _ count bytes s
    split
    · exact ⟨outgoing_asyncRead net count s, asyncRead_cases net count s⟩
    · exact ⟨rfl, Or.inl ⟨_, _, rfl⟩⟩
  rw [readPayload_eq]
  obtain ⟨hkeyOut, hkey⟩ := hread (masked = true) 4 [0, 0, 0, 0] s
  refine stops_bind hkeyOut hkey fun maskKey t _ => ?_
  obtain ⟨hrawOut, hraw⟩ := hread (len > 0) len [] t
  exact stops_bind hrawOut hraw fun _ _ _ => Or.inl ⟨_, _, rfl⟩

theorem writeFrame_cases (net : Network) (op : WsOpcode) (payload : Bytes) (s : Socket) :
    (∃ t, (WebSocket.writeFrame net op payload).run s = (.done (), t) ∧
        t.incoming = s.incoming ∧ t.outgoing = s.outgoing ++ writtenFrame op payload) ∨
      Stops net s ((WebSocket.writeFrame net op payload).run s) := by
  simp only [WebSocket.writeFrame, Awaitable.run, asyncWrite]
  split
  · exact Or.inl ⟨_, rfl, rfl, rfl⟩
  · exact Or.inr ⟨rfl, Or.inl ⟨_, rfl⟩⟩
  next hsilent => exact Or.inr ⟨rfl, Or.inr ⟨rfl, _, hsilent⟩⟩

end Stops

/-! ### What reading a frame comes to -/

/-- A call of `read` takes the frame at the front and calls `read` again, and the call is what that
call is. -/
def CallsAgain (net : Network) (ws : WebSocket) (s t : Socket) : Prop :=
  ∀ again, (WebSocket.readBody net ws again).run s = again.run t

/-- The ends of a call that takes the frame at the front and does not call itself: it stops, it
sends a close frame, or it delivers the frame as a message. -/
inductive Ends (net : Network) (ws : WebSocket) (s : Socket) :
    IoResult (Option WsMessage) × Socket → Prop
  | stops {r : IoResult (Option WsMessage) × Socket} (h : Stops net s r) : Ends net ws s r
  | closed {t : Socket} {payload : Bytes} (hsize : payload.length = 0 ∨ payload.length = 2)
      (hout : t.outgoing = s.outgoing ++ writtenFrame .close payload) :
      Ends net ws s (.done none, t)
  | delivered {t : Socket} {f : WireFrame} {rest : Bytes}
      (hfront : frontFrame ws s.incoming = some (f, rest)) (hping : f.op ≠ .ping)
      (hclose : f.op ≠ .close) (hpong : f.op ≠ .pong)
      (hdata : ¬ (f.op = .continuation ∨ f.fin = false)) (hout : t.outgoing = s.outgoing) :
      Ends net ws s (.done (some ⟨f.op, f.payload⟩), t)

/-- The states in which a call that takes the frame `f` at the front calls itself: a ping has been
answered, or a pong has been skipped. -/
def GoesOn (s t : Socket) (f : WireFrame) : Prop :=
  f.op = .ping ∧ t.outgoing = s.outgoing ++ writtenFrame .pong f.payload ∨
    f.op = .pong ∧ t.outgoing = s.outgoing

/-- A close frame is sent, and the call ends. -/
theorem ends_close {s₀ : Socket} (hout : s.outgoing = s₀.outgoing) {payload : Bytes}
    (hsize : payload.length = 0 ∨ payload.length = 2) :
    Ends net ws s₀ ((WebSocket.writeFrame net .close payload >>= fun _ =>
      (pure none : Awaitable (Option WsMessage))).run s) := by
  rcases writeFrame_cases net .close payload s with ⟨t, hrun, -, hwritten⟩ | hstop
  · rw [Awaitable.run_bind_of_done hrun]
    refine .closed hsize ?_
    rw [hwritten, hout]
  · obtain ⟨r, ⟨hsame, hr⟩, hall⟩ := hstop.bind (Option WsMessage)
    rw [hall]
    exact .stops ⟨hsame.trans hout, hr⟩

/-- What becomes of the frame at the front when it has been read. -/
theorem handleFrame_cases {s₀ : Socket} (hout : s.outgoing = s₀.outgoing) {f : WireFrame}
    (hfront : frontFrame ws s₀.incoming = some (f, s.incoming)) :
    (∃ r, Ends net ws s₀ r ∧
        ∀ again, (WebSocket.handleFrame net again f.op f.fin f.payload).run s = r) ∨
      ∃ t, t.incoming = s.incoming ∧ GoesOn s₀ t f ∧
        ∀ again, (WebSocket.handleFrame net again f.op f.fin f.payload).run s = again.run t := by
  unfold WebSocket.handleFrame
  by_cases hping : f.op = .ping
  · -- The pong is written, and the call inside goes on unless the socket stops it.
    simp only [if_pos hping]
    rcases writeFrame_cases net .pong f.payload s with ⟨t, hrun, hin, hwritten⟩ | hstop
    · refine Or.inr ⟨t, hin, Or.inl ⟨hping, hwritten.trans (by rw [hout])⟩, fun again => ?_⟩
      exact Awaitable.run_bind_of_done hrun
    · obtain ⟨r, ⟨hsame, hr⟩, hall⟩ := hstop.bind (Option WsMessage)
      exact Or.inl ⟨r, .stops ⟨hsame.trans hout, hr⟩, fun again => hall fun _ => again⟩
  simp only [if_neg hping]
  by_cases hclose : f.op = .close
  · -- A `close` of the peer is answered with an empty one.
    simp only [if_pos hclose]
    exact Or.inl ⟨_, ends_close hout (Or.inl rfl), fun _ => rfl⟩
  simp only [if_neg hclose]
  by_cases hpong : f.op = .pong
  · simp only [if_pos hpong]
    exact Or.inr ⟨s, rfl, Or.inr ⟨hpong, hout⟩, fun _ => rfl⟩
  simp only [if_neg hpong]
  by_cases hdata : f.op = .continuation ∨ f.fin = false
  · simp only [if_pos hdata]
    exact Or.inl ⟨_, ends_close hout (Or.inr rfl), fun _ => rfl⟩
  · simp only [if_neg hdata]
    exact Or.inl ⟨_, .delivered hfront hping hclose hpong hdata hout, fun _ => rfl⟩

/-- Reading a frame on any network: the call ends, or it takes the frame at the front and calls
itself. -/
theorem readBody_cases (net : Network) (ws : WebSocket) (s : Socket) :
    (∃ r, Ends net ws s r ∧ ∀ again, (WebSocket.readBody net ws again).run s = r) ∨
      ∃ t f, frontFrame ws s.incoming = some (f, t.incoming) ∧ GoesOn s t f ∧
        CallsAgain net ws s t := by
  unfold CallsAgain WebSocket.readBody
  rcases asyncRead_cases net 2 s with ⟨header, s₁, hheader⟩ | hstop
  swap
  · obtain ⟨r, hr, hall⟩ := hstop.bind (Option WsMessage)
    exact Or.inl ⟨r, .stops hr, fun again => hall _⟩
  obtain ⟨hin, htwo, hout₁⟩ := asyncRead_sound hheader
  obtain ⟨header0, header1, rfl⟩ := List.length_eq_two.mp htwo
  simp only [Awaitable.run_bind_of_done hheader, List.getD_cons_zero, List.getD_cons_succ]
  -- The length is that of the frame at the front.
  have houtLen := outgoing_readLength net header1 s₁
  rcases readLength_cases net header1 s₁ with ⟨len, s₂, hlength⟩ | hstop
  swap
  · obtain ⟨r, ⟨hsame, hr⟩, hall⟩ := hstop.bind (Option WsMessage)
    exact Or.inl ⟨r, .stops ⟨hsame.trans hout₁, hr⟩, fun again => hall _⟩
  rw [hlength] at houtLen
  have hout₂ : s₂.outgoing = s.outgoing := houtLen.trans hout₁
  have hlen := readLength_sound hlength
  simp only [Awaitable.run_bind_of_done hlength]
  by_cases hlong : len > ws.maxMessageSize
  · simp only [if_pos hlong]
    exact Or.inl ⟨_, ends_close hout₂ (Or.inr rfl), fun _ => rfl⟩
  simp only [if_neg hlong]
  -- The payload is its payload.
  have houtPayload := outgoing_readPayload net (header1 &&& 0x80 != 0) len s₂
  rcases readPayload_cases net (header1 &&& 0x80 != 0) len s₂ with ⟨payload, s₃, hpayload⟩ | hstop
  swap
  · obtain ⟨r, ⟨hsame, hr⟩, hall⟩ := hstop.bind (Option WsMessage)
    exact Or.inl ⟨r, .stops ⟨hsame.trans hout₂, hr⟩, fun again => hall _⟩
  rw [hpayload] at houtPayload
  obtain ⟨rfl, hsize, hrest⟩ := readPayload_sound hpayload
  have hfront : frontFrame ws s.incoming = some
      (⟨header0, header1, payloadOf (header1 &&& 0x80 != 0) len s₂.incoming⟩, s₃.incoming) := by
    rw [hin, hrest]
    exact frontFrame_of_payloadLength hlen (not_lt.mp hlong) hsize
  simp only [Awaitable.run_bind_of_done hpayload]
  rcases handleFrame_cases (houtPayload.trans hout₂) hfront with
    hends | ⟨t, hincoming, hgoes, hagain⟩
  · exact Or.inl hends
  · rw [← hincoming] at hfront
    exact Or.inr ⟨t, _, hfront, hgoes, hagain⟩

/-! ### Calls of `read` inside a call -/

/-- There is one state in which a call calls itself. -/
theorem CallsAgain.unique {t' : Socket} (h : CallsAgain net ws s t) (h' : CallsAgain net ws s t') :
    t = t' := (Prod.mk.inj ((h .suspend).symm.trans (h' .suspend))).2

/-- A call that ends without calling itself does not. -/
theorem not_callsAgain {r : IoResult (Option WsMessage) × Socket}
    (hall : ∀ again, (WebSocket.readBody net ws again).run s = r) : ¬ CallsAgain net ws s t := by
  intro h
  -- It would end in the ways of both of these.
  have hnone := (h (pure none)).symm.trans (hall _)
  have hsuspend := (h .suspend).symm.trans (hall _)
  exact absurd (Prod.mk.inj (hnone.trans hsuspend.symm)).1 (by simp)

theorem exists_of_callsAgain (h : CallsAgain net ws s t) :
    ∃ f, frontFrame ws s.incoming = some (f, t.incoming) ∧ GoesOn s t f := by
  rcases readBody_cases net ws s with ⟨r, -, hall⟩ | ⟨t', f, hfront, hgoes, hagain⟩
  · exact absurd h (not_callsAgain hall)
  · obtain rfl := h.unique hagain
    exact ⟨f, hfront, hgoes⟩

theorem length_lt_of_callsAgain (h : CallsAgain net ws s t) :
    t.incoming.length < s.incoming.length := by
  obtain ⟨f, hfront, -⟩ := exists_of_callsAgain h
  exact length_lt_of_frontFrame hfront

theorem run_readFrames_succ (net : Network) (ws : WebSocket) (budget : ℕ) (s : Socket) :
    (ws.readFrames net (budget + 1)).run s =
      Awaitable.caught none ((WebSocket.readBody net ws (ws.readFrames net budget)).run s) :=
  Awaitable.run_catching_pure _ _ _

/-- Every exception is caught. -/
theorem run_readFrames_ne_raised (budget : ℕ) (s : Socket) (e : Exception) :
    ((ws.readFrames net budget).run s).1 ≠ .raised e := by
  cases budget with
  | zero =>
    change IoResult.suspended ≠ _
    simp
  | succ budget =>
    rw [run_readFrames_succ]
    obtain ⟨result, t⟩ := (WebSocket.readBody net ws (ws.readFrames net budget)).run s
    cases result <;> simp [Awaitable.caught]

/-- A call that calls itself is that call. -/
theorem run_readFrames_of_callsAgain (h : CallsAgain net ws s t) (budget : ℕ) :
    (ws.readFrames net (budget + 1)).run s = (ws.readFrames net budget).run t := by
  rw [run_readFrames_succ, h]
  exact Awaitable.caught_of_ne_raised _ (run_readFrames_ne_raised budget t)

/-- Every sufficient budget gives the same call. -/
theorem run_readFrames {budget : ℕ} (h : s.incoming.length < budget) :
    (ws.readFrames net budget).run s = (ws.read net).run s := by
  have hall : ∀ n (s : Socket), s.incoming.length < n → ∀ m, s.incoming.length < m →
      (ws.readFrames net n).run s = (ws.readFrames net m).run s := by
    intro n
    induction n with
    | zero => exact fun s hn => absurd hn (Nat.not_lt_zero _)
    | succ n ih =>
      intro s hn m hm
      obtain ⟨m, rfl⟩ := Nat.exists_eq_add_one.mpr (Nat.zero_lt_of_lt hm)
      rcases readBody_cases net ws s with ⟨r, -, hends⟩ | ⟨t, -, -, -, hagain⟩
      · rw [run_readFrames_succ, run_readFrames_succ, hends, hends]
      · -- The next call finds fewer bytes.
        have hlt := length_lt_of_callsAgain hagain
        rw [run_readFrames_of_callsAgain hagain, run_readFrames_of_callsAgain hagain]
        exact ih t (by omega) m (by omega)
  exact hall budget s h _ (Nat.lt_succ_self _)

/-- A call of `read` that calls itself is that call. -/
theorem read_of_callsAgain (h : CallsAgain net ws s t) :
    (ws.read net).run s = (ws.read net).run t := by
  have hlt := length_lt_of_callsAgain h
  rw [← run_readFrames (Nat.lt_succ_self s.incoming.length), run_readFrames_of_callsAgain h,
    run_readFrames hlt]

/-- A call that does not call itself returns what it ends with, unless that is an exception. -/
theorem read_of_ends {r : IoResult (Option WsMessage) × Socket}
    (hall : ∀ again, (WebSocket.readBody net ws again).run s = r) :
    (ws.read net).run s = Awaitable.caught none r :=
  (run_readFrames_succ net ws s.incoming.length s).trans (congrArg _ (hall _))

end Lundi
