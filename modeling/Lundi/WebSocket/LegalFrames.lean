import Lundi.WebSocket.Closing
import Mathlib.Logic.Relation

/-!
# Legal frames

The frames that a client must not send, and what `read` does with them. It looks at the opcode, the
FIN bit of a data frame and the length, so that it skips, answers or delivers frames with a reserved
opcode or reserved bits, frames without a mask, and fragmented or long control frames.

* `legallyRead_of_readsLegallyFor`: a stream whose illegal frames stand where they are refused is
  read so on any network;
* `readsLegally_of_acceptsOnlyLegal`: on a calm network no other stream is;
* `acceptsOnlyLegal_iff`: the streams of which only legal frames are accepted.
-/

namespace Lundi

/-! ### Frames that must not be sent -/

/-- An opcode without a name. -/
def WsOpcode.isReserved : WsOpcode → Bool
  | .reserved _ => true
  | _ => false

/-- The opcode of a control frame. -/
def WsOpcode.isControl : WsOpcode → Bool
  | .close | .ping | .pong => true
  | _ => false

/-- A frame with these header bytes and a payload of this length is one that a client must not send:
it has a reserved opcode, a reserved bit or no mask, or it is a control frame that is a fragment or
has more than 125 bytes. -/
def isIllegal (header0 header1 : UInt8) (len : ℕ) : Bool :=
  let op := WsOpcode.ofCode (header0 &&& 0x0F)
  op.isReserved || header0 &&& 0x70 != 0 || header1 &&& 0x80 == 0 ||
    (op.isControl && (header0 &&& 0x80 == 0 || 125 < len))

/-- A frame of this kind has been read. -/
def WireFrame.illegal (f : WireFrame) : Bool := isIllegal f.header0 f.header1 f.payload.length

/-- The stream begins with the header of a frame of this kind. -/
def illegalFront (incoming : Bytes) : Bool :=
  if incoming.length < 2 then false
  else
    let header1 := incoming.getD 1 0
    let len := ((payloadLength header1 (incoming.drop 2)).map Prod.fst).getD 0
    isIllegal (incoming.getD 0 0) header1 len

/-! ### What `read` has to do with them -/

/-- A frame of the server is legal: it always has its FIN bit, no reserved bits and no mask; the
payload of a control frame has to be short, and that of a close frame has no half of a code. -/
def ServerFrame.Legal (f : ServerFrame) : Prop :=
  (f.op.isControl = true → f.payload.1.length ≤ 125) ∧
    (f.op = .close → f.payload.1.length ≠ 1)

variable (net : Network) (ws : WebSocket)

/-- A call of `read` returns `nullopt` and sends no pong; it may hang only if the network does. -/
def Rejected (s : Socket) : Prop :=
  (((ws.read net).run s).1 = .done none ∨
      ((ws.read net).run s).1 = .suspended ∧ ∃ now, net now = .silent) ∧
    Emits (fun frames => ∀ f ∈ frames, f.op ≠ .pong) (ws.read net) s

/-- A call of `read` accepts only legal frames: at each illegal one that it or a call inside it
starts on, `read` returns `nullopt` and sends no pong; it returns only complete text and binary
messages, and answers with legal frames. -/
structure AcceptsOnlyLegal (s : Socket) : Prop where
  rejects : ∀ t, Relation.ReflTransGen (CallsAgain net ws) s t →
    illegalFront t.incoming = true → Rejected net ws t
  message : ∀ msg s', (ws.read net).run s = (.done (some msg), s') →
    ∃ t f rest, Relation.ReflTransGen (CallsAgain net ws) s t ∧
      frontFrame ws t.incoming = some (f, rest) ∧ f.fin = true ∧
      (f.op = .text ∨ f.op = .binary) ∧ msg = ⟨f.op, f.payload⟩
  replies : Emits (fun frames => ∀ f ∈ frames, f.Legal) (ws.read net) s

/-- The frames at the front, up to the one at which a call of `read` ends, are legal where it
matters; `marked` says that one in front of them was not. A ping is answered, so that it has to be
legal and none before it may be illegal. A pong is skipped, and marks the stream if it is illegal. A
close frame, a continuation and a fragment end the call. Any other frame is delivered. -/
def readsLegallyFor (ws : WebSocket) : ℕ → Bool → Bytes → Bool
  | 0, _, _ => true
  | budget + 1, marked, incoming =>
    match frontFrame ws incoming with
    | none => true
    | some (f, rest) =>
      let marked := marked || f.illegal
      if f.op = .ping then !marked && readsLegallyFor ws budget marked rest
      else if f.op = .close then true
      else if f.op = .pong then readsLegallyFor ws budget marked rest
      else if f.op = .continuation ∨ f.fin = false then true
      else !marked

/-- The stream is read legally. Every frame takes bytes, so that there are fewer frames than bytes.
-/
def readsLegally (ws : WebSocket) (incoming : Bytes) : Bool :=
  readsLegallyFor ws (incoming.length + 1) false incoming

variable {net ws} {s t : Socket}

theorem Emits.mono {α : Type} {p q : List ServerFrame → Prop} {x : Awaitable α}
    (h : Emits p x s) (hpq : ∀ frames, p frames → q frames) : Emits q x s := by
  obtain ⟨frames, hout, hp⟩ := h
  exact ⟨frames, hout, hpq frames hp⟩

/-- A call that skips a frame writes what the call inside it writes. -/
theorem emits_iff_of_callsAgain (hagain : CallsAgain net ws s t)
    (hout : t.outgoing = s.outgoing) {p : List ServerFrame → Prop} :
    Emits p (ws.read net) s ↔ Emits p (ws.read net) t := by
  rw [Emits, Emits, read_of_callsAgain hagain, hout]

theorem rejected_iff_of_callsAgain (hagain : CallsAgain net ws s t)
    (hout : t.outgoing = s.outgoing) : Rejected net ws s ↔ Rejected net ws t := by
  rw [Rejected, Rejected, emits_iff_of_callsAgain hagain hout, read_of_callsAgain hagain]

/-! ### Streams that are read legally -/

/-- The header at the front is that of the frame at the front. -/
theorem illegalFront_of_frontFrame {incoming rest : Bytes} {f : WireFrame}
    (h : frontFrame ws incoming = some (f, rest)) : illegalFront incoming = f.illegal := by
  obtain ⟨header0, header1, tail, len, behind, rfl, hlen, -, hsize, rfl, -⟩ :=
    exists_of_frontFrame h
  rw [illegalFront, if_neg (by simp), WireFrame.illegal, length_payloadOf hsize]
  simp only [List.getD_cons_zero, List.getD_cons_succ, List.drop_succ_cons, List.drop_zero, hlen,
    Option.map_some, Option.getD_some]

/-- A legal frame that is delivered is a message. -/
theorem WireFrame.op_of_legal {f : WireFrame} (hlegal : f.illegal = false) (hping : f.op ≠ .ping)
    (hclose : f.op ≠ .close) (hpong : f.op ≠ .pong) (hdata : f.op ≠ .continuation) :
    f.op = .text ∨ f.op = .binary := by
  have hreserved : f.op.isReserved = false := by
    rw [WireFrame.illegal, isIllegal] at hlegal
    simp only [Bool.or_eq_false_iff] at hlegal
    exact hlegal.1.1.1
  cases hop : f.op with
  | text => exact Or.inl rfl
  | binary => exact Or.inr rfl
  | continuation => exact absurd hop hdata
  | close => exact absurd hop hclose
  | ping => exact absurd hop hping
  | pong => exact absurd hop hpong
  | reserved code =>
    rw [hop] at hreserved
    exact absurd hreserved (by simp [WsOpcode.isReserved])

/-- A legal ping is short. -/
theorem WireFrame.length_of_legal {f : WireFrame} (hlegal : f.illegal = false)
    (hping : f.op = .ping) : f.payload.length ≤ 125 := by
  rw [WireFrame.illegal, isIllegal] at hlegal
  simp only [Bool.or_eq_false_iff, Bool.and_eq_false_iff] at hlegal
  rcases hlegal.2 with hcontrol | ⟨-, hlong⟩
  · have hop : WsOpcode.ofCode (f.header0 &&& 0x0F) = .ping := hping
    rw [hop] at hcontrol
    exact absurd hcontrol (by decide)
  · exact not_lt.mp (of_decide_eq_false hlong)

/-- A call of `read` that accepts only legal frames, behind an illegal one if it is marked: it ends
with `nullopt` and perhaps a close frame, it delivers a legal frame, it answers a legal ping, or it
skips a pong. -/
inductive LegallyRead (net : Network) (ws : WebSocket) : Bool → Socket → Prop
  | quits {marked : Bool} {s : Socket} (hends : ∀ t, ¬ CallsAgain net ws s t)
      (hresult : ((ws.read net).run s).1 = .done none ∨
        ((ws.read net).run s).1 = .suspended ∧ ∃ now, net now = .silent)
      (hemits : Emits (fun frames => ∀ f ∈ frames, f.op = .close ∧ f.Legal) (ws.read net) s) :
      LegallyRead net ws marked s
  | delivers {s t : Socket} {f : WireFrame} {rest : Bytes} (hends : ∀ t, ¬ CallsAgain net ws s t)
      (hfront : frontFrame ws s.incoming = some (f, rest)) (hlegal : f.illegal = false)
      (hfin : f.fin = true) (hop : f.op = .text ∨ f.op = .binary)
      (hread : (ws.read net).run s = (.done (some ⟨f.op, f.payload⟩), t))
      (hout : t.outgoing = s.outgoing) : LegallyRead net ws false s
  | answers {s t : Socket} {f : WireFrame}
      (hfront : frontFrame ws s.incoming = some (f, t.incoming)) (hlegal : f.illegal = false)
      (hop : f.op = .ping) (hagain : CallsAgain net ws s t)
      (hout : t.outgoing = s.outgoing ++ writtenFrame .pong f.payload)
      (hrest : LegallyRead net ws false t) : LegallyRead net ws false s
  | skips {marked : Bool} {s t : Socket} {f : WireFrame}
      (hfront : frontFrame ws s.incoming = some (f, t.incoming)) (hagain : CallsAgain net ws s t)
      (hout : t.outgoing = s.outgoing) (hrest : LegallyRead net ws (marked || f.illegal) t) :
      LegallyRead net ws marked s

/-- A call that stops ends with `nullopt`, unless the network is silent. -/
theorem quits_of_stops {r : IoResult (Option WsMessage) × Socket} (hstop : Stops net s r)
    (hall : ∀ again, (WebSocket.readBody net ws again).run s = r) (marked : Bool) :
    LegallyRead net ws marked s := by
  have hread := read_of_ends hall
  obtain ⟨result, t⟩ := r
  obtain ⟨hout, ⟨e, rfl⟩ | ⟨rfl, hsilent⟩⟩ := hstop
  · have hdone : (ws.read net).run s = (.done none, t) := hread
    refine .quits (fun _ => not_callsAgain hall) (Or.inl (congrArg Prod.fst hdone)) ?_
    exact .of_outgoing_eq ((congrArg (fun r => r.2.outgoing) hdone).trans hout) (by simp)
  · have hhang : (ws.read net).run s = (.suspended, t) := hread
    refine .quits (fun _ => not_callsAgain hall)
      (Or.inr ⟨congrArg Prod.fst hhang, hsilent⟩) ?_
    exact .of_outgoing_eq ((congrArg (fun r => r.2.outgoing) hhang).trans hout) (by simp)

/-- A stream of which only legal frames are to be accepted is read so, on any network. The
induction is on the budget, and the cases are those of the frame at the front. -/
theorem legallyRead_of_readsLegallyFor {budget : ℕ} {marked : Bool}
    (h : readsLegallyFor ws budget marked s.incoming = true)
    (hbudget : s.incoming.length < budget) : LegallyRead net ws marked s := by
  induction budget generalizing marked s with
  | zero => exact absurd hbudget (Nat.not_lt_zero _)
  | succ budget ih =>
    rw [readsLegallyFor] at h
    rcases readBody_cases net ws s with ⟨r, hends, hall⟩ | ⟨t, f, hfront, hgoes, hagain⟩
    · -- The call ends at the frame at the front, or before it.
      cases hends with
      | stops hstop => exact quits_of_stops hstop hall marked
      | @closed t payload hsize hout =>
        have hread : (ws.read net).run s = (.done none, t) := read_of_ends hall
        refine .quits (fun _ => not_callsAgain hall) (Or.inl (congrArg Prod.fst hread)) ?_
        refine ⟨[⟨.close, ⟨payload, by omega⟩⟩], ?_, List.forall_mem_singleton.mpr ⟨rfl, ?_⟩⟩
        · rw [hread, hout, List.flatMap_singleton]
          rfl
        · exact ⟨fun _ => show payload.length ≤ 125 by omega,
            fun _ => show payload.length ≠ 1 by omega⟩
      | @delivered t f rest hfront hping hclose hpong hdata hout =>
        have hread : (ws.read net).run s = (.done (some ⟨f.op, f.payload⟩), t) := read_of_ends hall
        rw [hfront] at h
        simp only [if_neg hping, if_neg hclose, if_neg hpong, if_neg hdata, Bool.not_eq_true',
          Bool.or_eq_false_iff] at h
        obtain ⟨rfl, hlegal⟩ := h
        obtain ⟨hcontinuation, hfin⟩ := not_or.mp hdata
        exact .delivers (fun _ => not_callsAgain hall) hfront hlegal (Bool.not_eq_false _ ▸ hfin)
          (f.op_of_legal hlegal hping hclose hpong hcontinuation) hread hout
    · -- A ping or a pong is behind, and the budget is enough for what is left.
      have hlt := length_lt_of_frontFrame hfront
      rw [hfront] at h
      rcases hgoes with ⟨hping, hout⟩ | ⟨hpong, hout⟩
      · simp only [if_pos hping, Bool.and_eq_true, Bool.not_eq_true', Bool.or_eq_false_iff] at h
        obtain ⟨⟨rfl, hlegal⟩, hrest⟩ := h
        rw [hlegal] at hrest
        exact .answers hfront hlegal hping hagain hout (ih hrest (by omega))
      · have hpong' : f.op ≠ .ping ∧ f.op ≠ .close := by
          rw [hpong]
          decide
        simp only [if_neg hpong'.1, if_neg hpong'.2, if_pos hpong] at h
        exact .skips hfront hagain hout (ih h (by omega))

namespace LegallyRead

variable {marked : Bool}

/-- Behind an illegal frame a call returns `nullopt` and sends no pong. -/
theorem rejected (h : LegallyRead net ws marked s) (hmarked : marked = true) :
    Rejected net ws s := by
  induction h with
  | quits hends hresult hemits =>
    refine ⟨hresult, hemits.mono fun frames hframes f hf => ?_⟩
    rw [(hframes f hf).1]
    decide
  | delivers => exact absurd hmarked Bool.false_ne_true
  | answers => exact absurd hmarked Bool.false_ne_true
  | skips hfront hagain hout hrest ih =>
    exact (rejected_iff_of_callsAgain hagain hout).mpr (ih (by rw [hmarked, Bool.true_or]))

/-- So does every call that starts on an illegal frame. -/
theorem rejects (h : LegallyRead net ws marked s) :
    ∀ t, Relation.ReflTransGen (CallsAgain net ws) s t → illegalFront t.incoming = true →
      Rejected net ws t := by
  induction h with
  | quits hends hresult hemits =>
    intro t hreach _
    rcases hreach.cases_head with rfl | ⟨t', hagain, -⟩
    · exact rejected (.quits hends hresult hemits) rfl
    · exact absurd hagain (hends t')
  | delivers hends hfront hlegal =>
    intro t hreach hillegal
    rcases hreach.cases_head with rfl | ⟨t', hagain, -⟩
    · rw [illegalFront_of_frontFrame hfront, hlegal] at hillegal
      exact absurd hillegal Bool.false_ne_true
    · exact absurd hagain (hends t')
  | answers hfront hlegal hop hagain hout hrest ih =>
    intro t hreach hillegal
    rcases hreach.cases_head with rfl | ⟨t', hagain', hreach⟩
    · rw [illegalFront_of_frontFrame hfront, hlegal] at hillegal
      exact absurd hillegal Bool.false_ne_true
    · obtain rfl := hagain.unique hagain'
      exact ih t hreach hillegal
  | skips hfront hagain hout hrest ih =>
    intro t hreach hillegal
    rcases hreach.cases_head with rfl | ⟨t', hagain', hreach⟩
    · -- The pong itself is illegal, and marks what is behind it.
      rw [illegalFront_of_frontFrame hfront] at hillegal
      apply (rejected_iff_of_callsAgain hagain hout).mpr
      exact hrest.rejected (by rw [hillegal, Bool.or_true])
    · obtain rfl := hagain.unique hagain'
      exact ih t hreach hillegal

/-- What is returned is a complete text or binary message. -/
theorem message (h : LegallyRead net ws marked s) {msg : WsMessage} {s' : Socket}
    (hread : (ws.read net).run s = (.done (some msg), s')) :
    ∃ t f rest, Relation.ReflTransGen (CallsAgain net ws) s t ∧
      frontFrame ws t.incoming = some (f, rest) ∧ f.fin = true ∧
      (f.op = .text ∨ f.op = .binary) ∧ msg = ⟨f.op, f.payload⟩ := by
  induction h with
  | quits hends hresult hemits =>
    rw [hread] at hresult
    rcases hresult with hdone | ⟨hhang, -⟩
    · exact absurd hdone (by simp)
    · exact absurd hhang (by simp)
  | @delivers s t f rest hends hfront hlegal hfin hop hdone hout =>
    obtain ⟨hmsg, -⟩ := Prod.mk.inj (hread.symm.trans hdone)
    exact ⟨s, f, rest, .refl, hfront, hfin, hop, Option.some.inj (IoResult.done.inj hmsg)⟩
  | answers hfront hlegal hop hagain hout hrest ih =>
    obtain ⟨t', f, rest, hreach, hmessage⟩ := ih ((read_of_callsAgain hagain).symm.trans hread)
    exact ⟨t', f, rest, hreach.head hagain, hmessage⟩
  | skips hfront hagain hout hrest ih =>
    obtain ⟨t', f, rest, hreach, hmessage⟩ := ih ((read_of_callsAgain hagain).symm.trans hread)
    exact ⟨t', f, rest, hreach.head hagain, hmessage⟩

/-- What is answered is legal. -/
theorem replies (h : LegallyRead net ws marked s) :
    Emits (fun frames => ∀ f ∈ frames, f.Legal) (ws.read net) s := by
  induction h with
  | quits hends hresult hemits => exact hemits.mono fun frames hframes f hf => (hframes f hf).2
  | delivers hends hfront hlegal hfin hop hread hout =>
    exact .of_outgoing_eq ((congrArg (fun r => r.2.outgoing) hread).trans hout) (by simp)
  | @answers s t f hfront hlegal hop hagain hout hrest ih =>
    -- The pong has the payload of the ping, in front of the other answers.
    have hshort := f.length_of_legal hlegal hop
    obtain ⟨frames, hframes, hall⟩ := ih
    refine ⟨⟨.pong, ⟨f.payload, by omega⟩⟩ :: frames, ?_, ?_⟩
    · rw [read_of_callsAgain hagain, hframes, hout, List.flatMap_cons, List.append_assoc]
      rfl
    · exact List.forall_mem_cons.mpr ⟨⟨fun _ => hshort, fun hclose => by cases hclose⟩, hall⟩
  | skips hfront hagain hout hrest ih => exact (emits_iff_of_callsAgain hagain hout).mpr ih

end LegallyRead

/-! ### Streams that are not -/

/-- A call that has sent a pong does not reject. -/
theorem not_rejected_of_pong (hmax : ws.maxMessageSize < 2 ^ 64) {payload : Bytes}
    (hsize : payload.length < 2 ^ 64) (hagain : CallsAgain net ws s t)
    (hout : t.outgoing = s.outgoing ++ writtenFrame .pong payload) : ¬ Rejected net ws s := by
  rintro ⟨-, frames, hframes, hnone⟩
  -- The frames of the call are the pong and the frames of the call inside it.
  have hemits : Emits CloseLast (ws.readFrames net (t.incoming.length + 1)) t :=
    emits_readFrames hmax _ t
  obtain ⟨frames', hframes', -⟩ := hemits
  have hread : (ws.read net).run t = (ws.readFrames net (t.incoming.length + 1)).run t := rfl
  have hpong : writtenFrame .pong payload =
      ServerFrame.bytes ⟨.pong, ⟨payload, hsize⟩⟩ := rfl
  rw [read_of_callsAgain hagain, hread, hframes', hout, hpong, List.append_assoc,
    ← List.flatMap_cons, List.append_right_inj] at hframes
  obtain rfl := isPrefixCode_bytes.flatMap_injective hframes
  exact hnone _ List.mem_cons_self rfl

/-- Nor has one that delivers a message. -/
theorem not_rejected_of_read {msg : WsMessage}
    (hread : (ws.read net).run s = (.done (some msg), t)) : ¬ Rejected net ws s := by
  rintro ⟨hdone | ⟨hhang, -⟩, -⟩
  · rw [hread] at hdone
    exact absurd hdone (by simp)
  · rw [hread] at hhang
    exact absurd hhang (by simp)

section Calm

variable {f : WireFrame} {rest : Bytes}

/-- On a calm network a ping is answered, and the call inside starts behind it. -/
theorem exists_callsAgain_of_ping (hcalm : net.Calm)
    (hfront : frontFrame ws s.incoming = some (f, rest)) (hping : f.op = .ping) :
    ∃ t, CallsAgain net ws s t ∧ t.incoming = rest ∧
      t.outgoing = s.outgoing ++ writtenFrame .pong f.payload := by
  obtain ⟨now, hbody⟩ := run_readBody_of_frontFrame hcalm hfront
  obtain ⟨t, hwrite, hin, hout⟩ : ∃ t, (WebSocket.writeFrame net .pong f.payload).run
      { s with incoming := rest, now := now } = (.done (), t) ∧ t.incoming = rest ∧
      t.outgoing = s.outgoing ++ writtenFrame .pong f.payload :=
    ⟨_, run_asyncWrite hcalm _ _, rfl, rfl⟩
  refine ⟨t, fun again => ?_, hin, hout⟩
  rw [hbody, WebSocket.handleFrame, if_pos hping]
  exact Awaitable.run_bind_of_done hwrite

/-- A pong is skipped. -/
theorem exists_callsAgain_of_pong (hcalm : net.Calm)
    (hfront : frontFrame ws s.incoming = some (f, rest)) (hpong : f.op = .pong) :
    ∃ t, CallsAgain net ws s t ∧ t.incoming = rest ∧ t.outgoing = s.outgoing := by
  obtain ⟨now, hbody⟩ := run_readBody_of_frontFrame hcalm hfront
  refine ⟨{ s with incoming := rest, now := now }, fun again => ?_, rfl, rfl⟩
  rw [hbody, hpong]
  rfl

/-- A frame that is neither a control frame nor part of a fragmented message is delivered. -/
theorem exists_read_of_frontFrame (hcalm : net.Calm)
    (hfront : frontFrame ws s.incoming = some (f, rest)) (hping : f.op ≠ .ping)
    (hclose : f.op ≠ .close) (hpong : f.op ≠ .pong)
    (hdata : ¬ (f.op = .continuation ∨ f.fin = false)) :
    ∃ t, (ws.read net).run s = (.done (some ⟨f.op, f.payload⟩), t) := by
  obtain ⟨now, hbody⟩ := run_readBody_of_frontFrame hcalm hfront
  refine ⟨{ s with incoming := rest, now := now }, ?_⟩
  have hagain := hbody (ws.readFrames net s.incoming.length)
  rw [WebSocket.handleFrame, if_neg hping, if_neg hclose, if_neg hpong, if_neg hdata] at hagain
  exact Awaitable.run_catching_of_done hagain

end Calm

/-- On a calm network a stream is read legally if every call that starts on an illegal frame rejects
it, and the call itself does if it is marked. The cases are those of `readsLegallyFor`. -/
theorem readsLegallyFor_of_rejects (hmax : ws.maxMessageSize < 2 ^ 64) (hcalm : net.Calm)
    (budget : ℕ) {marked : Bool} (hmarked : marked = true → Rejected net ws s)
    (h : ∀ t, Relation.ReflTransGen (CallsAgain net ws) s t → illegalFront t.incoming = true →
      Rejected net ws t) : readsLegallyFor ws budget marked s.incoming = true := by
  induction budget generalizing marked s with
  | zero => rfl
  | succ budget ih =>
    rw [readsLegallyFor]
    cases hfront : frontFrame ws s.incoming with
    | none => rfl
    | some p =>
      obtain ⟨f, rest⟩ := p
      have hillegal : (marked || f.illegal) = true → Rejected net ws s := by
        intro hor
        rcases Bool.or_eq_true_iff.mp hor with hm | hf
        · exact hmarked hm
        · exact h s .refl ((illegalFront_of_frontFrame hfront).trans hf)
      simp only
      by_cases hping : f.op = .ping
      · -- The ping is answered, so that it is legal.
        obtain ⟨t, hagain, rfl, hout⟩ := exists_callsAgain_of_ping hcalm hfront hping
        have hpayload : f.payload.length < 2 ^ 64 :=
          (length_payload_le_of_frontFrame hfront).trans_lt hmax
        have hlegal : (marked || f.illegal) = false := by
          rw [← Bool.not_eq_true]
          exact fun hor => not_rejected_of_pong hmax hpayload hagain hout (hillegal hor)
        rw [if_pos hping, hlegal]
        exact ih (fun hfalse => absurd hfalse Bool.false_ne_true)
          fun t' hreach => h t' (hreach.head hagain)
      rw [if_neg hping]
      by_cases hclose : f.op = .close
      · rw [if_pos hclose]
      rw [if_neg hclose]
      by_cases hpong : f.op = .pong
      · -- The pong is skipped, and marks the call inside if it is illegal.
        obtain ⟨t, hagain, rfl, hout⟩ := exists_callsAgain_of_pong hcalm hfront hpong
        rw [if_pos hpong]
        exact ih (fun hor => (rejected_iff_of_callsAgain hagain hout).mp (hillegal hor))
          fun t' hreach => h t' (hreach.head hagain)
      rw [if_neg hpong]
      by_cases hdata : f.op = .continuation ∨ f.fin = false
      · rw [if_pos hdata]
      -- Any other frame is delivered, so that it is legal.
      obtain ⟨t, hread⟩ := exists_read_of_frontFrame hcalm hfront hping hclose hpong hdata
      rw [if_neg hdata, Bool.not_eq_true', ← Bool.not_eq_true]
      exact fun hor => not_rejected_of_read hread (hillegal hor)

theorem readsLegally_of_acceptsOnlyLegal (hmax : ws.maxMessageSize < 2 ^ 64) (hcalm : net.Calm)
    (h : AcceptsOnlyLegal net ws s) : readsLegally ws s.incoming = true :=
  readsLegallyFor_of_rejects hmax hcalm _ (fun hfalse => absurd hfalse Bool.false_ne_true)
    h.rejects

/-- Exactly when a call of `read` accepts only legal frames on every network: the frames at the
front are legal where it matters. -/
theorem acceptsOnlyLegal_iff (hmax : ws.maxMessageSize < 2 ^ 64) (s : Socket) :
    (∀ net, AcceptsOnlyLegal net ws s) ↔ readsLegally ws s.incoming = true := by
  constructor
  · intro h
    exact readsLegally_of_acceptsOnlyLegal hmax (fun _ => ⟨1, rfl⟩) (h fun _ => .ready 1)
  · intro h net
    have hread : LegallyRead net ws false s :=
      legallyRead_of_readsLegallyFor h (Nat.lt_succ_self _)
    exact ⟨hread.rejects, fun msg s' => hread.message, hread.replies⟩

/-- A masked greeting. -/
theorem acceptsOnlyLegal_greeting :
    readsLegally {} [0x81, 0x82, 0, 0, 0, 0, 104, 105] = true ∧
      ∀ net, AcceptsOnlyLegal net {} ⟨[0x81, 0x82, 0, 0, 0, 0, 104, 105], [], 0⟩ := by
  have hlegal : readsLegally {} [0x81, 0x82, 0, 0, 0, 0, 104, 105] = true := by decide
  exact ⟨hlegal, (acceptsOnlyLegal_iff (by decide)
    ⟨[0x81, 0x82, 0, 0, 0, 0, 104, 105], [], 0⟩).mpr hlegal⟩

/-- Streams with an illegal frame: a reserved opcode, a reserved bit, no mask, a fragment of a ping,
a ping of 126 bytes, and a pong with a reserved bit in front of a ping. -/
def illegalSamples : List Bytes :=
  [[0x83, 0x80, 0, 0, 0, 0], [0xC1, 0x80, 0, 0, 0, 0], [0x81, 0x00], [0x09, 0x80, 0, 0, 0, 0],
    [0x89, 0xFE, 0, 126, 0, 0, 0, 0] ++ List.replicate 126 0,
    [0xCA, 0x80, 0, 0, 0, 0, 0x89, 0x80, 0, 0, 0, 0]]

/-- None of these frames is rejected. -/
theorem not_acceptsOnlyLegal_samples :
    (¬ ∀ (net : Network) (ws : WebSocket) (s : Socket), ws.maxMessageSize < 2 ^ 64 →
        AcceptsOnlyLegal net ws s) ∧
      ∀ incoming ∈ illegalSamples,
        ¬ AcceptsOnlyLegal (fun _ => .ready 1) {} ⟨incoming, [], 0⟩ := by
  have hsamples : ∀ incoming ∈ illegalSamples,
      ¬ AcceptsOnlyLegal (fun _ => .ready 1) {} ⟨incoming, [], 0⟩ := by
    have hrun : illegalSamples.all (fun incoming => !readsLegally {} incoming) = true := by
      decide +kernel
    intro incoming hincoming h
    have hlegal := readsLegally_of_acceptsOnlyLegal (by decide) (fun _ => ⟨1, rfl⟩) h
    have hno := List.all_eq_true.mp hrun incoming hincoming
    rw [hlegal] at hno
    exact absurd hno (by decide)
  exact ⟨fun h => hsamples _ List.mem_cons_self (h _ {} _ (by decide)), hsamples⟩

end Lundi
