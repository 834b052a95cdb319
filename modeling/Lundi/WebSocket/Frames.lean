import Lundi.Engine.Socket
import Lundi.Lib.BigEndian
import Lundi.WebSocket.Connection

/-!
# WebSocket frames

The frame at the front of a byte stream, as the reader takes it apart, and the frames that the
server writes.

* `readLength_sound`, `readPayload_sound`, `run_readLength`, `run_readPayload`: the parts of a frame
  that are read are those at the front of the pending bytes;
* `run_readBody_of_frontFrame`: one frame is read, up to the decision what to do with it;
* `read_writeFrame`: a text or binary frame that the server writes is read back, also when it is
  masked on the way.
-/

namespace Lundi

open BigEndian

/-- The length of the payload, and what stands behind the length. -/
def payloadLength (header1 : UInt8) (rest : Bytes) : Option (ℕ × Bytes) :=
  let len := (header1 &&& 0x7F).toNat
  if len = 126 then
    if 2 ≤ rest.length then some (extendedLength (rest.take 2), rest.drop 2) else none
  else if len = 127 then
    if 8 ≤ rest.length then some (extendedLength (rest.take 8), rest.drop 8) else none
  else some (len, rest)

/-- The payload behind the length, without the mask whose key stands in front of it. -/
def payloadOf (masked : Bool) (len : ℕ) (rest : Bytes) : Bytes :=
  if masked then applyMask (rest.take 4) ((rest.drop 4).take len) else rest.take len

/-- A frame that has been read: its two header bytes and its payload. -/
structure WireFrame where
  header0 : UInt8
  header1 : UInt8
  payload : Bytes
  deriving DecidableEq

/-- The opcode. -/
def WireFrame.op (f : WireFrame) : WsOpcode := .ofCode (f.header0 &&& 0x0F)

/-- The FIN bit. -/
def WireFrame.fin (f : WireFrame) : Bool := f.header0 &&& 0x80 != 0

/-- The frame at the front, if it is complete and not too long, and what stands behind it. -/
def frontFrame (ws : WebSocket) (incoming : Bytes) : Option (WireFrame × Bytes) :=
  if incoming.length < 2 then none
  else
    let header0 := incoming.getD 0 0
    let header1 := incoming.getD 1 0
    match payloadLength header1 (incoming.drop 2) with
    | none => none
    | some (len, rest) =>
      let masked := header1 &&& 0x80 != 0
      let size := (if masked then 4 else 0) + len
      if len > ws.maxMessageSize ∨ rest.length < size then none
      else some (⟨header0, header1, payloadOf masked len rest⟩, rest.drop size)

/-! ### Lengths and masks -/

/-- The extended length is read as the big-endian number it is. -/
theorem extendedLength_eq {ext : Bytes} (h : ext.length ≤ 8) :
    extendedLength ext = fromBigEndian ext := by
  induction ext using List.reverseRecOn with
  | nil => rfl
  | append_singleton ext b ih =>
    have hb := b.toNat_lt
    rw [List.length_append, List.length_singleton] at h
    -- The bytes before the last one leave eight bits of the counter free.
    have hsmall : fromBigEndian ext < 256 ^ 7 :=
      (fromBigEndian_lt ext).trans_le (Nat.pow_le_pow_right (by omega) (by omega))
    have hstep : extendedLength (ext ++ [b]) =
        (extendedLength ext <<< 8) % 2 ^ 64 ||| b.toNat := by
      simp [extendedLength]
    rw [hstep, ih (by omega), fromBigEndian_append_singleton,
      Nat.mod_eq_of_lt (by rw [Nat.shiftLeft_eq]; omega),
      ← Nat.shiftLeft_add_eq_or_of_lt hb, Nat.shiftLeft_eq]

/-- A length below 126 is its own code. -/
theorem payloadLength_seven {header1 : UInt8} {n : ℕ} (hcode : (header1 &&& 0x7F).toNat = n)
    (hn : n < 126) (rest : Bytes) : payloadLength header1 rest = some (n, rest) := by
  rw [payloadLength]
  simp only [hcode]
  rw [if_neg (by omega), if_neg (by omega)]

/-- The code 126 announces two bytes. -/
theorem payloadLength_sixteen {header1 : UInt8} {n : ℕ} (hcode : (header1 &&& 0x7F).toNat = 126)
    (hn : n < 2 ^ 16) (rest : Bytes) :
    payloadLength header1 (bigEndian 2 n ++ rest) = some (n, rest) := by
  rw [payloadLength]
  simp only [hcode, if_true]
  rw [if_pos (by simp), List.take_left' (length_bigEndian 2 n),
    List.drop_left' (length_bigEndian 2 n), extendedLength_eq (by simp), fromBigEndian_bigEndian hn]

/-- The code 127 announces eight. -/
theorem payloadLength_sixtyFour {header1 : UInt8} {n : ℕ}
    (hcode : (header1 &&& 0x7F).toNat = 127) (hn : n < 2 ^ 64) (rest : Bytes) :
    payloadLength header1 (bigEndian 8 n ++ rest) = some (n, rest) := by
  rw [payloadLength]
  simp only [hcode, show ¬ (127 : ℕ) = 126 by decide, if_true, if_false]
  rw [if_pos (by simp), List.take_left' (length_bigEndian 8 n),
    List.drop_left' (length_bigEndian 8 n), extendedLength_eq (by simp), fromBigEndian_bigEndian hn]

/-- The masking of RFC 6455. -/
def masked (maskKey payload : Bytes) : Bytes :=
  payload.mapIdx fun i b => b ^^^ maskKey.getD (i % 4) 0

/-- Unmasking inverts masking. -/
theorem applyMask_masked (maskKey payload : Bytes) :
    applyMask maskKey (masked maskKey payload) = payload := by
  -- The code takes the index modulo four by its two lowest bits.
  have hand : ∀ i : ℕ, i &&& 3 = i % 4 := fun i => Nat.and_two_pow_sub_one_eq_mod i 2
  refine List.ext_getElem (by simp [applyMask, masked]) fun i hi hi' => ?_
  simp only [applyMask, masked, hand, List.getElem_mapIdx]
  rw [UInt8.xor_assoc, UInt8.xor_self, UInt8.xor_zero]

theorem length_payloadOf {masked : Bool} {len : ℕ} {rest : Bytes}
    (h : (if masked then 4 else 0) + len ≤ rest.length) :
    (payloadOf masked len rest).length = len := by
  cases masked with
  | true =>
    simp only [if_true] at h
    rw [payloadOf, if_pos rfl, applyMask, List.length_mapIdx, List.length_take, List.length_drop]
    omega
  | false =>
    simp only [Bool.false_eq_true, if_false] at h
    rw [payloadOf, if_neg (by simp), List.length_take]
    omega

/-- A payload that is not masked. -/
theorem payloadOf_false (payload rest : Bytes) :
    payloadOf false payload.length (payload ++ rest) = payload := by
  rw [payloadOf, if_neg (by simp), List.take_left]

/-- A masked payload behind its key. -/
theorem payloadOf_true {maskKey : Bytes} (hkey : maskKey.length = 4) (payload rest : Bytes) :
    payloadOf true payload.length (maskKey ++ (masked maskKey payload ++ rest)) = payload := by
  rw [payloadOf, if_pos rfl, List.take_left' hkey, List.drop_left' hkey,
    List.take_left' (by simp [masked]), applyMask_masked]

/-- The first length byte: its mask bit, and its other bits. -/
theorem lengthByte_spec {n : ℕ} (h : n < 128) :
    ((0x80 ||| UInt8.ofNat n) &&& 0x80 != 0) = true ∧
      ((0x80 ||| UInt8.ofNat n) &&& 0x7F).toNat = n := by
  have hall : ∀ i : Fin 128, ((0x80 ||| UInt8.ofNat i) &&& 0x80 != 0) = true ∧
      ((0x80 ||| UInt8.ofNat i) &&& 0x7F).toNat = i := by decide
  exact hall ⟨n, h⟩

/-- The header bytes say how the frame at the front is cut out. -/
theorem frontFrame_of_payloadLength {ws : WebSocket} {header0 header1 : UInt8} {tail rest : Bytes}
    {len : ℕ} (hlen : payloadLength header1 tail = some (len, rest)) (hle : len ≤ ws.maxMessageSize)
    (hsize : (if header1 &&& 0x80 != 0 then 4 else 0) + len ≤ rest.length) :
    frontFrame ws (header0 :: header1 :: tail) =
      some (⟨header0, header1, payloadOf (header1 &&& 0x80 != 0) len rest⟩,
        rest.drop ((if header1 &&& 0x80 != 0 then 4 else 0) + len)) := by
  rw [frontFrame, if_neg (by simp)]
  simp only [List.getD_cons_zero, List.getD_cons_succ, List.drop_succ_cons, List.drop_zero, hlen]
  rw [if_neg (by omega)]

/-- The parts of the frame at the front. -/
theorem exists_of_frontFrame {ws : WebSocket} {incoming rest : Bytes} {f : WireFrame}
    (h : frontFrame ws incoming = some (f, rest)) :
    ∃ header0 header1 tail len behind, incoming = header0 :: header1 :: tail ∧
      payloadLength header1 tail = some (len, behind) ∧ len ≤ ws.maxMessageSize ∧
      (if header1 &&& 0x80 != 0 then 4 else 0) + len ≤ behind.length ∧
      f = ⟨header0, header1, payloadOf (header1 &&& 0x80 != 0) len behind⟩ ∧
      rest = behind.drop ((if header1 &&& 0x80 != 0 then 4 else 0) + len) := by
  match incoming with
  | [] => cases h
  | [_] => cases h
  | header0 :: header1 :: tail =>
    rw [frontFrame, if_neg (by simp)] at h
    simp only [List.getD_cons_zero, List.getD_cons_succ, List.drop_succ_cons, List.drop_zero] at h
    cases hlen : payloadLength header1 tail with
    | none =>
      rw [hlen] at h
      cases h
    | some p =>
      obtain ⟨len, behind⟩ := p
      simp only [hlen] at h
      -- A frame that is too long, or not there as a whole, is not at the front.
      by_cases hfits : len > ws.maxMessageSize ∨
          behind.length < (if header1 &&& 0x80 != 0 then 4 else 0) + len
      · rw [if_pos hfits] at h
        cases h
      · rw [if_neg hfits] at h
        obtain ⟨rfl, rfl⟩ := Prod.mk.inj (Option.some.inj h)
        obtain ⟨hle, hsize⟩ := not_or.mp hfits
        exact ⟨header0, header1, tail, len, behind, rfl, hlen, not_lt.mp hle, not_lt.mp hsize,
          rfl, rfl⟩

theorem length_payload_le_of_frontFrame {ws : WebSocket} {incoming rest : Bytes} {f : WireFrame}
    (h : frontFrame ws incoming = some (f, rest)) : f.payload.length ≤ ws.maxMessageSize := by
  obtain ⟨header0, header1, tail, len, behind, -, -, hle, hsize, rfl, -⟩ := exists_of_frontFrame h
  rwa [length_payloadOf hsize]

theorem length_le_of_payloadLength {header1 : UInt8} {tail rest : Bytes} {len : ℕ}
    (h : payloadLength header1 tail = some (len, rest)) : rest.length ≤ tail.length := by
  unfold payloadLength at h
  simp only at h
  split_ifs at h
  all_goals obtain ⟨-, rfl⟩ := Prod.mk.inj (Option.some.inj h)
  · rw [List.length_drop]
    omega
  · rw [List.length_drop]
    omega
  · exact le_rfl

/-- A frame has two bytes at least. -/
theorem length_lt_of_frontFrame {ws : WebSocket} {incoming rest : Bytes} {f : WireFrame}
    (h : frontFrame ws incoming = some (f, rest)) : rest.length < incoming.length := by
  obtain ⟨header0, header1, tail, len, behind, rfl, hlen, -, -, -, rfl⟩ := exists_of_frontFrame h
  have hbehind := length_le_of_payloadLength hlen
  rw [List.length_drop, List.length_cons, List.length_cons]
  omega

/-! ### Reading one frame -/

section Read

variable {net : Network} {ws : WebSocket} {s s' : Socket}

/-- Two steps that write nothing. -/
theorem outgoing_bind {α β : Type} {x : Awaitable α} {f : α → Awaitable β}
    (hx : (x.run s).2.outgoing = s.outgoing)
    (hf : ∀ a t, ((f a).run t).2.outgoing = t.outgoing) :
    ((x >>= f).run s).2.outgoing = s.outgoing := by
  rw [Awaitable.run_bind]
  split
  next a t hrun =>
    rw [hrun] at hx
    exact (hf a t).trans hx
  next e t hrun =>
    rw [hrun] at hx
    exact hx
  next t hrun =>
    rw [hrun] at hx
    exact hx

theorem outgoing_readLength (net : Network) (header1 : UInt8) (s : Socket) :
    ((WebSocket.readLength net header1).run s).2.outgoing = s.outgoing := by
  unfold WebSocket.readLength
  simp only
  split
  · exact outgoing_bind (outgoing_asyncRead net 2 s) fun _ _ => rfl
  · split
    · exact outgoing_bind (outgoing_asyncRead net 8 s) fun _ _ => rfl
    · rfl

/-- The mask key, the payload and the unmasking as three steps. -/
theorem readPayload_eq (net : Network) (masked : Bool) (len : ℕ) :
    WebSocket.readPayload net masked len =
      (if masked then asyncRead net 4 else pure [0, 0, 0, 0]) >>= fun maskKey =>
        (if len > 0 then asyncRead net len else pure []) >>= fun payload =>
          pure (if masked then applyMask maskKey payload else payload) := by
  unfold WebSocket.readPayload
  by_cases hpos : len > 0
  · simp only [if_pos hpos]
    cases masked <;> rfl
  · simp only [if_neg hpos]
    cases masked <;> rfl

theorem outgoing_readPayload (net : Network) (masked : Bool) (len : ℕ) (s : Socket) :
    ((WebSocket.readPayload net masked len).run s).2.outgoing = s.outgoing := by
  rw [readPayload_eq]
  refine outgoing_bind ?_ fun maskKey t => outgoing_bind ?_ fun _ _ => rfl
  · split
    · exact outgoing_asyncRead net 4 s
    · rfl
  · split
    · exact outgoing_asyncRead net len t
    · rfl

/-- The length that is read is the one in the pending bytes. -/
theorem readLength_sound {header1 : UInt8} {len : ℕ}
    (h : (WebSocket.readLength net header1).run s = (.done len, s')) :
    payloadLength header1 s.incoming = some (len, s'.incoming) := by
  -- An extended length is read with one operation, which delivers all of it.
  have hext : ∀ {count : ℕ}, (asyncRead net count >>= fun ext =>
      (pure (extendedLength ext) : Awaitable ℕ)).run s = (.done len, s') →
      count ≤ s.incoming.length ∧ extendedLength (s.incoming.take count) = len ∧
        s.incoming.drop count = s'.incoming := by
    intro count hrun
    rw [Awaitable.run_bind_eq_done_iff] at hrun
    obtain ⟨ext, t, hread, hpure⟩ := hrun
    obtain ⟨hlen, rfl⟩ := Prod.mk.inj hpure
    obtain ⟨hin, rfl, -⟩ := asyncRead_sound hread
    rw [hin, List.take_left, List.drop_left, List.length_append]
    exact ⟨Nat.le_add_right _ _, IoResult.done.inj hlen, rfl⟩
  unfold WebSocket.readLength at h
  simp only at h
  unfold payloadLength
  simp only
  split at h
  next htwo =>
    obtain ⟨hle, hlen, hrest⟩ := hext h
    rw [if_pos htwo, if_pos hle, hlen, hrest]
  next htwo =>
    split at h
    next height =>
      obtain ⟨hle, hlen, hrest⟩ := hext h
      rw [if_neg htwo, if_pos height, if_pos hle, hlen, hrest]
    next height =>
      obtain ⟨hlen, rfl⟩ := Prod.mk.inj h
      rw [if_neg htwo, if_neg height, IoResult.done.inj hlen]

/-- The payload that is read is the one in the pending bytes. -/
theorem readPayload_sound {masked : Bool} {len : ℕ} {payload : Bytes}
    (h : (WebSocket.readPayload net masked len).run s = (.done payload, s')) :
    payload = payloadOf masked len s.incoming ∧
      (if masked then 4 else 0) + len ≤ s.incoming.length ∧
      s'.incoming = s.incoming.drop ((if masked then 4 else 0) + len) := by
  rw [readPayload_eq, Awaitable.run_bind_eq_done_iff] at h
  obtain ⟨maskKey, t, hkey, h⟩ := h
  rw [Awaitable.run_bind_eq_done_iff] at h
  obtain ⟨raw, t', hraw, h⟩ := h
  obtain ⟨hpayload, rfl⟩ := Prod.mk.inj h
  -- First the mask key, if there is one, and behind it the payload.
  have hmask : (masked = true → maskKey = s.incoming.take 4) ∧
      (if masked then 4 else 0) ≤ s.incoming.length ∧
      t.incoming = s.incoming.drop (if masked then 4 else 0) := by
    split at hkey
    next hmasked =>
      obtain ⟨hin, hlen, -⟩ := asyncRead_sound hkey
      rw [if_pos hmasked, hin, List.length_append, ← hlen, List.drop_left, List.take_left]
      exact ⟨fun _ => rfl, Nat.le_add_right _ _, rfl⟩
    next hmasked =>
      obtain ⟨-, rfl⟩ := Prod.mk.inj hkey
      rw [if_neg hmasked]
      exact ⟨fun h => absurd h hmasked, Nat.zero_le _, rfl⟩
  have hbody : raw = t.incoming.take len ∧ len ≤ t.incoming.length ∧
      t'.incoming = t.incoming.drop len := by
    split at hraw
    next hpos =>
      obtain ⟨hin, hlen, -⟩ := asyncRead_sound hraw
      rw [hin, List.length_append, ← hlen, List.drop_left, List.take_left]
      exact ⟨rfl, Nat.le_add_right _ _, rfl⟩
    next hpos =>
      -- An empty payload is not read at all.
      obtain ⟨hnil, rfl⟩ := Prod.mk.inj hraw
      obtain rfl := IoResult.done.inj hnil
      obtain rfl : len = 0 := Nat.eq_zero_of_not_pos hpos
      exact ⟨rfl, Nat.zero_le _, rfl⟩
  obtain ⟨hmaskKey, hmaskLe, hmaskRest⟩ := hmask
  obtain ⟨hraw, hle, hrest⟩ := hbody
  rw [hmaskRest] at hraw hle hrest
  rw [List.length_drop] at hle
  refine ⟨?_, by omega, ?_⟩
  · rw [← IoResult.done.inj hpayload, payloadOf]
    split
    next hmasked => rw [hraw, hmaskKey hmasked, if_pos hmasked]
    next hmasked => rw [hraw, if_neg hmasked, List.drop_zero]
  · rw [hrest, List.drop_drop]

/-- On a calm network the length at the front is read. -/
theorem run_readLength (hcalm : net.Calm) {header1 : UInt8} {len : ℕ} {rest : Bytes}
    (h : payloadLength header1 s.incoming = some (len, rest)) :
    ∃ t, (WebSocket.readLength net header1).run s =
      (.done len, { s with incoming := rest, now := t }) := by
  have hext : ∀ {count : ℕ}, count ≤ s.incoming.length →
      (asyncRead net count >>= fun ext => (pure (extendedLength ext) : Awaitable ℕ)).run s =
        (.done (extendedLength (s.incoming.take count)),
          { s with incoming := s.incoming.drop count, now := s.now + 1 }) := by
    intro count hcount
    rw [Awaitable.run_bind_of_done (run_asyncRead hcalm (List.take_append_drop count _).symm
      (List.length_take_of_le hcount))]
    rfl
  unfold WebSocket.readLength
  rw [payloadLength] at h
  simp only at h ⊢
  -- Two further bytes, eight, or none.
  split at h
  next htwo =>
    split at h
    next hle =>
      obtain ⟨rfl, rfl⟩ := Prod.mk.inj (Option.some.inj h)
      rw [if_pos htwo]
      exact ⟨_, hext hle⟩
    next => cases h
  next htwo =>
    rw [if_neg htwo]
    split at h
    next height =>
      split at h
      next hle =>
        obtain ⟨rfl, rfl⟩ := Prod.mk.inj (Option.some.inj h)
        rw [if_pos height]
        exact ⟨_, hext hle⟩
      next => cases h
    next height =>
      obtain ⟨rfl, rfl⟩ := Prod.mk.inj (Option.some.inj h)
      rw [if_neg height]
      exact ⟨s.now, rfl⟩

/-- On a calm network the payload at the front is read. -/
theorem run_readPayload (hcalm : net.Calm) (masked : Bool) {len : ℕ}
    (h : (if masked then 4 else 0) + len ≤ s.incoming.length) :
    ∃ t, (WebSocket.readPayload net masked len).run s = (.done (payloadOf masked len s.incoming),
      { s with incoming := s.incoming.drop ((if masked then 4 else 0) + len), now := t }) := by
  have hread : ∀ {count : ℕ} (s : Socket), count ≤ s.incoming.length →
      (asyncRead net count).run s = (.done (s.incoming.take count),
        { s with incoming := s.incoming.drop count, now := s.now + 1 }) :=
    fun s hcount => run_asyncRead hcalm (List.take_append_drop _ _).symm
      (List.length_take_of_le hcount)
  have hbody : ∀ s : Socket, len ≤ s.incoming.length →
      ∃ t, ((if len > 0 then asyncRead net len else pure []) : Awaitable Bytes).run s =
        (.done (s.incoming.take len), { s with incoming := s.incoming.drop len, now := t }) := by
    intro s hlen
    split
    next => exact ⟨_, hread s hlen⟩
    next hpos =>
      -- An empty payload is not read at all.
      obtain rfl : len = 0 := Nat.eq_zero_of_not_pos hpos
      exact ⟨s.now, rfl⟩
  rw [readPayload_eq]
  cases masked with
  | true =>
    simp only [if_true] at h ⊢
    obtain ⟨t, hraw⟩ := hbody { s with incoming := s.incoming.drop 4, now := s.now + 1 }
      (by rw [List.length_drop]; omega)
    refine ⟨t, ?_⟩
    rw [Awaitable.run_bind_of_done (hread s (by omega)), Awaitable.run_bind_of_done hraw,
      List.drop_drop]
    rfl
  | false =>
    simp only [Bool.false_eq_true, if_false, Nat.zero_add] at h ⊢
    obtain ⟨t, hraw⟩ := hbody s h
    refine ⟨t, ?_⟩
    rw [Awaitable.run_bind_of_done (Awaitable.run_pure _ s), Awaitable.run_bind_of_done hraw]
    rfl

/-- On a calm network the frame at the front is read, up to the decision what to do with it. -/
theorem run_readBody_of_frontFrame (hcalm : net.Calm) {f : WireFrame} {rest : Bytes}
    (h : frontFrame ws s.incoming = some (f, rest)) :
    ∃ t, ∀ again, (WebSocket.readBody net ws again).run s =
      (WebSocket.handleFrame net again f.op f.fin f.payload).run
        { s with incoming := rest, now := t } := by
  obtain ⟨header0, header1, tail, len, behind, hin, hlen, hle, hsize, rfl, rfl⟩ :=
    exists_of_frontFrame h
  have hheader := run_asyncRead hcalm (show s.incoming = [header0, header1] ++ tail from hin)
    (show _ = 2 from rfl)
  obtain ⟨t, hlength⟩ := run_readLength hcalm
    (s := { s with incoming := tail, now := s.now + 1 }) hlen
  obtain ⟨t', hpayload⟩ := run_readPayload hcalm (header1 &&& 0x80 != 0)
    (s := { s with incoming := behind, now := t }) hsize
  refine ⟨t', fun again => ?_⟩
  unfold WebSocket.readBody
  rw [Awaitable.run_bind_of_done hheader]
  simp only [List.getD_cons_zero, List.getD_cons_succ]
  rw [Awaitable.run_bind_of_done hlength, if_neg (not_lt.mpr hle),
    Awaitable.run_bind_of_done hpayload]
  rfl

end Read

/-! ### Frames of the server -/

/-- The eight bytes of a length, and the two of a shorter one, are big-endian numbers. -/
theorem map_shiftRight_eq_bigEndian (k n : ℕ) :
    ((List.range k).reverse.map fun i => UInt8.ofNat ((n >>> (i * 8)) &&& 0xFF)) =
      bigEndian k n := by
  have hand : ∀ m : ℕ, m &&& 0xFF = m % 256 := fun m => Nat.and_two_pow_sub_one_eq_mod m 8
  induction k generalizing n with
  | zero => rfl
  | succ k ih =>
    -- The byte of the exponent zero is the last one.
    have hshift : ∀ i : ℕ, n >>> ((i + 1) * 8) = (n / 256) >>> (i * 8) := by
      intro i
      rw [show (i + 1) * 8 = 8 + i * 8 by ring, Nat.shiftRight_add, Nat.shiftRight_eq_div_pow n 8]
    rw [List.range_succ_eq_map, List.reverse_cons, List.map_append, ← List.map_reverse,
      List.map_map, bigEndian, ← ih (n / 256)]
    congr 1
    · apply List.map_congr_left
      intro i _
      simp only [Function.comp_apply, hshift]
    · simp [hand]

/-- The bytes of the payload length. -/
def sizeBytes (size : ℕ) : Bytes :=
  if size < 126 then [UInt8.ofNat size]
  else if size ≤ 0xFFFF then 126 :: bigEndian 2 size
  else 127 :: bigEndian 8 size

theorem frameHeader_eq (op : WsOpcode) (size : ℕ) :
    frameHeader op size = (0x80 ||| op.code) :: sizeBytes size := by
  have htwo : [UInt8.ofNat ((size >>> 8) &&& 0xFF), UInt8.ofNat (size &&& 0xFF)] =
      bigEndian 2 size := map_shiftRight_eq_bigEndian 2 size
  rw [frameHeader, sizeBytes, htwo, map_shiftRight_eq_bigEndian]

/-- The first byte of a short length is below the two that stand for longer ones. -/
theorem toNat_ofNat_of_lt {size : ℕ} (h : size < 126) : (UInt8.ofNat size).toNat = size := by
  rw [UInt8.toNat_ofNat']
  omega

/-- A frame as `write_frame` writes it. -/
def writtenFrame (op : WsOpcode) (payload : Bytes) : Bytes :=
  frameHeader op payload.length ++ payload

/-- The same frame with the mask bit, a mask key and the masked payload. -/
def maskedFrame (maskKey : Bytes) (op : WsOpcode) (payload : Bytes) : Bytes :=
  (frameHeader op payload.length).modify 1 (0x80 ||| ·) ++ (maskKey ++ masked maskKey payload)

/-- A length byte without the mask bit. -/
theorem plainLengthByte_spec {n : ℕ} (h : n < 128) :
    (UInt8.ofNat n &&& 0x80 != 0) = false ∧ (UInt8.ofNat n &&& 0x7F).toNat = n := by
  have hall : ∀ i : Fin 128, (UInt8.ofNat i &&& 0x80 != 0) = false ∧
      (UInt8.ofNat i &&& 0x7F).toNat = i := by decide
  exact hall ⟨n, h⟩

/-- The bytes of a length are a code, with or without the mask bit, and what it announces. -/
theorem exists_sizeBytes {n : ℕ} (hn : n < 2 ^ 64) :
    ∃ code ext, code < 128 ∧ sizeBytes n = UInt8.ofNat code :: ext ∧
      ∀ header1 : UInt8, (header1 &&& 0x7F).toNat = code →
        ∀ rest, payloadLength header1 (ext ++ rest) = some (n, rest) := by
  rw [sizeBytes]
  split
  next hseven =>
    exact ⟨n, [], by omega, rfl, fun header1 hcode => payloadLength_seven hcode hseven⟩
  next =>
    split
    next hsixteen =>
      exact ⟨126, bigEndian 2 n, by decide, rfl, fun header1 hcode =>
        payloadLength_sixteen hcode (by omega)⟩
    next =>
      exact ⟨127, bigEndian 8 n, by decide, rfl, fun header1 hcode =>
        payloadLength_sixtyFour hcode hn⟩

/-- The frame at the front is the one that was written. -/
theorem frontFrame_writtenFrame {ws : WebSocket} (op : WsOpcode) {payload : Bytes}
    (hle : payload.length ≤ ws.maxMessageSize) (hmax : ws.maxMessageSize < 2 ^ 64) (rest : Bytes) :
    ∃ header1, frontFrame ws (writtenFrame op payload ++ rest) =
      some (⟨0x80 ||| op.code, header1, payload⟩, rest) := by
  obtain ⟨code, ext, hcode, hsize, hlength⟩ := exists_sizeBytes (lt_of_le_of_lt hle hmax)
  obtain ⟨hmask, hbits⟩ := plainLengthByte_spec hcode
  have hbytes : writtenFrame op payload ++ rest =
      (0x80 ||| op.code) :: UInt8.ofNat code :: (ext ++ (payload ++ rest)) := by
    simp [writtenFrame, frameHeader_eq, hsize]
  refine ⟨UInt8.ofNat code, ?_⟩
  rw [hbytes, frontFrame_of_payloadLength (hlength _ hbits _) hle (by simp [hmask]), hmask,
    payloadOf_false]
  simp

/-- The same of its masked form. -/
theorem frontFrame_maskedFrame {ws : WebSocket} (op : WsOpcode) {payload : Bytes}
    (hle : payload.length ≤ ws.maxMessageSize) (hmax : ws.maxMessageSize < 2 ^ 64)
    {maskKey : Bytes} (hkey : maskKey.length = 4) (rest : Bytes) :
    ∃ header1, frontFrame ws (maskedFrame maskKey op payload ++ rest) =
      some (⟨0x80 ||| op.code, header1, payload⟩, rest) := by
  obtain ⟨code, ext, hcode, hsize, hlength⟩ := exists_sizeBytes (lt_of_le_of_lt hle hmax)
  obtain ⟨hmask, hbits⟩ := lengthByte_spec hcode
  have hbytes : maskedFrame maskKey op payload ++ rest = (0x80 ||| op.code) ::
      (0x80 ||| UInt8.ofNat code) :: (ext ++ (maskKey ++ (masked maskKey payload ++ rest))) := by
    simp [maskedFrame, frameHeader_eq, hsize]
  have hdata : (maskKey ++ masked maskKey payload).length = 4 + payload.length := by
    simp [masked, hkey]
  refine ⟨0x80 ||| UInt8.ofNat code, ?_⟩
  rw [hbytes, frontFrame_of_payloadLength (hlength _ hbits _) hle (by simp [hmask, masked, hkey]),
    hmask, payloadOf_true hkey, if_pos rfl, ← List.append_assoc, List.drop_left' hdata]

/-- `read` returns the message of a frame at the front, and takes nothing but the frame. -/
def ReadsBack (net : Network) (ws : WebSocket) (frame : Bytes) (msg : WsMessage) : Prop :=
  ∀ (s : Socket) (rest : Bytes), s.incoming = frame ++ rest →
    ∃ t, (ws.read net).run s = (.done (some msg), { s with incoming := rest, now := t })

theorem readsBack_of_frontFrame {net : Network} (hcalm : net.Calm) {ws : WebSocket}
    {frame payload : Bytes} {op : WsOpcode} (hop : op = .text ∨ op = .binary)
    (h : ∀ rest, ∃ header1,
      frontFrame ws (frame ++ rest) = some (⟨0x80 ||| op.code, header1, payload⟩, rest)) :
    ReadsBack net ws frame ⟨op, payload⟩ := by
  intro s rest hin
  obtain ⟨header1, hfront⟩ := h rest
  rw [← hin] at hfront
  obtain ⟨t, hbody⟩ := run_readBody_of_frontFrame hcalm hfront
  have hagain := hbody (ws.readFrames net s.incoming.length)
  -- The header byte has the FIN bit and the opcode.
  have hcode : WsOpcode.ofCode ((0x80 ||| op.code) &&& 0x0F) = op ∧
      ((0x80 ||| op.code) &&& 0x80 != 0) = true := by
    rcases hop with rfl | rfl <;> decide
  refine ⟨t, Awaitable.run_catching_of_done (hagain.trans ?_)⟩
  rw [WireFrame.op, WireFrame.fin, hcode.1, hcode.2]
  rcases hop with rfl | rfl <;> rfl

/-- A text or binary frame that the server writes is read back, and so is its masked form. -/
theorem read_writeFrame {net net' : Network} (hcalm : net.Calm) {ws : WebSocket}
    {op : WsOpcode} (hop : op = .text ∨ op = .binary) {payload : Bytes}
    (hle : payload.length ≤ ws.maxMessageSize) (hmax : ws.maxMessageSize < 2 ^ 64)
    {sender sender' : Socket}
    (hsent : (WebSocket.writeFrame net' op payload).run sender = (.done (), sender')) :
    sender'.outgoing = sender.outgoing ++ writtenFrame op payload ∧
      ReadsBack net ws (writtenFrame op payload) ⟨op, payload⟩ ∧
      ∀ maskKey : Bytes, maskKey.length = 4 →
        ReadsBack net ws (maskedFrame maskKey op payload) ⟨op, payload⟩ := by
  refine ⟨?_, ?_, ?_⟩
  · rw [asyncWrite_sound hsent]
    rfl
  · exact readsBack_of_frontFrame hcalm hop (frontFrame_writtenFrame op hle hmax)
  · intro maskKey hkey
    exact readsBack_of_frontFrame hcalm hop (frontFrame_maskedFrame op hle hmax hkey)

/-- A greeting. -/
theorem read_writeFrame_hello :
    let net : Network := fun _ => .ready 1
    ([] : Bytes) ++ writtenFrame .text (ascii "hello") =
        [] ++ writtenFrame .text (ascii "hello") ∧
      ReadsBack net {} (writtenFrame .text (ascii "hello")) ⟨.text, ascii "hello"⟩ ∧
      ∀ maskKey : Bytes, maskKey.length = 4 →
        ReadsBack net {} (maskedFrame maskKey .text (ascii "hello")) ⟨.text, ascii "hello"⟩ :=
  @read_writeFrame _ (fun _ => .ready 1) (fun _ => ⟨1, rfl⟩) {} .text (Or.inl rfl) (ascii "hello")
    (by decide) (by decide) ⟨[], [], 0⟩ ⟨[], writtenFrame .text (ascii "hello"), 1⟩ rfl

end Lundi
