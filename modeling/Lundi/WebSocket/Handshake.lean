import Lundi.Core.HeaderFields
import Lundi.Core.Request
import Lundi.Engine.Buffer
import Lundi.WebSocket.Base64

/-!
# The WebSocket handshake

`detail::ws_accept_key` and `detail::ws_handshake_response`, compared with what RFC 6455 asks for:
the base 64 encoding of the SHA-1 digest of the key followed by the GUID of the protocol.

* `wsAcceptKey_eq`: the accept key, with the GUID the source has;
* `valuesOf_wsHandshakeResponse`: the response has it in its only `Sec-WebSocket-Accept` field;
* `handshakeConforms_iff`: the handshake is right for a key exactly when the two GUIDs do not make
  a difference for its digest.
-/

namespace Lundi

open Base64 Search

/-- `magic`. -/
def magic : Bytes := ascii "258EAFA5-E914-47DA-95CA-5AB964C0FA65"

/-- `detail::ws_accept_key`. -/
def wsAcceptKey (clientKey : Bytes) : Bytes :=
  base64Encode ((Sha1Context.init.update clientKey).update (magic.take 36)).finalize

/-- `detail::is_ws_upgrade`. -/
def isWsUpgrade (req : Request) : Bool :=
  req.headerEquals (ascii "upgrade") (ascii "websocket") &&
    !(req.header (ascii "sec-websocket-key")).bytes.isEmpty

/-- `detail::ws_handshake_response`. -/
def wsHandshakeResponse (req : Request) : Bytes :=
  let clientKey := (req.header (ascii "sec-websocket-key")).bytes
  let accept := wsAcceptKey clientKey
  let buf := WriteBuffer.init 256
  let buf := buf.append (ascii "HTTP/1.1 101 Switching Protocols\r\n")
  let buf := buf.append (ascii "Upgrade: websocket\r\n")
  let buf := buf.append (ascii "Connection: Upgrade\r\n")
  let buf := buf.append (ascii "Sec-WebSocket-Accept: ")
  let buf := buf.append accept
  let buf := buf.append (ascii "\r\n\r\n")
  buf.contents

/-- The GUID of RFC 6455. -/
def rfcGuid : Bytes := ascii "258EAFA5-E914-47DA-95CA-C5AB0DC85B11"

/-- The accept key that RFC 6455 asks for. -/
def rfcAcceptKey (clientKey : Bytes) : Bytes := encode (Sha1.digest (clientKey ++ rfcGuid))

/-- The accept key is computed as the protocol says, but with another GUID. -/
theorem wsAcceptKey_eq (clientKey : Bytes) :
    wsAcceptKey clientKey = encode (Sha1.digest (clientKey ++ magic)) := by
  have hmagic : magic.take 36 = magic := by decide
  rw [wsAcceptKey, hmagic, base64Encode_eq, finalize_update_update]

/-- An encoding holds no blank and no line break. -/
theorem not_mem_encode {b : UInt8} (hb : b ∈ [cr, lf, sp, tab]) (bytes : Bytes) :
    b ∉ encode bytes := by
  have hclean : b ∉ alphabet ∧ b ≠ padding := by
    simp only [List.mem_cons, List.not_mem_nil, or_false] at hb
    rcases hb with rfl | rfl | rfl | rfl <;> decide
  intro h
  rcases mem_encode h with halphabet | hpadding
  · exact hclean.1 halphabet
  · exact hclean.2 hpadding

/-- The fields in front of the accept key. -/
def upgradeFields : List (Bytes × Bytes) :=
  [(ascii "Upgrade", ascii "websocket"), (ascii "Connection", ascii "Upgrade")]

/-- The response is a head of a status line and three fields. -/
theorem wsHandshakeResponse_eq (req : Request) :
    wsHandshakeResponse req =
      headOf (ascii "HTTP/1.1 101 Switching Protocols" :: (upgradeFields ++
        [(ascii "Sec-WebSocket-Accept",
          wsAcceptKey (req.header (ascii "sec-websocket-key")).bytes)]).map fieldLine) := by
  have hstatus : ascii "HTTP/1.1 101 Switching Protocols\r\n" =
      ascii "HTTP/1.1 101 Switching Protocols" ++ crlf := by decide
  have hupgrade : ascii "Upgrade: websocket\r\n" =
      fieldLine (ascii "Upgrade", ascii "websocket") ++ crlf := by decide
  have hconnection : ascii "Connection: Upgrade\r\n" =
      fieldLine (ascii "Connection", ascii "Upgrade") ++ crlf := by decide
  have haccept : ascii "Sec-WebSocket-Accept: " = ascii "Sec-WebSocket-Accept" ++ ascii ": " := by
    decide
  have hend : ascii "\r\n\r\n" = crlf ++ crlf := by decide
  simp only [wsHandshakeResponse, WriteBuffer.contents_append, WriteBuffer.contents_init, hstatus,
    hupgrade, hconnection, haccept, hend, headOf, upgradeFields, fieldLine, List.map_cons,
    List.map_nil, List.flatMap_cons, List.flatMap_nil, List.append_assoc, List.nil_append,
    List.cons_append]

/-- The response has the accept key in its only `Sec-WebSocket-Accept` field. -/
theorem valuesOf_wsHandshakeResponse (req : Request) :
    valuesOf (ascii "Sec-WebSocket-Accept") (fields (wsHandshakeResponse req)) =
      [wsAcceptKey (req.header (ascii "sec-websocket-key")).bytes] := by
  rw [wsHandshakeResponse_eq]
  generalize haccept : wsAcceptKey (req.header (ascii "sec-websocket-key")).bytes = accept
  have hclean : ∀ b ∈ [cr, lf, sp, tab], b ∉ accept := fun b hb => by
    rw [← haccept, wsAcceptKey_eq]
    exact not_mem_encode hb _
  -- No line break of the accept key cuts its line in two.
  have hfields : ∀ f ∈ upgradeFields ++ [(ascii "Sec-WebSocket-Accept", accept)],
      CleanField f := by
    rw [List.forall_mem_append, List.forall_mem_singleton]
    constructor
    · intro f hf
      rcases List.mem_pair.mp hf with rfl | rfl
      · exact ⟨by decide, by decide, by decide⟩
      · exact ⟨by decide, by decide, by decide⟩
    · exact ⟨show colon ∉ ascii "Sec-WebSocket-Accept" by decide,
        show Unbroken (ascii "Sec-WebSocket-Accept") by decide,
        hclean cr (by simp), hclean lf (by simp)⟩
  -- No blank of the accept key is taken for a blank in front of it.
  have hblank : ∀ b ∈ accept.head?, isBlank b = false := by
    intro b hb
    have hmem : b ∈ accept := List.mem_of_mem_head? hb
    rw [isBlank, Bool.or_eq_false_iff, beq_eq_false_iff_ne, beq_eq_false_iff_ne]
    exact ⟨fun h => hclean sp (by simp) (h ▸ hmem), fun h => hclean tab (by simp) (h ▸ hmem)⟩
  have hnone : valuesOf (ascii "Sec-WebSocket-Accept") upgradeFields = [] := by decide
  have hone : valuesOf (ascii "Sec-WebSocket-Accept")
      [(ascii "Sec-WebSocket-Accept", accept)] = [accept] := valuesOf_singleton (by decide) accept
  rw [fields_headOf_of_clean (by decide) hfields, valuesOf_map_stripped, valuesOf_append, hnone,
    hone, List.nil_append, List.map_singleton, dropWhile_isBlank_eq_self hblank]

/-- The accept key of the protocol, computed by the code of the server. -/
theorem rfcAcceptKey_eq (clientKey : Bytes) :
    rfcAcceptKey clientKey =
      base64Encode ((Sha1Context.init.update clientKey).update rfcGuid).finalize := by
  rw [base64Encode_eq, finalize_update_update, rfcAcceptKey]

/-- The handshake is what RFC 6455 asks for: the accept key, and the field that carries it in the
response to every request with this key. -/
def HandshakeConforms (clientKey : Bytes) : Prop :=
  wsAcceptKey clientKey = rfcAcceptKey clientKey ∧
    ∀ req : Request, (req.header (ascii "sec-websocket-key")).bytes = clientKey →
      valuesOf (ascii "Sec-WebSocket-Accept") (fields (wsHandshakeResponse req)) =
        [rfcAcceptKey clientKey]

/-- The handshake conforms for a key exactly when the digests of the key with the GUID of the source
and with the GUID of the protocol coincide. -/
theorem handshakeConforms_iff (clientKey : Bytes) :
    HandshakeConforms clientKey ↔
      Sha1.digest (clientKey ++ magic) = Sha1.digest (clientKey ++ rfcGuid) := by
  constructor
  · rintro ⟨h, -⟩
    rw [wsAcceptKey_eq, rfcAcceptKey] at h
    exact encode_injective h
  · intro h
    have heq : wsAcceptKey clientKey = rfcAcceptKey clientKey := by
      rw [wsAcceptKey_eq, rfcAcceptKey, h]
    refine ⟨heq, fun req hkey => ?_⟩
    rw [valuesOf_wsHandshakeResponse, hkey, heq]

/-- The nonce in the examples of RFC 6455, section 1.3. -/
def sampleNonce : Bytes := ascii "dGhlIHNhbXBsZSBub25jZQ=="

/-- The accept key of the example, and the one that the server sends. -/
theorem acceptKeys_sampleNonce :
    rfcAcceptKey sampleNonce = ascii "s3pPLMBiTxaQ9kYGzzhZRbK+xOo=" ∧
      wsAcceptKey sampleNonce = ascii "vTq0wc03KbKQkeDiHIoEWZ8DhJs=" := by
  rw [rfcAcceptKey_eq]
  decide +kernel

/-- The sample nonce of the protocol is refused. -/
theorem not_handshakeConforms_sampleNonce : ¬ ∀ clientKey, HandshakeConforms clientKey := by
  intro h
  obtain ⟨hrfc, hsent⟩ := acceptKeys_sampleNonce
  have hkey := (h sampleNonce).1
  rw [hsent, hrfc] at hkey
  exact absurd hkey (by decide)

end Lundi
