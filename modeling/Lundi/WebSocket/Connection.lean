import Lundi.Engine.Socket
import Lundi.Lib.BigEndian

/-!
# WebSocket connections

`lundi::websocket`: reading and writing frames. A read runs over control frames until it finds a
message, and every exception inside it ends it with `nullopt`.
-/

namespace Lundi

/-- `ws_opcode`, with the values that have no name. -/
inductive WsOpcode
  | continuation | text | binary | close | ping | pong
  | reserved (code : UInt8)
  deriving DecidableEq

namespace WsOpcode

/-- `static_cast< ws_opcode >`. -/
def ofCode (code : UInt8) : WsOpcode :=
  if code = 0x0 then .continuation
  else if code = 0x1 then .text
  else if code = 0x2 then .binary
  else if code = 0x8 then .close
  else if code = 0x9 then .ping
  else if code = 0xA then .pong
  else .reserved code

/-- `static_cast< uint8_t >`. -/
def code : WsOpcode → UInt8
  | .continuation => 0x0
  | .text => 0x1
  | .binary => 0x2
  | .close => 0x8
  | .ping => 0x9
  | .pong => 0xA
  | .reserved code => code

end WsOpcode

/-- `ws_message`. -/
structure WsMessage where
  opcode : WsOpcode
  data : Bytes
  deriving DecidableEq

/-- `websocket`, without its socket. -/
structure WebSocket where
  /-- `max_message_size_`. -/
  maxMessageSize : ℕ := 16 * 1024 * 1024

/-- `payload_len = ( payload_len << 8 ) | ext[ i ]` over the extended length bytes. -/
def extendedLength (ext : Bytes) : ℕ :=
  ext.foldl (fun n b => (n <<< 8) % 2 ^ 64 ||| b.toNat) 0

/-- The masking loop: byte `i` is combined with byte `i & 3` of the key. -/
def applyMask (maskKey payload : Bytes) : Bytes :=
  payload.mapIdx fun i b => b ^^^ maskKey.getD (i &&& 3) 0

/-- The header bytes of a frame that `write_frame` writes. -/
def frameHeader (op : WsOpcode) (size : ℕ) : Bytes :=
  (0x80 ||| op.code) ::
    if size < 126 then [UInt8.ofNat size]
    else if size ≤ 0xFFFF then
      [126, UInt8.ofNat ((size >>> 8) &&& 0xFF), UInt8.ofNat (size &&& 0xFF)]
    else 127 :: (List.range 8).reverse.map fun i => UInt8.ofNat ((size >>> (i * 8)) &&& 0xFF)

namespace WebSocket

variable (net : Network)

/-- `write_frame`. -/
def writeFrame (op : WsOpcode) (payload : Bytes) : Awaitable Unit :=
  asyncWrite net (frameHeader op payload.length ++ payload)

/-- `close`. -/
def close (code : ℕ) : Awaitable Unit :=
  writeFrame net .close [UInt8.ofNat (code >>> 8), UInt8.ofNat (code &&& 0xFF)]

/-- `send`. -/
def send (data : Bytes) : Awaitable Unit := writeFrame net .text data

/-- `send_binary`. -/
def sendBinary (data : Bytes) : Awaitable Unit := writeFrame net .binary data

/-- `ping`. -/
def ping : Awaitable Unit := writeFrame net .ping []

/-- The length of the payload, from the second header byte and the extended length. -/
def readLength (header1 : UInt8) : Awaitable ℕ := do
  let payloadLen := (header1 &&& 0x7F).toNat
  if payloadLen = 126 then
    let ext ← asyncRead net 2
    pure (extendedLength ext)
  else if payloadLen = 127 then
    let ext ← asyncRead net 8
    pure (extendedLength ext)
  else pure payloadLen

/-- The mask key, the payload, and the payload unmasked. -/
def readPayload (masked : Bool) (payloadLen : ℕ) : Awaitable Bytes := do
  let maskKey ← if masked then asyncRead net 4 else pure [0, 0, 0, 0]
  let payload ← if payloadLen > 0 then asyncRead net payloadLen else pure []
  pure (if masked then applyMask maskKey payload else payload)

/-- What `read` does with a frame; `again` stands for the recursive call. -/
def handleFrame (again : Awaitable (Option WsMessage)) (op : WsOpcode) (fin : Bool)
    (payload : Bytes) : Awaitable (Option WsMessage) :=
  if op = .ping then do
    writeFrame net .pong payload
    again
  else if op = .close then do
    writeFrame net .close []
    pure none
  else if op = .pong then again
  else if op = .continuation ∨ fin = false then do
    close net 1003
    pure none
  else pure (some ⟨op, payload⟩)

/-- The body of the `try` block of `read`. -/
def readBody (ws : WebSocket) (again : Awaitable (Option WsMessage)) :
    Awaitable (Option WsMessage) := do
  let header ← asyncRead net 2
  let header0 := header.getD 0 0
  let header1 := header.getD 1 0
  let fin := (header0 &&& 0x80) != 0
  let op := WsOpcode.ofCode (header0 &&& 0x0F)
  let masked := (header1 &&& 0x80) != 0
  let payloadLen ← readLength net header1
  if payloadLen > ws.maxMessageSize then
    close net 1009
    pure none
  else
    let payload ← readPayload net masked payloadLen
    handleFrame net again op fin payload

/-- The recursion of `read`, with at most `budget` frames. -/
def readFrames (ws : WebSocket) : ℕ → Awaitable (Option WsMessage)
  | 0 => .suspend
  | budget + 1 => (readBody net ws (readFrames ws budget)).catching fun _ => pure none

/-- `read`. Every frame takes bytes from the socket, so there are fewer frames than bytes. -/
def read (ws : WebSocket) : Awaitable (Option WsMessage) := fun s =>
  (readFrames net ws (s.incoming.length + 1)).run s

end WebSocket

end Lundi
