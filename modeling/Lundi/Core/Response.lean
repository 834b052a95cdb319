import Lundi.Engine.Buffer
import Lundi.Engine.FastItoa
import Mathlib.Algebra.Group.Int.Defs

/-!
# Responses

`lundi::response`, its factory functions and its serializer. The date comes from the global date
cache and is a parameter. `contents_serializeInto` says that serializing appends the same bytes
whatever the write buffer held before.
-/

namespace Lundi

/-- `response::preset_content_type`. -/
inductive PresetContentType
  | none | text | html | json
  deriving DecidableEq

/-- `response::header_entry`. -/
structure ResponseHeader where
  /-- The name. -/
  name : Bytes
  /-- The value. -/
  value : Bytes
  deriving DecidableEq

/-- `lundi::response`. -/
structure Response where
  /-- The status code, an `int`. -/
  status : ℤ := 200
  /-- The preset content type. -/
  presetCt : PresetContentType := .none
  /-- The custom headers. -/
  headers : List ResponseHeader := []
  /-- The number of custom headers the serializer writes. -/
  numHeaders : ℕ := 0
  /-- The body. -/
  body : Bytes := []
  deriving DecidableEq

namespace Response

/-- `set_header`. -/
def setHeader (r : Response) (name value : Bytes) : Response :=
  { r with headers := r.headers ++ [⟨name, value⟩], numHeaders := r.numHeaders + 1 }

/-- `response::text`. -/
def text (body : Bytes) (status : ℤ := 200) : Response :=
  { status := status, body := body, presetCt := .text }

/-- `response::html`. -/
def html (body : Bytes) (status : ℤ := 200) : Response :=
  { status := status, body := body, presetCt := .html }

/-- `response::json`. -/
def json (body : Bytes) (status : ℤ := 200) : Response :=
  { status := status, body := body, presetCt := .json }

@[simp]
theorem status_setHeader (r : Response) (name value : Bytes) :
    (r.setHeader name value).status = r.status := rfl

@[simp]
theorem status_text (body : Bytes) (status : ℤ) : (text body status).status = status := rfl

/-- `status_text`. -/
def statusText (code : ℤ) : Bytes :=
  if code = 101 then ascii "Switching Protocols"
  else if code = 200 then ascii "OK"
  else if code = 201 then ascii "Created"
  else if code = 204 then ascii "No Content"
  else if code = 301 then ascii "Moved Permanently"
  else if code = 302 then ascii "Found"
  else if code = 304 then ascii "Not Modified"
  else if code = 400 then ascii "Bad Request"
  else if code = 401 then ascii "Unauthorized"
  else if code = 403 then ascii "Forbidden"
  else if code = 404 then ascii "Not Found"
  else if code = 405 then ascii "Method Not Allowed"
  else if code = 408 then ascii "Request Timeout"
  else if code = 413 then ascii "Payload Too Large"
  else if code = 429 then ascii "Too Many Requests"
  else if code = 500 then ascii "Internal Server Error"
  else if code = 502 then ascii "Bad Gateway"
  else if code = 503 then ascii "Service Unavailable"
  else ascii "Unknown"

/-- The status line. The cast to `uint64_t` wraps a negative status. -/
def appendStatusLine (r : Response) (buf : WriteBuffer) : WriteBuffer :=
  if r.status = 200 then buf.append (ascii "HTTP/1.1 200 OK\r\n")
  else
    ((((buf.append (ascii "HTTP/1.1 ")).append
      (FastItoa.init.formatted (r.status % 2 ^ 64).toNat)).push sp).append
      (statusText r.status)).append crlf

/-- The `Content-Type` line of a preset content type. -/
def appendPreset (r : Response) (buf : WriteBuffer) : WriteBuffer :=
  match r.presetCt with
  | .text => buf.append (ascii "Content-Type: text/plain; charset=utf-8\r\n")
  | .json => buf.append (ascii "Content-Type: application/json; charset=utf-8\r\n")
  | .html => buf.append (ascii "Content-Type: text/html; charset=utf-8\r\n")
  | .none => buf

/-- The headers the serializer loops over. -/
def writtenHeaders (r : Response) : List ResponseHeader := r.headers.take r.numHeaders

/-- One custom header line. -/
def appendHeader (buf : WriteBuffer) (h : ResponseHeader) : WriteBuffer :=
  (((buf.append h.name).append (ascii ": ")).append h.value).append crlf

/-- A custom header suppresses the generated `Content-Length`. -/
def hasContentLength (r : Response) : Bool :=
  r.writtenHeaders.any fun h =>
    h.name == ascii "Content-Length" || h.name == ascii "content-length"

/-- A custom header suppresses the generated `Connection`. -/
def hasConnection (r : Response) : Bool :=
  r.writtenHeaders.any fun h => h.name == ascii "Connection" || h.name == ascii "connection"

/-- The generated `Content-Length` line. -/
def appendContentLength (r : Response) (buf : WriteBuffer) : WriteBuffer :=
  if r.hasContentLength then buf
  else
    ((buf.append (ascii "Content-Length: ")).append
      (FastItoa.init.formatted r.body.length)).append crlf

/-- The generated `Connection` line. -/
def appendConnection (r : Response) (buf : WriteBuffer) : WriteBuffer :=
  if r.hasConnection then buf else buf.append (ascii "Connection: keep-alive\r\n")

/-- `serialize_into`, with the cached date as a parameter. -/
def serializeInto (date : Bytes) (r : Response) (buf : WriteBuffer) : WriteBuffer :=
  let buf := r.appendStatusLine buf
  let buf := ((buf.append (ascii "Server: Lundi\r\nDate: ")).append date).append crlf
  let buf := r.appendPreset buf
  let buf := r.writtenHeaders.foldl appendHeader buf
  let buf := r.appendConnection (r.appendContentLength buf)
  (buf.append crlf).append r.body

/-- `serialize`. -/
def serialize (date : Bytes) (r : Response) : Bytes :=
  (r.serializeInto date (.init (256 + r.body.length))).contents

/-- The bytes of the custom header lines. -/
def headerBytes (r : Response) : Bytes :=
  r.writtenHeaders.flatMap fun h => h.name ++ ascii ": " ++ h.value ++ crlf

theorem contents_foldl_appendHeader (hs : List ResponseHeader) (buf : WriteBuffer) :
    (hs.foldl appendHeader buf).contents =
      buf.contents ++ hs.flatMap fun h => h.name ++ ascii ": " ++ h.value ++ crlf := by
  induction hs generalizing buf with
  | nil => simp
  | cons h hs ih => simp [ih, appendHeader]

/-- The serialized message, spelled out. -/
theorem contents_serializeInto_eq (date : Bytes) (r : Response) (buf : WriteBuffer) :
    (r.serializeInto date buf).contents = buf.contents ++
      ((r.appendStatusLine (.init 0)).contents ++
        (ascii "Server: Lundi\r\nDate: " ++ date ++ crlf ++
          (r.appendPreset (.init 0)).contents ++ r.headerBytes ++
          (r.appendContentLength (.init 0)).contents ++
          (r.appendConnection (.init 0)).contents ++ crlf ++ r.body)) := by
  -- Each part appends bytes that do not depend on the buffer.
  have hstatus : ∀ b : WriteBuffer, (r.appendStatusLine b).contents =
      b.contents ++ (r.appendStatusLine (.init 0)).contents := by
    intro b
    unfold appendStatusLine
    split <;> simp
  have hpreset : ∀ b : WriteBuffer, (r.appendPreset b).contents =
      b.contents ++ (r.appendPreset (.init 0)).contents := by
    intro b
    unfold appendPreset
    split <;> simp
  have hlength : ∀ b : WriteBuffer, (r.appendContentLength b).contents =
      b.contents ++ (r.appendContentLength (.init 0)).contents := by
    intro b
    unfold appendContentLength
    split <;> simp
  have hconn : ∀ b : WriteBuffer, (r.appendConnection b).contents =
      b.contents ++ (r.appendConnection (.init 0)).contents := by
    intro b
    unfold appendConnection
    split <;> simp
  simp only [serializeInto, WriteBuffer.contents_append, contents_foldl_appendHeader,
    hconn (r.appendContentLength _), hlength (List.foldl _ _ _),
    hpreset ((((r.appendStatusLine buf).append _).append _).append _), hstatus buf, headerBytes,
    List.append_assoc]

/-- Serializing appends the same bytes whatever the buffer held before. -/
theorem contents_serializeInto (date : Bytes) (r : Response) (buf : WriteBuffer) :
    (r.serializeInto date buf).contents = buf.contents ++ r.serialize date := by
  rw [serialize, contents_serializeInto_eq, contents_serializeInto_eq date r (.init _)]
  simp

end Response

end Lundi
