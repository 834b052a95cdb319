import Lundi.Engine.Socket

/-!
# Server-sent events

`lundi::sse_stream`: the frames that a handler sends, and the bytes that a sequence of its calls
writes.
-/

namespace Lundi

/-- The frame of `send` with data. -/
def dataFrame (data : Bytes) : Bytes := ascii "data: " ++ data ++ ascii "\n\n"

/-- The frame of `send` with data and an event name. -/
def eventFrame (data event : Bytes) : Bytes :=
  (if event ≠ [] then ascii "event: " ++ event ++ ascii "\n" else []) ++
    (ascii "data: " ++ data ++ ascii "\n\n")

/-- The frame of `send` with data, an event name and an id. -/
def idFrame (data event id : Bytes) : Bytes :=
  (if id ≠ [] then ascii "id: " ++ id ++ ascii "\n" else []) ++
    ((if event ≠ [] then ascii "event: " ++ event ++ ascii "\n" else []) ++
      (ascii "data: " ++ data ++ ascii "\n\n"))

/-- The bytes of `heartbeat`: the 14 bytes of a literal of 13 characters, with the null character
behind it. -/
def heartbeatBytes : Bytes := ascii ": heartbeat\n\n" ++ [0]

namespace SseStream

variable (net : Network)

/-- `send` with data. -/
def send (data : Bytes) : Awaitable Unit := asyncWrite net (dataFrame data)

/-- `send` with data and an event name. -/
def sendEvent (data event : Bytes) : Awaitable Unit := asyncWrite net (eventFrame data event)

/-- `send` with data, an event name and an id. -/
def sendEventId (data event id : Bytes) : Awaitable Unit :=
  asyncWrite net (idFrame data event id)

/-- `heartbeat`. -/
def heartbeat : Awaitable Unit := asyncWrite net heartbeatBytes

end SseStream

/-- A call of one of the three overloads of `send`. -/
inductive SseSend
  | plain (data : Bytes)
  | named (data event : Bytes)
  | identified (data event id : Bytes)
  deriving DecidableEq

/-- A call of a handler on its stream. -/
inductive SseCall
  | send (c : SseSend)
  | heartbeat
  deriving DecidableEq

namespace SseSend

/-- The argument `data`. -/
def payload : SseSend → Bytes
  | .plain data | .named data _ | .identified data _ _ => data

/-- The argument `event`, empty where there is none. -/
def eventName : SseSend → Bytes
  | .plain _ => []
  | .named _ event | .identified _ event _ => event

/-- The argument `id`, empty where there is none. -/
def id : SseSend → Bytes
  | .plain _ | .named _ _ => []
  | .identified _ _ id => id

/-- The call. -/
def perform (net : Network) : SseSend → Awaitable Unit
  | .plain data => SseStream.send net data
  | .named data event => SseStream.sendEvent net data event
  | .identified data event id => SseStream.sendEventId net data event id

/-- The frame of a call. -/
def frame : SseSend → Bytes
  | .plain data => dataFrame data
  | .named data event => eventFrame data event
  | .identified data event id => idFrame data event id

/-- A field line of a frame, left out when there is no value. -/
def optionalLine (field value : Bytes) : Bytes :=
  if value = [] then [] else field ++ (colon :: sp :: (value ++ [lf]))

@[simp]
theorem optionalLine_nil (field : Bytes) : optionalLine field [] = [] := if_pos rfl

theorem optionalLine_append {field value : Bytes} (h : value ≠ []) (rest : Bytes) :
    optionalLine field value ++ rest = field ++ (colon :: sp :: value) ++ lf :: rest := by
  rw [optionalLine, if_neg h]
  simp

/-- The three overloads differ in the fields they leave out. -/
theorem frame_eq (c : SseSend) :
    c.frame = optionalLine (ascii "id") c.id ++ (optionalLine (ascii "event") c.eventName ++
      (ascii "data: " ++ (c.payload ++ [lf, lf]))) := by
  have hid : ascii "id: " = ascii "id" ++ [colon, sp] := rfl
  have hevent : ascii "event: " = ascii "event" ++ [colon, sp] := rfl
  have hlf : ascii "\n" = [lf] := rfl
  have hlfs : ascii "\n\n" = [lf, lf] := rfl
  cases c with
  | plain data => simp [frame, dataFrame, id, eventName, payload, optionalLine, hlfs]
  | named data event =>
    by_cases h : event = [] <;>
      simp [frame, eventFrame, id, eventName, payload, optionalLine, h, hevent, hlf, hlfs]
  | identified data event id =>
    by_cases h : event = [] <;> by_cases h' : id = [] <;>
      simp [frame, idFrame, SseSend.id, eventName, payload, optionalLine, h, h', hid, hevent, hlf,
        hlfs]

end SseSend

namespace SseCall

/-- The call. -/
def perform (net : Network) : SseCall → Awaitable Unit
  | .send c => c.perform net
  | .heartbeat => SseStream.heartbeat net

/-- The bytes of a call. -/
def bytes : SseCall → Bytes
  | .send c => c.frame
  | .heartbeat => heartbeatBytes

/-- The calls of a handler, one after the other. -/
def performAll (net : Network) : List SseCall → Awaitable Unit
  | [] => pure ()
  | c :: calls => do
    c.perform net
    performAll net calls

variable {net : Network}

/-- A call is one write. -/
theorem perform_eq (net : Network) (c : SseCall) : c.perform net = asyncWrite net c.bytes := by
  rcases c with c | _
  · cases c <;> rfl
  · rfl

/-- What calls that return have written. -/
theorem outgoing_performAll {calls : List SseCall} {s s' : Socket}
    (h : (performAll net calls).run s = (.done (), s')) :
    s'.outgoing = s.outgoing ++ calls.flatMap bytes := by
  induction calls generalizing s with
  | nil =>
    obtain rfl : s = s' := (Prod.mk.inj h).2
    simp
  | cons c calls ih =>
    rw [performAll, Awaitable.run_bind_eq_done_iff, perform_eq] at h
    obtain ⟨_, t, hwrite, hrest⟩ := h
    rw [ih hrest, asyncWrite_sound hwrite, List.flatMap_cons, List.append_assoc]

end SseCall

end Lundi
