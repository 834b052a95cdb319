import Lundi.Lib.EventStream
import Lundi.Sse.Stream

/-!
# Sent events and received events

The events that a client reads from the frames of `send`. A frame is read as the event it was sent
for as long as the data have no line break inside; with a line break the event is cut short there.

* `run_frame`: a frame of single-line data delivers its event;
* `events_run_frames_iff`: sequences of frames, from any place between two events;
* `parse_performAll_iff`: what a sequence of calls writes.
-/

namespace Lundi

open EventStream (Buffers Parser SingleLine normalize)

/-- A value that is sent as an event name or as an id. -/
def IsFieldText (text : Bytes) : Prop := SingleLine text ∧ 0 ∉ text

instance (text : Bytes) : Decidable (IsFieldText text) :=
  inferInstanceAs (Decidable (SingleLine text ∧ 0 ∉ text))

namespace SseSend

/-- The event name and the id are field values. -/
def FieldsOk (c : SseSend) : Prop := IsFieldText c.eventName ∧ IsFieldText c.id

instance (c : SseSend) : Decidable c.FieldsOk :=
  inferInstanceAs (Decidable (IsFieldText c.eventName ∧ IsFieldText c.id))

/-- The id that is in effect behind a call. -/
def nextId (last : Bytes) (c : SseSend) : Bytes := if c.id = [] then last else c.id

/-- The type of an event: a call without an event name stands for a `message`. -/
def eventType (c : SseSend) : Bytes :=
  if c.eventName = [] then ascii "message" else c.eventName

/-- The event that a call stands for, its line breaks written as LF. -/
def event (last : Bytes) (c : SseSend) : EventStream.Event :=
  ⟨c.eventType, normalize c.payload, c.nextId last⟩

end SseSend

/-- The events that a sequence of calls stands for. An id stays in effect until the next one. -/
def sentEvents : Bytes → List SseSend → List EventStream.Event
  | _, [] => []
  | last, c :: sends => c.event last :: sentEvents (c.nextId last) sends

/-- Between two events: no data and no event name have been read. -/
def Idle (s : Buffers) : Prop := s.data = [] ∧ s.eventType = []

/-- The buffers after a call. -/
def deliver (s : Buffers) (c : SseSend) : Buffers :=
  { s with
    lastEventId := c.nextId s.lastEventId
    events := s.events ++ [c.event s.lastEventId] }

theorem Idle.deliver {s : Buffers} (h : Idle s) (c : SseSend) : Idle (deliver s c) := h

/-! ### One frame -/

theorem name_eq_ascii (s : String) : EventStream.name s = ascii s := rfl

/-- The line with the id. -/
theorem run_idLine {id : Bytes} (hid : IsFieldText id) (s : Buffers) (rest : Bytes) :
    (Parser.atLine s).run (SseSend.optionalLine (ascii "id") id ++ rest) =
      (Parser.atLine { s with lastEventId := if id = [] then s.lastEventId else id }).run rest := by
  rw [SseSend.optionalLine]
  split_ifs with h
  · rfl
  · have hline := Parser.run_field (show ascii "id" ≠ [] by decide) (by decide) (by decide) hid.1 s
    rw [Parser.run_append, hline, Buffers.processField, if_neg (by decide), if_neg (by decide),
      if_pos (name_eq_ascii "id").symm, if_neg hid.2]

/-- The line with the event name. -/
theorem run_eventLine {event : Bytes} (hevent : IsFieldText event) {s : Buffers}
    (hs : s.eventType = []) (rest : Bytes) :
    (Parser.atLine s).run (SseSend.optionalLine (ascii "event") event ++ rest) =
      (Parser.atLine { s with eventType := event }).run rest := by
  rw [SseSend.optionalLine]
  split_ifs with h
  · -- Without a name no line is sent, and the buffer is empty already.
    have hself : { s with eventType := event } = s := by rw [h, ← hs]
    rw [List.nil_append, hself]
  · have hline :=
      Parser.run_field (show ascii "event" ≠ [] by decide) (by decide) (by decide) hevent.1 s
    rw [Parser.run_append, hline, Buffers.processField, if_pos (name_eq_ascii "event").symm]

/-- The lines in front of the data. -/
theorem run_frame_eq {c : SseSend} (hc : c.FieldsOk) {s : Buffers} (hs : Idle s) :
    (Parser.atLine s).run c.frame =
      (Parser.atLine
        { s with lastEventId := c.nextId s.lastEventId, eventType := c.eventName }).run
        (ascii "data: " ++ (c.payload ++ [lf, lf])) := by
  rw [SseSend.frame_eq, run_idLine hc.2]
  exact run_eventLine hc.1 (s := { s with lastEventId := c.nextId s.lastEventId }) hs.2 _

/-- A frame of single-line data delivers its event. -/
theorem run_frame {c : SseSend} (hc : c.FieldsOk) (hdata : SingleLine c.payload) {s : Buffers}
    (hs : Idle s) : (Parser.atLine s).run c.frame = Parser.atLine (deliver s c) := by
  -- Between two events the buffers hold nothing but the last id.
  obtain ⟨data, eventType, last, events⟩ := s
  obtain ⟨rfl, rfl⟩ : data = [] ∧ eventType = [] := hs
  rw [run_frame_eq hc ⟨rfl, rfl⟩, deliver, SseSend.event, EventStream.normalize_eq_self hdata]
  exact Parser.run_data hdata ⟨[], c.eventName, c.nextId last, events⟩ rfl

/-- A frame whose data have a line break inside delivers an event with fewer data. -/
theorem exists_shorter_event_of_frame {c : SseSend} (hc : c.FieldsOk)
    (hdata : ¬ SingleLine c.payload) {s : Buffers} (hs : Idle s) :
    EventStream.Shortened s.events (normalize c.payload).length
      ((Parser.atLine s).run c.frame) := by
  rw [run_frame_eq hc hs]
  exact EventStream.exists_shorter_event
    { s with lastEventId := c.nextId s.lastEventId, eventType := c.eventName } hs.1 hdata

/-! ### Sequences of frames -/

/-- From any place between two events, the frames deliver the events they were sent for exactly if
no data have a line break inside. The induction is on the calls. -/
theorem events_run_frames_iff {sends : List SseSend} (hfields : ∀ c ∈ sends, c.FieldsOk)
    {s : Buffers} (hs : Idle s) :
    ((Parser.atLine s).run (sends.flatMap SseSend.frame)).buffers.events =
        s.events ++ sentEvents s.lastEventId sends ↔
      ∀ c ∈ sends, SingleLine c.payload := by
  induction sends generalizing s with
  | nil => simp [sentEvents, Parser.atLine]
  | cons c sends ih =>
    obtain ⟨hc, hsends⟩ := List.forall_mem_cons.mp hfields
    rw [List.flatMap_cons, Parser.run_append, sentEvents, List.forall_mem_cons]
    by_cases hdata : SingleLine c.payload
    · -- The event is delivered, and the other frames are read behind it.
      have hrest := ih hsends (hs.deliver c)
      rw [deliver, List.append_assoc] at hrest
      rw [run_frame hc hdata hs, and_iff_right hdata]
      exact hrest
    · -- In the place of this event stands one with fewer data, whatever follows.
      refine iff_of_false (fun heq => ?_) fun h => hdata h.1
      obtain ⟨e, hstart, hlt⟩ :=
        (exists_shorter_event_of_frame hc hdata hs).run (sends.flatMap SseSend.frame)
      rw [heq, List.prefix_append_right_inj, List.cons_prefix_cons] at hstart
      rw [hstart.1] at hlt
      exact absurd hlt (Nat.lt_irrefl _)

/-- What the calls of a handler write is read as the events that were sent exactly if no data have
a line break inside. -/
theorem parse_performAll_iff {net : Network} {sends : List SseSend}
    (hfields : ∀ c ∈ sends, c.FieldsOk) {s s' : Socket}
    (hrun : (SseCall.performAll net (sends.map .send)).run s = (.done (), s')) :
    ∃ written, s'.outgoing = s.outgoing ++ written ∧
      (EventStream.parse written = sentEvents [] sends ↔
        ∀ c ∈ sends, SingleLine c.payload) := by
  refine ⟨sends.flatMap SseSend.frame, ?_, ?_⟩
  · rw [SseCall.outgoing_performAll hrun, List.flatMap_map]
    rfl
  · exact events_run_frames_iff hfields (s := {}) ⟨rfl, rfl⟩

/-- A message with two lines, as `send` writes it. -/
theorem parse_two_lines :
    ¬ ∀ (net : Network) (sends : List SseSend) (s s' : Socket), (∀ c ∈ sends, c.FieldsOk) →
      (SseCall.performAll net (sends.map .send)).run s = (.done (), s') →
      ∃ written, s'.outgoing = s.outgoing ++ written ∧
        EventStream.parse written = sentEvents [] sends := by
  intro h
  obtain ⟨written, hwritten, hparse⟩ := h (fun _ => .ready 1) [.plain (ascii "two\nlines")]
    ⟨[], [], 0⟩ ⟨[], ascii "data: two\nlines\n\n", 1⟩ (by decide) rfl
  -- The second line of the data is no field, and the client drops it.
  have hbytes : written = ascii "data: two\nlines\n\n" := by
    rw [List.nil_append] at hwritten
    exact hwritten.symm
  rw [hbytes] at hparse
  exact absurd hparse (by decide)

/-- Three calls with single-line data. -/
theorem parse_three_events :
    let sends : List SseSend :=
      [.plain (ascii "a"), .named (ascii " b ") (ascii "tick"), .identified [] [] (ascii "7")]
    ∃ written, [] ++ sends.flatMap SseSend.frame = [] ++ written ∧
      (EventStream.parse written = sentEvents [] sends ↔
        ∀ c ∈ sends, SingleLine c.payload) := by
  intro sends
  have hrun : (SseCall.performAll (fun _ => .ready 1) (sends.map .send)).run ⟨[], [], 0⟩ =
      (.done (), ⟨[], sends.flatMap SseSend.frame, 3⟩) := rfl
  exact parse_performAll_iff (by decide) hrun

end Lundi
