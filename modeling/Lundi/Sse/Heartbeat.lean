import Lundi.Sse.Events

/-!
# Heartbeats

`heartbeat` writes the 13 characters of a comment and an empty line, and one null character more.
The null character stays in front of the next line, which the client then does not recognize: the
first line of the next frame is lost. Nothing else is affected.

* `run_calls`: what is read from any sequence of calls;
* `Harmless`: the first lines that may be lost;
* `parse_heartbeats_iff`: when the events with and without heartbeats are the same.
-/

namespace Lundi

open EventStream (Buffers Parser SingleLine normalize)

/-- The client at the start of a line, or behind the null character of a heartbeat. -/
def reader (behindHeartbeat : Bool) (s : Buffers) : Parser :=
  ⟨if behindHeartbeat then [0] else [], false, s⟩

/-- What is left of a call behind a heartbeat: its first line is lost. -/
def deliverHarmed (s : Buffers) (c : SseSend) : Buffers :=
  if c.id ≠ [] then
    { s with events := s.events ++ [⟨c.eventType, normalize c.payload, s.lastEventId⟩] }
  else if c.eventName ≠ [] then
    { s with events := s.events ++ [⟨ascii "message", normalize c.payload, s.lastEventId⟩] }
  else s

/-- What the client reads from a sequence of calls. -/
def deliverAll : Bool → Buffers → List SseCall → Buffers
  | _, s, [] => s
  | _, s, .heartbeat :: calls => deliverAll true s calls
  | behindHeartbeat, s, .send c :: calls =>
    deliverAll false (if behindHeartbeat then deliverHarmed s c else deliver s c) calls

/-- The calls of `send` in a sequence. -/
def sendsOf (calls : List SseCall) : List SseSend :=
  calls.filterMap fun
    | .send c => some c
    | .heartbeat => none

/-- A call has no line break and no null character in its strings. -/
def SseSend.Plain (c : SseSend) : Prop := c.FieldsOk ∧ IsFieldText c.payload

instance (c : SseSend) : Decidable c.Plain :=
  inferInstanceAs (Decidable (c.FieldsOk ∧ IsFieldText c.payload))

/-- The first line of a call can be lost: it is an id that is in effect anyway, or the name that
events without a name have. -/
def SseSend.Harmless (last : Bytes) (c : SseSend) : Prop :=
  if c.id ≠ [] then c.id = last else c.eventName = ascii "message"

/-- Every call directly behind a heartbeat can lose its first line. -/
def Harmless : Bytes → Bool → List SseCall → Prop
  | _, _, [] => True
  | last, _, .heartbeat :: calls => Harmless last true calls
  | last, behindHeartbeat, .send c :: calls =>
    (behindHeartbeat = true → c.Harmless last) ∧ Harmless (c.nextId last) false calls

/-! ### What is read -/

/-- A line behind a null character has no effect. -/
theorem processLine_zero (s : Buffers) (line : Bytes) : s.processLine (0 :: line) = s := by
  -- The null character is the first byte of the name of the field, which no field has.
  have hname : EventStream.fieldName (0 :: line) = 0 :: EventStream.fieldName line := by
    rw [EventStream.fieldName, List.takeWhile_cons_of_pos (by decide), EventStream.fieldName]
  have hne : ∀ field : Bytes, field.head? ≠ some 0 → 0 :: EventStream.fieldName line ≠ field := by
    rintro field hfield rfl
    exact hfield rfl
  rw [Buffers.processLine, if_neg (List.cons_ne_nil _ _),
    if_neg (by rw [List.head?_cons]; decide), hname, Buffers.processField,
    if_neg (hne _ (by decide)), if_neg (hne _ (by decide)), if_neg (hne _ (by decide))]

/-- The first line behind a heartbeat is lost. -/
theorem run_lostLine {text : Bytes} (h : SingleLine text) (s : Buffers) (rest : Bytes) :
    (reader true s).run (text ++ lf :: rest) = (Parser.atLine s).run rest := by
  have hsplit : text ++ lf :: rest = text ++ [lf] ++ rest := by simp
  have hline : (reader true s).run (text ++ [lf]) = Parser.atLine s := by
    rw [← processLine_zero s text]
    exact Parser.run_line h [0] s
  rw [hsplit, Parser.run_append, hline]

/-- Between two events, an empty line has no effect. -/
theorem Idle.dispatch_eq {s : Buffers} (h : Idle s) : s.dispatch = s := by
  rw [Buffers.dispatch, if_pos h.1, ← h.2]

/-- A heartbeat leaves the client behind its null character. -/
theorem run_heartbeat {s : Buffers} (h : Idle s) (behindHeartbeat : Bool) :
    (reader behindHeartbeat s).run heartbeatBytes = reader true s := by
  have htext : SingleLine (ascii ": heartbeat") := by decide
  -- The comment has no effect, be it read as a comment or as an unknown field.
  have hcomment : (reader behindHeartbeat s).run (ascii ": heartbeat" ++ [lf]) =
      Parser.atLine s := by
    cases behindHeartbeat with
    | true =>
      rw [← processLine_zero s (ascii ": heartbeat")]
      exact Parser.run_line htext [0] s
    | false =>
      rw [← Buffers.processLine_comment s (ascii " heartbeat")]
      exact Parser.run_line htext [] s
  have hbytes : heartbeatBytes = ascii ": heartbeat" ++ [lf] ++ [lf, 0] := rfl
  rw [hbytes, Parser.run_append, hcomment, Parser.run_cons, Parser.atLine, Parser.feed_lf,
    Buffers.processLine_nil, h.dispatch_eq]
  rfl

theorem Idle.deliverHarmed {s : Buffers} (h : Idle s) (c : SseSend) :
    Idle (deliverHarmed s c) := by
  unfold Lundi.deliverHarmed
  split_ifs <;> exact h

/-- A single-line frame behind a heartbeat: its first line is lost. -/
theorem run_frame_behindHeartbeat {c : SseSend} (hc : c.Plain) {s : Buffers} (hs : Idle s) :
    (reader true s).run c.frame = Parser.atLine (deliverHarmed s c) := by
  obtain ⟨⟨hevent, hid⟩, hdata, -⟩ := hc
  obtain ⟨data, eventType, last, events⟩ := s
  obtain ⟨rfl, rfl⟩ : data = [] ∧ eventType = [] := hs
  rw [SseSend.frame_eq, deliverHarmed, EventStream.normalize_eq_self hdata]
  split_ifs with hidne heventne
  · -- The id is lost.
    rw [SseSend.optionalLine_append hidne,
      run_lostLine (EventStream.singleLine_fieldLine (by decide) hid.1), run_eventLine hevent rfl]
    exact Parser.run_data hdata ⟨[], c.eventName, last, events⟩ rfl
  · -- The event name is lost.
    rw [ne_eq, not_not] at hidne
    rw [hidne, SseSend.optionalLine_nil, List.nil_append, SseSend.optionalLine_append heventne,
      run_lostLine (EventStream.singleLine_fieldLine (by decide) hevent.1)]
    exact Parser.run_data hdata ⟨[], [], last, events⟩ rfl
  · -- The data are lost, and the empty line finds none.
    rw [ne_eq, not_not] at hidne heventne
    have hline : SingleLine (ascii "data: " ++ c.payload) :=
      EventStream.singleLine_append.mpr ⟨by decide, hdata⟩
    have hbytes : ascii "data: " ++ (c.payload ++ [lf, lf]) =
        ascii "data: " ++ c.payload ++ lf :: [lf] := by simp
    rw [hidne, heventne, SseSend.optionalLine_nil, SseSend.optionalLine_nil, List.nil_append,
      List.nil_append, hbytes, run_lostLine hline, Parser.run_cons, Parser.atLine, Parser.feed_lf,
      Buffers.processLine_nil]
    rfl

/-- What is read from a sequence of calls, from any place between two events. -/
theorem run_calls {calls : List SseCall} (hplain : ∀ c ∈ sendsOf calls, c.Plain) {s : Buffers}
    (hs : Idle s) (behindHeartbeat : Bool) :
    ((reader behindHeartbeat s).run (calls.flatMap SseCall.bytes)).buffers =
      deliverAll behindHeartbeat s calls := by
  induction calls generalizing s behindHeartbeat with
  | nil => rfl
  | cons call calls ih =>
    rw [List.flatMap_cons, Parser.run_append]
    rcases call with c | _
    · obtain ⟨hc, hcalls⟩ := List.forall_mem_cons.mp hplain
      -- The frame is read as a whole, or without its first line.
      cases behindHeartbeat with
      | true =>
        have hframe : (reader true s).run (SseCall.send c).bytes =
            reader false (deliverHarmed s c) := run_frame_behindHeartbeat hc hs
        rw [hframe]
        exact ih hcalls (hs.deliverHarmed c) false
      | false =>
        have hframe : (reader false s).run (SseCall.send c).bytes = reader false (deliver s c) :=
          run_frame hc.1 hc.2.1 hs
        rw [hframe]
        exact ih hcalls (hs.deliver c) false
    · have hbeat : (reader behindHeartbeat s).run SseCall.heartbeat.bytes = reader true s :=
        run_heartbeat hs behindHeartbeat
      rw [hbeat]
      exact ih hplain hs true

/-! ### The events -/

/-- An event that has been delivered stays. -/
theorem events_prefix_deliverAll (behindHeartbeat : Bool) (s : Buffers) (calls : List SseCall) :
    s.events <+: (deliverAll behindHeartbeat s calls).events := by
  induction calls generalizing behindHeartbeat s with
  | nil => exact List.prefix_rfl
  | cons call calls ih =>
    rcases call with c | _
    · refine List.IsPrefix.trans ?_ (ih false _)
      split
      · unfold deliverHarmed
        split_ifs
        · exact List.prefix_append _ _
        · exact List.prefix_append _ _
        · exact List.prefix_rfl
      · exact List.prefix_append _ _
    · exact ih true s

/-- No call delivers more than one event. -/
theorem length_events_deliverAll_le (behindHeartbeat : Bool) (s : Buffers)
    (calls : List SseCall) : (deliverAll behindHeartbeat s calls).events.length ≤
      s.events.length + (sendsOf calls).length := by
  induction calls generalizing behindHeartbeat s with
  | nil => exact Nat.le_add_right _ _
  | cons call calls ih =>
    rcases call with c | _
    · have hone : (if behindHeartbeat then deliverHarmed s c else deliver s c).events.length ≤
          s.events.length + 1 := by
        unfold deliverHarmed deliver
        split_ifs <;> simp
      have hrest := ih false (if behindHeartbeat then deliverHarmed s c else deliver s c)
      have hcount : (sendsOf (.send c :: calls)).length = (sendsOf calls).length + 1 := rfl
      rw [deliverAll, hcount]
      omega
    · exact ih true s

@[simp]
theorem length_sentEvents (last : Bytes) (sends : List SseSend) :
    (sentEvents last sends).length = sends.length := by
  induction sends generalizing last with
  | nil => rfl
  | cons c sends ih => rw [sentEvents, List.length_cons, ih, List.length_cons]

/-- A call whose first line can be lost. -/
theorem deliverHarmed_eq {s : Buffers} {c : SseSend} (h : c.Harmless s.lastEventId) :
    deliverHarmed s c = deliver s c := by
  rw [SseSend.Harmless] at h
  rw [deliverHarmed, deliver, SseSend.event, SseSend.nextId]
  split_ifs at h with hid
  · -- The id is in effect already.
    rw [if_pos hid, if_neg hid, h]
  · have hname : c.eventName ≠ [] := by
      rw [h]
      decide
    rw [if_neg hid, if_pos hname, if_pos (not_not.mp hid), SseSend.eventType, if_neg hname, h]

/-- A call whose first line cannot be lost delivers another event, or none. -/
theorem not_events_eq_of_not_harmless {s : Buffers} {c : SseSend}
    (h : ¬ c.Harmless s.lastEventId) (calls : List SseCall) :
    (deliverAll false (deliverHarmed s c) calls).events ≠
      s.events ++ c.event s.lastEventId :: sentEvents (c.nextId s.lastEventId) (sendsOf calls) := by
  intro heq
  -- An event in its place would be the one that was sent.
  have hevent : ∀ e, (deliverHarmed s c).events = s.events ++ [e] → e = c.event s.lastEventId := by
    intro e he
    have hprefix := events_prefix_deliverAll false (deliverHarmed s c) calls
    rw [he, heq, List.prefix_append_right_inj, List.cons_prefix_cons] at hprefix
    exact hprefix.1
  rw [SseSend.Harmless] at h
  split_ifs at h with hid
  · have hdelivered := hevent _ (by rw [deliverHarmed, if_pos hid])
    have hlast := congrArg EventStream.Event.lastEventId hdelivered
    have hnext : (c.event s.lastEventId).lastEventId = c.id := if_neg hid
    exact h (hnext.symm.trans hlast.symm)
  · by_cases hname : c.eventName = []
    · -- The event is missing, and no later call makes up for it.
      have hlost : deliverHarmed s c = s := by
        rw [deliverHarmed, if_neg hid, if_neg (not_not.mpr hname)]
      have hlen := length_events_deliverAll_le false s calls
      rw [hlost] at heq
      rw [heq, List.length_append, List.length_cons, length_sentEvents] at hlen
      omega
    · have htype := congrArg EventStream.Event.type
        (hevent _ (by rw [deliverHarmed, if_neg hid, if_pos hname]))
      have heventType : (c.event s.lastEventId).type = c.eventName := if_neg hname
      exact h (heventType.symm.trans htype.symm)

/-- The events are the ones that were sent exactly if all lines that are lost can be. The
induction is on the calls. -/
theorem events_deliverAll_iff (behindHeartbeat : Bool) (s : Buffers) (calls : List SseCall) :
    (deliverAll behindHeartbeat s calls).events =
        s.events ++ sentEvents s.lastEventId (sendsOf calls) ↔
      Harmless s.lastEventId behindHeartbeat calls := by
  induction calls generalizing behindHeartbeat s with
  | nil => simp [deliverAll, sendsOf, sentEvents, Harmless]
  | cons call calls ih =>
    rcases call with c | _
    · have hdeliver := ih false (deliver s c)
      rw [deliver, List.append_assoc] at hdeliver
      show (deliverAll false _ calls).events = s.events ++ c.event s.lastEventId :: _ ↔ _ ∧ _
      by_cases hharm : behindHeartbeat = true → c.Harmless s.lastEventId
      · -- The call delivers its event, and the others are read behind it.
        have hsame : (if behindHeartbeat then deliverHarmed s c else deliver s c) =
            deliver s c := by
          split_ifs with hbehind
          · exact deliverHarmed_eq (hharm hbehind)
          · rfl
        rw [hsame, and_iff_right hharm]
        exact hdeliver
      · obtain ⟨rfl, hnot⟩ := Classical.not_imp.mp hharm
        exact iff_of_false (not_events_eq_of_not_harmless hnot calls) fun h => hharm h.1
    · exact ih true s

/-- The client reads the same events with and without the heartbeats exactly if every call directly
behind a heartbeat can lose its first line. -/
theorem parse_heartbeats_iff {net net' : Network} {calls : List SseCall}
    (hplain : ∀ c ∈ sendsOf calls, c.Plain) {s s' t t' : Socket}
    (hrun : (SseCall.performAll net calls).run s = (.done (), s'))
    (hrun' : (SseCall.performAll net' ((sendsOf calls).map .send)).run t = (.done (), t')) :
    ∃ written written', s'.outgoing = s.outgoing ++ written ∧
      t'.outgoing = t.outgoing ++ written' ∧
      (EventStream.parse written = EventStream.parse written' ↔ Harmless [] false calls) := by
  -- With the heartbeats some lines are lost; without them every event is read as it was sent.
  have hwith : EventStream.parse (calls.flatMap SseCall.bytes) =
      (deliverAll false {} calls).events :=
    congrArg Buffers.events (run_calls hplain (s := {}) ⟨rfl, rfl⟩ false)
  have hwithout : EventStream.parse ((sendsOf calls).flatMap SseSend.frame) =
      sentEvents [] (sendsOf calls) :=
    (events_run_frames_iff (fun c hc => (hplain c hc).1) (s := {}) ⟨rfl, rfl⟩).mpr
      fun c hc => (hplain c hc).2.1
  refine ⟨_, _, SseCall.outgoing_performAll hrun, SseCall.outgoing_performAll hrun', ?_⟩
  rw [List.flatMap_map, hwith]
  refine Iff.trans ?_ (events_deliverAll_iff false {} calls)
  show _ = EventStream.parse ((sendsOf calls).flatMap SseSend.frame) ↔ _
  rw [hwithout]
  rfl

/-- A heartbeat in front of a message: the message is lost. -/
theorem parse_behind_heartbeat :
    ¬ ∀ (net : Network) (calls : List SseCall) (s s' t t' : Socket),
      (∀ c ∈ sendsOf calls, c.Plain) →
      (SseCall.performAll net calls).run s = (.done (), s') →
      (SseCall.performAll net ((sendsOf calls).map .send)).run t = (.done (), t') →
      ∃ written written', s'.outgoing = s.outgoing ++ written ∧
        t'.outgoing = t.outgoing ++ written' ∧
        EventStream.parse written = EventStream.parse written' := by
  intro h
  obtain ⟨written, written', hwritten, hwritten', hparse⟩ :=
    h (fun _ => .ready 1) [.heartbeat, .send (.plain (ascii "x"))] ⟨[], [], 0⟩
      ⟨[], heartbeatBytes ++ dataFrame (ascii "x"), 2⟩ ⟨[], [], 0⟩
      ⟨[], dataFrame (ascii "x"), 1⟩ (by decide) rfl rfl
  rw [List.nil_append] at hwritten hwritten'
  rw [← hwritten, ← hwritten'] at hparse
  exact absurd hparse (by decide)

/-- A message with a known id behind a heartbeat. -/
theorem parse_known_id_behind_heartbeat :
    let sends : List SseSend := [.identified (ascii "x") [] (ascii "1")]
    let calls : List SseCall := [.send (.identified (ascii "x") [] (ascii "1")), .heartbeat]
    ∃ written written', calls.flatMap SseCall.bytes = [] ++ written ∧
      sends.flatMap SseSend.frame = [] ++ written' ∧
      (EventStream.parse written = EventStream.parse written' ↔ Harmless [] false calls) := by
  intro sends calls
  have hrun : (SseCall.performAll (fun _ => .ready 1) calls).run ⟨[], [], 0⟩ =
      (.done (), ⟨[], calls.flatMap SseCall.bytes, 2⟩) := rfl
  have hrun' : (SseCall.performAll (fun _ => .ready 1) ((sendsOf calls).map .send)).run
      ⟨[], [], 0⟩ = (.done (), ⟨[], sends.flatMap SseSend.frame, 1⟩) := rfl
  exact parse_heartbeats_iff (by decide) hrun hrun'

end Lundi
