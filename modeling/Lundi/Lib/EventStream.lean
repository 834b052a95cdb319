import Mathlib.Data.List.Basic

/-!
# Event streams

The event stream format of server-sent events, and its standard parser: lines end with CR LF, CR
or LF, a line is a comment or sets a field of the event that is being read, and an empty line
dispatches it. An event without data is not dispatched, and what is not dispatched at the end of
the stream is discarded. The `retry` field has no part in an event.

* `run_append`: the parser reads a stream piece by piece;
* `processLine_field`, `processLine_nil`: what a line does;
* `run_line`: a text without line breaks and a line feed are a line;
* `events_prefix_run`: an event that has been dispatched stays;
* `exists_shorter_event`: data with a line break inside are cut short.
-/

namespace EventStream

/-- Line feed. -/
abbrev lf : UInt8 := 10
/-- Carriage return. -/
abbrev cr : UInt8 := 13
/-- Space. -/
abbrev space : UInt8 := 32
/-- Colon. -/
abbrev colon : UInt8 := 58

/-- The bytes of an ASCII name. -/
def name (s : String) : List UInt8 := s.toList.map fun c => c.toNat.toUInt8

/-- An event, as a client sees it. -/
structure Event where
  type : List UInt8
  data : List UInt8
  lastEventId : List UInt8
  deriving DecidableEq

/-- The buffers of the parser, and the events that have been dispatched. -/
structure Buffers where
  data : List UInt8 := []
  eventType : List UInt8 := []
  lastEventId : List UInt8 := []
  events : List Event := []

/-- The name of the field in a line. -/
def fieldName (line : List UInt8) : List UInt8 := line.takeWhile (· ≠ colon)

/-- The value of the field in a line: one space behind the colon is not a part of it. -/
def fieldValue (line : List UInt8) : List UInt8 :=
  let value := (line.dropWhile (· ≠ colon)).drop 1
  if value.head? = some space then value.drop 1 else value

namespace Buffers

/-- The event that has been read. -/
def event (s : Buffers) : Event where
  type := if s.eventType = [] then name "message" else s.eventType
  data := if s.data.getLast? = some lf then s.data.dropLast else s.data
  lastEventId := s.lastEventId

/-- Dispatch the event that has been read. -/
def dispatch (s : Buffers) : Buffers :=
  if s.data = [] then { s with eventType := [] }
  else { s with data := [], eventType := [], events := s.events ++ [s.event] }

/-- Process a field. -/
def processField (s : Buffers) (field value : List UInt8) : Buffers :=
  if field = name "event" then { s with eventType := value }
  else if field = name "data" then { s with data := s.data ++ value ++ [lf] }
  else if field = name "id" then if 0 ∈ value then s else { s with lastEventId := value }
  else s

/-- Process a line. -/
def processLine (s : Buffers) (line : List UInt8) : Buffers :=
  if line = [] then s.dispatch
  else if line.head? = some colon then s
  else s.processField (fieldName line) (fieldValue line)

end Buffers

/-- The state of the parser. -/
structure Parser where
  /-- The line that is being read. -/
  line : List UInt8
  /-- The last byte was a carriage return, and a line feed behind it belongs to it. -/
  afterCr : Bool
  buffers : Buffers

namespace Parser

/-- The parser at the start of a line. -/
def atLine (s : Buffers) : Parser := ⟨[], false, s⟩

/-- Read a byte. -/
def feed (p : Parser) (b : UInt8) : Parser :=
  if b = lf ∧ p.afterCr = true then { p with afterCr := false }
  else if b = lf ∨ b = cr then ⟨[], b == cr, p.buffers.processLine p.line⟩
  else { p with line := p.line ++ [b], afterCr := false }

/-- Read a stream. -/
def run (p : Parser) (bytes : List UInt8) : Parser := bytes.foldl feed p

end Parser

/-- The events of a stream. -/
def parse (bytes : List UInt8) : List Event := ((Parser.atLine {}).run bytes).buffers.events

/-- A text with its line breaks written as LF, behind a carriage return or not. -/
def normalizeFrom (afterCr : Bool) : List UInt8 → List UInt8
  | [] => []
  | b :: rest =>
    if b = lf ∧ afterCr = true then normalizeFrom false rest
    else if b = lf ∨ b = cr then lf :: normalizeFrom (b == cr) rest
    else b :: normalizeFrom false rest

/-- A text with its line breaks CR LF, CR and LF written as LF. -/
def normalize (text : List UInt8) : List UInt8 := normalizeFrom false text

/-- A text without line breaks. -/
def SingleLine (text : List UInt8) : Prop := lf ∉ text ∧ cr ∉ text

instance (text : List UInt8) : Decidable (SingleLine text) :=
  inferInstanceAs (Decidable (lf ∉ text ∧ cr ∉ text))

theorem singleLine_cons {b : UInt8} {text : List UInt8} :
    SingleLine (b :: text) ↔ ¬ (b = lf ∨ b = cr) ∧ SingleLine text := by
  simp only [SingleLine, List.mem_cons, not_or, eq_comm (a := lf), eq_comm (a := cr)]
  exact and_and_and_comm

theorem singleLine_append {a b : List UInt8} :
    SingleLine (a ++ b) ↔ SingleLine a ∧ SingleLine b := by
  simp only [SingleLine, List.mem_append, not_or]
  exact and_and_and_comm

/-- The line of a field. -/
theorem singleLine_fieldLine {field value : List UInt8} (hfield : SingleLine field)
    (hvalue : SingleLine value) : SingleLine (field ++ colon :: space :: value) :=
  singleLine_append.mpr ⟨hfield,
    singleLine_cons.mpr ⟨by decide, singleLine_cons.mpr ⟨by decide, hvalue⟩⟩⟩

/-- A text without line breaks is left as it is. -/
theorem normalizeFrom_singleLine {text : List UInt8} (h : SingleLine text) (rest : List UInt8) :
    normalizeFrom false (text ++ rest) = text ++ normalizeFrom false rest := by
  induction text with
  | nil => rfl
  | cons b text ih =>
    obtain ⟨hb, htext⟩ := singleLine_cons.mp h
    rw [List.cons_append, normalizeFrom, if_neg (by simp), if_neg hb, ih htext]
    rfl

@[simp]
theorem normalize_eq_self {text : List UInt8} (h : SingleLine text) : normalize text = text := by
  simpa [normalize, normalizeFrom] using normalizeFrom_singleLine h []

/-! ### Lines -/

namespace Buffers

theorem processLine_nil (s : Buffers) : s.processLine [] = s.dispatch := rfl

/-- A comment has no effect. -/
theorem processLine_comment (s : Buffers) (text : List UInt8) :
    s.processLine (colon :: text) = s := by
  rw [processLine, if_neg (List.cons_ne_nil _ _), if_pos List.head?_cons]

/-- A line with a name, a colon, a space and a value. -/
theorem processLine_field (s : Buffers) {field : List UInt8} (hne : field ≠ [])
    (hcolon : colon ∉ field) (value : List UInt8) :
    s.processLine (field ++ colon :: space :: value) = s.processField field value := by
  -- The line is no comment, as its first byte is one of the name.
  have hhead : (field ++ colon :: space :: value).head? ≠ some colon := by
    obtain ⟨b, rest, rfl⟩ := List.exists_cons_of_ne_nil hne
    rintro h
    exact hcolon (Option.some_inj.mp h ▸ List.mem_cons_self)
  -- The name ends at the first colon.
  have hall : ∀ b ∈ field, decide (b ≠ colon) = true := by
    intro b hb
    simpa using fun h : b = colon => hcolon (h ▸ hb)
  rw [processLine, if_neg (by simp), if_neg hhead, fieldName, fieldValue,
    List.takeWhile_append_of_pos hall, List.dropWhile_append_of_pos hall]
  simp

end Buffers

namespace Parser

variable {p : Parser}

@[simp]
theorem run_nil (p : Parser) : p.run [] = p := rfl

@[simp]
theorem run_cons (p : Parser) (b : UInt8) (bytes : List UInt8) :
    p.run (b :: bytes) = (p.feed b).run bytes := rfl

/-- A stream is read piece by piece. -/
theorem run_append (p : Parser) (a b : List UInt8) : p.run (a ++ b) = (p.run a).run b :=
  List.foldl_append

/-- A byte that is not a line break goes into the line. -/
theorem feed_of_not_break {b : UInt8} (hb : ¬ (b = lf ∨ b = cr)) :
    p.feed b = { p with line := p.line ++ [b], afterCr := false } := by
  rw [feed, if_neg (fun hlf => hb (Or.inl hlf.1)), if_neg hb]

/-- A line feed ends the line. -/
@[simp]
theorem feed_lf (line : List UInt8) (s : Buffers) :
    (⟨line, false, s⟩ : Parser).feed lf = atLine (s.processLine line) := by
  rw [feed, if_neg (by simp), if_pos (Or.inl rfl)]
  rfl

/-- A text without line breaks goes into the line. -/
theorem run_singleLine {text : List UInt8} (h : SingleLine text) (line : List UInt8)
    (s : Buffers) : (⟨line, false, s⟩ : Parser).run text = ⟨line ++ text, false, s⟩ := by
  induction text generalizing line with
  | nil => simp
  | cons b text ih =>
    obtain ⟨hb, htext⟩ := singleLine_cons.mp h
    rw [run_cons, feed_of_not_break hb, ih htext, List.append_assoc]
    rfl

/-- A text without line breaks and a line feed complete the line. -/
theorem run_line {text : List UInt8} (h : SingleLine text) (line : List UInt8) (s : Buffers) :
    (⟨line, false, s⟩ : Parser).run (text ++ [lf]) =
      atLine (s.processLine (line ++ text)) := by
  rw [run_append, run_singleLine h, run_cons, feed_lf, run_nil]

end Parser

/-! ### What has been dispatched -/

theorem Buffers.events_prefix_dispatch (s : Buffers) : s.events <+: s.dispatch.events := by
  rw [dispatch]
  split
  · exact List.prefix_rfl
  · exact List.prefix_append _ _

@[simp]
theorem Buffers.events_processField (s : Buffers) (field value : List UInt8) :
    (s.processField field value).events = s.events := by
  unfold processField
  split_ifs <;> rfl

theorem Buffers.events_prefix_processLine (s : Buffers) (line : List UInt8) :
    s.events <+: (s.processLine line).events := by
  unfold processLine
  split_ifs
  · exact s.events_prefix_dispatch
  · exact List.prefix_rfl
  · simp

/-- An event that has been dispatched stays. -/
theorem Parser.events_prefix_run (p : Parser) (bytes : List UInt8) :
    p.buffers.events <+: (p.run bytes).buffers.events := by
  induction bytes generalizing p with
  | nil => exact List.prefix_rfl
  | cons b bytes ih =>
    rw [Parser.run_cons]
    refine List.IsPrefix.trans ?_ (ih (p.feed b))
    -- Only a byte that ends a line can dispatch anything.
    unfold Parser.feed
    split_ifs
    · exact List.prefix_rfl
    · exact p.buffers.events_prefix_processLine p.line
    · exact List.prefix_rfl

/-! ### Data with line breaks -/

/-- The events start with the given ones, and go on with one that has fewer than `k` bytes of
data. -/
def Shortened (before : List Event) (k : ℕ) (p : Parser) : Prop :=
  ∃ e, before ++ [e] <+: p.buffers.events ∧ e.data.length < k

/-- An event is being read that has some data, and its data will not have more than `k` bytes if
the present line is the last one of it. -/
structure Reading (before : List Event) (k : ℕ) (p : Parser) : Prop where
  events_eq : p.buffers.events = before
  line_eq : p.afterCr = true → p.line = []
  getLast?_data : p.buffers.data.getLast? = some lf
  length_le : p.buffers.data.length + p.line.length ≤ k

variable {before : List Event} {k : ℕ} {p : Parser}

theorem Shortened.run (h : Shortened before k p) (bytes : List UInt8) :
    Shortened before k (p.run bytes) := by
  obtain ⟨e, hprefix, hlt⟩ := h
  exact ⟨e, hprefix.trans (p.events_prefix_run bytes), hlt⟩

theorem Shortened.mono (h : Shortened before k p) {k' : ℕ} (hle : k ≤ k') :
    Shortened before k' p := by
  obtain ⟨e, hprefix, hlt⟩ := h
  exact ⟨e, hprefix, Nat.lt_of_lt_of_le hlt hle⟩

/-- A name and its value are in their line. -/
theorem length_fieldName_add_length_fieldValue_le (line : List UInt8) :
    (fieldName line).length + (fieldValue line).length ≤ line.length := by
  have hvalue : (fieldValue line).length ≤ (line.dropWhile (· ≠ colon)).length := by
    unfold fieldValue
    simp only
    split_ifs <;> simp only [List.length_drop] <;> omega
  calc (fieldName line).length + (fieldValue line).length
      ≤ (line.takeWhile (· ≠ colon)).length + (line.dropWhile (· ≠ colon)).length :=
        Nat.add_le_add_left hvalue _
    _ = line.length := by rw [← List.length_append, List.takeWhile_append_dropWhile]

/-- An empty line dispatches the event, and the last line feed is removed from its data. -/
theorem Reading.dispatch (h : Reading before k p) (afterCr : Bool) :
    Shortened before k ⟨[], afterCr, p.buffers.dispatch⟩ := by
  obtain ⟨hevents, -, hlf, hle⟩ := h
  -- There are data to dispatch, and their last byte is the line feed that is removed.
  have hdata : p.buffers.data ≠ [] := by
    intro hnil
    rw [hnil] at hlf
    exact absurd hlf (by simp)
  have hpos := List.length_pos_iff.mpr hdata
  refine ⟨p.buffers.event, ?_, ?_⟩
  · simp [Buffers.dispatch, hdata, hevents]
  · rw [Buffers.event, if_pos hlf, List.length_dropLast]
    omega

/-- A line break ends the line. The event is dispatched, or its data grow by less than the length
of the line. -/
theorem Reading.breakLine (h : Reading before k p) (afterCr : Bool) :
    Shortened before k ⟨[], afterCr, p.buffers.processLine p.line⟩ ∨
      Reading before k ⟨[], afterCr, p.buffers.processLine p.line⟩ := by
  have hle := h.length_le
  have hlf := h.getLast?_data
  unfold Buffers.processLine
  split_ifs with hempty hcomment
  -- An empty line, a comment, and a field: only a field can add to the data.
  · exact Or.inl (h.dispatch afterCr)
  · exact Or.inr ⟨h.events_eq, fun _ => rfl, hlf, by simp only [List.length_nil]; omega⟩
  · refine Or.inr ⟨by rw [Buffers.events_processField, h.events_eq], fun _ => rfl, ?_, ?_⟩
    · show (p.buffers.processField _ _).data.getLast? = some lf
      unfold Buffers.processField
      split_ifs
      · exact hlf
      · rw [List.getLast?_concat]
      · exact hlf
      · exact hlf
      · exact hlf
    · show (p.buffers.processField _ _).data.length + 0 ≤ k
      have hline := length_fieldName_add_length_fieldValue_le p.line
      unfold Buffers.processField
      split_ifs with hevent hname
      · show p.buffers.data.length + 0 ≤ k
        omega
      · -- The value and its line feed are shorter than the name and the value.
        rw [hname] at hline
        have hfour : (name "data").length = 4 := rfl
        simp only [List.length_append, List.length_singleton]
        omega
      all_goals
        show p.buffers.data.length + 0 ≤ k
        omega

/-- More of the text is read. The data grow by no more than the text with its line breaks written
as LF. -/
theorem Reading.run (h : Reading before k p) (text : List UInt8) :
    Shortened before (k + (normalizeFrom p.afterCr text).length) (p.run text) ∨
      Reading before (k + (normalizeFrom p.afterCr text).length) (p.run text) := by
  induction text generalizing k p with
  | nil => exact Or.inr h
  | cons b text ih =>
    -- The bound grows with each byte of the text that counts.
    have hmono : ∀ {k' : ℕ} {q : Parser}, k ≤ k' → Reading before k q → Reading before k' q :=
      fun hle hq => ⟨hq.events_eq, hq.line_eq, hq.getLast?_data, Nat.le_trans hq.length_le hle⟩
    rw [Parser.run_cons, normalizeFrom]
    by_cases hafter : b = lf ∧ p.afterCr = true
    -- A line feed that belongs to a carriage return counts on neither side.
    · rw [Parser.feed, if_pos hafter, if_pos hafter]
      exact ih (p := { p with afterCr := false })
        ⟨h.events_eq, fun hfalse => absurd hfalse (by simp), h.getLast?_data, h.length_le⟩
    by_cases hbreak : b = lf ∨ b = cr
    · rw [Parser.feed, if_neg hafter, if_neg hafter, if_pos hbreak, if_pos hbreak]
      have hlength : k + (lf :: normalizeFrom (b == cr) text).length =
          k + 1 + (normalizeFrom (b == cr) text).length := by
        rw [List.length_cons]
        omega
      rw [hlength]
      -- A line ends: its line break is the byte more that the data may have.
      rcases h.breakLine (b == cr) with hshort | hreading
      · exact Or.inl ((hshort.run text).mono (by omega))
      · exact ih (hmono (Nat.le_succ k) hreading)
    · rw [Parser.feed_of_not_break hbreak, if_neg hafter, if_neg hbreak]
      have hlength : k + (b :: normalizeFrom false text).length =
          k + 1 + (normalizeFrom false text).length := by
        rw [List.length_cons]
        omega
      -- The byte goes into the line that is being read.
      have hlonger := h.length_le
      rw [hlength]
      refine ih (p := ⟨p.line ++ [b], false, p.buffers⟩)
        ⟨h.events_eq, fun hfalse => absurd hfalse (by simp), h.getLast?_data, ?_⟩
      show p.buffers.data.length + (p.line ++ [b]).length ≤ k + 1
      rw [List.length_append, List.length_singleton]
      omega

/-- Two line feeds dispatch the event. -/
theorem Reading.shortened_run (h : Reading before k p) : Shortened before k (p.run [lf, lf]) := by
  obtain ⟨line, afterCr, s⟩ := p
  by_cases hafter : afterCr = true
  · -- The first line feed belongs to a carriage return.
    obtain rfl : line = [] := h.line_eq hafter
    rw [Parser.run_cons, Parser.feed, if_pos ⟨rfl, hafter⟩, Parser.run_cons, Parser.feed_lf]
    exact h.dispatch false
  · obtain rfl : afterCr = false := by simpa using hafter
    rw [Parser.run_cons, Parser.feed_lf]
    rcases h.breakLine false with hshort | hreading
    · exact hshort.run [lf]
    · rw [Parser.run_cons, Parser.atLine, Parser.feed_lf]
      exact hreading.dispatch false

/-- A text with a line break inside starts with a line. -/
theorem exists_firstBreak {text : List UInt8} (h : ¬ SingleLine text) :
    ∃ line b rest, text = line ++ b :: rest ∧ SingleLine line ∧ (b = lf ∨ b = cr) := by
  induction text with
  | nil => exact absurd (by decide) h
  | cons b text ih =>
    by_cases hb : b = lf ∨ b = cr
    · exact ⟨[], b, text, rfl, by decide, hb⟩
    · obtain ⟨line, b', rest, rfl, hline, hb'⟩ :=
        ih fun htext => h (singleLine_cons.mpr ⟨hb, htext⟩)
      exact ⟨b :: line, b', rest, rfl, singleLine_cons.mpr ⟨hb, hline⟩, hb'⟩

/-- Data with a line break inside are cut short: the next event that is dispatched has fewer data
than the text with its line breaks written as LF. -/
theorem exists_shorter_event (s : Buffers) (hdata : s.data = []) {text : List UInt8}
    (h : ¬ SingleLine text) :
    Shortened s.events (normalize text).length
      ((Parser.atLine s).run (name "data: " ++ (text ++ [lf, lf]))) := by
  obtain ⟨line, b, rest, rfl, hline, hb⟩ := exists_firstBreak h
  -- The first of the lines is read as the data of the event.
  have hfield : s.processLine (name "data: " ++ line) = { s with data := line ++ [lf] } := by
    rw [show name "data: " ++ line = name "data" ++ colon :: space :: line from rfl,
      Buffers.processLine_field s (by decide) (by decide), Buffers.processField,
      if_neg (by decide), if_pos rfl, hdata]
    rfl
  have hfeed : (⟨name "data: " ++ line, false, s⟩ : Parser).feed b =
      ⟨[], b == cr, { s with data := line ++ [lf] }⟩ := by
    rw [Parser.feed, if_neg (by simp), if_pos hb, hfield]
  have hreading : Reading s.events (line.length + 1)
      ⟨[], b == cr, { s with data := line ++ [lf] }⟩ :=
    ⟨rfl, fun _ => rfl, List.getLast?_concat, by simp⟩
  -- The first line counts with one line feed, however its line break is written.
  have hnormalize : (normalize (line ++ b :: rest)).length =
      line.length + 1 + (normalizeFrom (b == cr) rest).length := by
    rw [normalize, normalizeFrom_singleLine hline, normalizeFrom, if_neg (by simp), if_pos hb,
      List.length_append, List.length_cons]
    omega
  rw [Parser.run_append, Parser.atLine, Parser.run_singleLine (by decide), List.nil_append,
    List.append_assoc, Parser.run_append, Parser.run_singleLine hline, List.cons_append,
    Parser.run_cons, hfeed, Parser.run_append, hnormalize]
  -- The rest of the text adds less than its length, and then the event is dispatched.
  rcases hreading.run rest with hshort | hrest
  · exact hshort.run _
  · exact hrest.shortened_run

/-! ### Single-line fields -/

/-- A line with a field that has a value without line breaks. -/
theorem Parser.run_field {field value : List UInt8} (hne : field ≠ []) (hcolon : colon ∉ field)
    (hfield : SingleLine field) (hvalue : SingleLine value) (s : Buffers) :
    (atLine s).run (field ++ (colon :: space :: (value ++ [lf]))) =
      atLine (s.processField field value) := by
  have hrun := run_line (singleLine_fieldLine hfield hvalue) [] s
  rw [List.nil_append, Buffers.processLine_field s hne hcolon] at hrun
  rw [← hrun, List.append_assoc]
  rfl

/-- An empty line dispatches an event with the data of one field. -/
theorem Buffers.dispatch_data (s : Buffers) (data : List UInt8) :
    ({ s with data := data ++ [lf] } : Buffers).dispatch =
      { s with
        data := []
        eventType := []
        events := s.events ++
          [⟨if s.eventType = [] then name "message" else s.eventType, data, s.lastEventId⟩] } := by
  rw [dispatch, if_neg (by simp), event]
  simp

/-- Data without line breaks are dispatched as they are. -/
theorem Parser.run_data {data : List UInt8} (h : SingleLine data) (s : Buffers)
    (hs : s.data = []) :
    (atLine s).run (name "data: " ++ (data ++ [lf, lf])) =
      atLine { s with
        data := []
        eventType := []
        events := s.events ++
          [⟨if s.eventType = [] then name "message" else s.eventType, data, s.lastEventId⟩] } := by
  have hfield := run_field (show name "data" ≠ [] by decide) (by decide) (by decide) h s
  rw [Buffers.processField, if_neg (by decide), if_pos rfl, hs, List.nil_append] at hfield
  have hbytes : name "data: " ++ (data ++ [lf, lf]) =
      name "data" ++ (colon :: space :: (data ++ [lf])) ++ [lf] := by
    rw [show name "data: " = name "data" ++ [colon, space] from rfl]
    simp
  rw [hbytes, run_append, hfield, run_cons, atLine, feed_lf, run_nil, Buffers.processLine_nil,
    Buffers.dispatch_data]

end EventStream
