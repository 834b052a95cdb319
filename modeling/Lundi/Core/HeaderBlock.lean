import Lundi.Core.HeaderParsing
import Mathlib.Data.List.TakeWhile

/-!
# Header lines with optional blanks

A header line is `name ":" OWS value OWS`, where `OWS` is any run of blanks. `parse_headers` takes
the blanks in front of a value away and leaves those behind it, so that the fields of a head are
stored as they are written exactly when no line has blanks behind a value that is not empty
(`parsedExactly_iff`).
-/

namespace Lundi

/-- The bytes of a token: letters, digits and fifteen other characters. -/
def isTokenByte (b : UInt8) : Bool :=
  (48 ≤ b && b ≤ 57) || (65 ≤ b && b ≤ 90) || (97 ≤ b && b ≤ 122) ||
    b ∈ [33, 35, 36, 37, 38, 39, 42, 43, 45, 46, 94, 95, 96, 124, 126]

/-- A header line. -/
structure HeaderLine where
  name : Bytes
  /-- The blanks in front of the value. -/
  before : Bytes
  value : Bytes
  /-- The blanks behind the value. -/
  behind : Bytes
  name_ne_nil : name ≠ []
  isTokenByte_name : ∀ b ∈ name, isTokenByte b = true
  isBlank_before : ∀ b ∈ before, isBlank b = true
  isBlank_behind : ∀ b ∈ behind, isBlank b = true
  unbroken_value : Unbroken value
  head?_value : ∀ b ∈ value.head?, isBlank b = false
  getLast?_value : ∀ b ∈ value.getLast?, isBlank b = false

namespace HeaderLine

/-- The line as it is sent, without its terminator. -/
def text (line : HeaderLine) : Bytes :=
  line.name ++ colon :: (line.before ++ line.value ++ line.behind)

/-- The name and the value that the line stands for. -/
def field (line : HeaderLine) : Bytes × Bytes := (line.name, line.value)

variable (line : HeaderLine)

theorem notMem_name {b : UInt8} (hb : isTokenByte b = false) : b ∉ line.name := fun h => by
  rw [line.isTokenByte_name b h] at hb
  cases hb

theorem unbroken_blanks {s : Bytes} (h : ∀ b ∈ s, isBlank b = true) : Unbroken s :=
  ⟨fun hcr => absurd (h _ hcr) (by decide), fun hlf => absurd (h _ hlf) (by decide)⟩

theorem isLine_text : IsLine line.text := by
  have hname : Unbroken line.name :=
    ⟨line.notMem_name (by decide), line.notMem_name (by decide)⟩
  have hvalue : Unbroken (line.before ++ line.value ++ line.behind) :=
    unbroken_append.mpr ⟨unbroken_append.mpr ⟨unbroken_blanks line.isBlank_before,
      line.unbroken_value⟩, unbroken_blanks line.isBlank_behind⟩
  have hcolon : Unbroken [colon] := by decide
  exact ⟨by simp [text], unbroken_append.mpr ⟨hname, unbroken_append.mpr ⟨hcolon, hvalue⟩⟩⟩

/-- What is read as the value of the line. -/
def readValue : Bytes := if line.value = [] then [] else line.value ++ line.behind

/-- The blanks behind a value are read as a part of it. -/
theorem fieldOf_text : fieldOf line.text = some (line.name, line.readValue) := by
  rw [text, fieldOf_append_colon (line.notMem_name (by decide)), readValue, List.append_assoc,
    List.dropWhile_append_of_pos line.isBlank_before]
  split
  next hnil => rw [hnil, List.nil_append, List.dropWhile_eq_nil_iff.mpr line.isBlank_behind]
  next hne =>
    have hhead : ∀ b ∈ (line.value ++ line.behind).head?, isBlank b = false := by
      rw [List.head?_append_of_ne_nil _ hne]
      exact line.head?_value
    rw [dropWhile_isBlank_eq_self hhead]

theorem readValue_eq_value_iff : line.readValue = line.value ↔
    line.value = [] ∨ line.behind = [] := by
  rw [readValue]
  split
  next hnil => simp [hnil]
  next hne => simp [hne]

end HeaderLine

/-- A request head: a request line and header lines, of which there is room for all. -/
structure RequestHead where
  requestLine : Bytes
  lines : List HeaderLine
  requestLine_unbroken : ¬ crlf <:+: requestLine
  length_lines_le : lines.length ≤ maxHeaders

namespace RequestHead

/-- The head as it is sent. -/
def bytes (head : RequestHead) : Bytes :=
  headOf (head.requestLine :: head.lines.map HeaderLine.text)

/-- The fields of the head are those of its lines. -/
theorem fields_bytes (head : RequestHead) :
    fields head.bytes = head.lines.map fun line => (line.name, line.readValue) := by
  have hlines : ∀ x ∈ head.lines.map HeaderLine.text, IsLine x := by
    rw [List.forall_mem_map]
    exact fun line _ => line.isLine_text
  have hne : ∀ x ∈ head.lines.map HeaderLine.text, decide (x ≠ []) = true := fun x hx => by
    simpa using (hlines x hx).1
  rw [fields, headerLines, bytes, headOf_cons,
    terminatedLines_append head.requestLine_unbroken, List.drop_succ_cons, List.drop_zero,
    terminatedLines_headOf hlines, List.takeWhile_append_of_pos hne,
    List.takeWhile_cons_of_neg (by simp), List.append_nil, List.filterMap_map,
    ← List.filterMap_eq_map]
  exact List.filterMap_congr fun line _ => line.fieldOf_text

/-- The head has been read exactly: the stored names and values are those of the lines, and for
each line that is the first with its name, `header_equals` holds of its name and its value. -/
def ReadExactly (head : RequestHead) (req : Request) : Prop :=
  fieldsRead req = head.lines.map HeaderLine.field ∧
    ∀ front line rest, head.lines = front ++ line :: rest →
      (∀ l ∈ front, equalsIgnoreCase l.name line.name = false) →
      req.headerEquals line.name line.value = true

/-- `parse_headers` reads the head exactly, wherever it is stored. -/
def ParsedExactly (head : RequestHead) : Prop :=
  ∀ data : StringView, data.bytes = head.bytes → head.ReadExactly (parseHeaders data)

end RequestHead

theorem equalsIgnoreCase_self (s : Bytes) : equalsIgnoreCase s s = true := beq_self_eq_true _

/-- `header_equals` looks at the first stored field with the name. -/
theorem headerEquals_of_fieldsRead {req : Request} {front rest : List (Bytes × Bytes)}
    {name value : Bytes} (h : fieldsRead req = front ++ (name, value) :: rest)
    (hfront : ∀ f ∈ front, equalsIgnoreCase f.1 name = false) :
    req.headerEquals name value = true := by
  have hfind : (req.findHeaderCi name).map StringView.bytes = some value := by
    rw [findHeaderCi_eq, h, valuesOf_append, valuesOf_eq_nil hfront, List.nil_append,
      ← List.singleton_append, valuesOf_append, valuesOf_singleton (equalsIgnoreCase_self name),
      List.singleton_append, List.head?_cons]
  obtain ⟨v, hv, hbytes⟩ := Option.map_eq_some_iff.mp hfind
  rw [Request.headerEquals, hv, ← hbytes]
  exact equalsIgnoreCase_self _

/-- The parser stores what is read as the values of the lines. -/
theorem fieldsRead_parseHeaders_bytes (head : RequestHead) {data : StringView}
    (hdata : data.bytes = head.bytes) :
    fieldsRead (parseHeaders data) = head.lines.map fun line => (line.name, line.readValue) := by
  rw [fieldsRead_parseHeaders, hdata, head.fields_bytes,
    List.take_of_length_le (by rw [List.length_map]; exact head.length_lines_le)]

/-- A head is parsed exactly when and only when no blanks stand behind a value, unless the value
is empty. -/
theorem parsedExactly_iff (head : RequestHead) :
    head.ParsedExactly ↔ ∀ line ∈ head.lines, line.value = [] ∨ line.behind = [] := by
  constructor
  · intro h
    have hstored := (h ⟨.null, 0, head.bytes⟩ rfl).1
    rw [fieldsRead_parseHeaders_bytes head rfl, List.map_inj_left] at hstored
    intro line hline
    exact line.readValue_eq_value_iff.mp (congrArg Prod.snd (hstored line hline))
  · intro h data hdata
    have hstored : fieldsRead (parseHeaders data) = head.lines.map HeaderLine.field := by
      rw [fieldsRead_parseHeaders_bytes head hdata]
      apply List.map_congr_left
      intro line hline
      rw [line.readValue_eq_value_iff.mpr (h line hline), HeaderLine.field]
    refine ⟨hstored, ?_⟩
    intro front line rest hlines hfirst
    rw [hlines, List.map_append, List.map_cons] at hstored
    refine headerEquals_of_fieldsRead hstored ?_
    rw [List.forall_mem_map]
    exact hfirst

/-- A header line with a blank at its end. -/
def paddedLine : HeaderLine where
  name := ascii "Connection"
  before := [sp]
  value := ascii "close"
  behind := [sp]
  name_ne_nil := by decide
  isTokenByte_name := by
    have hall : (ascii "Connection").all isTokenByte = true := by decide +kernel
    exact List.all_eq_true.mp hall
  isBlank_before := List.forall_mem_singleton.mpr rfl
  isBlank_behind := List.forall_mem_singleton.mpr rfl
  unbroken_value := by decide
  head?_value := by
    intro b hb
    obtain rfl : 99 = b := Option.some_inj.mp hb
    rfl
  getLast?_value := by
    intro b hb
    obtain rfl : 101 = b := Option.some_inj.mp hb
    rfl

/-- A head with this line. -/
def paddedHead : RequestHead := ⟨ascii "GET / HTTP/1.1", [paddedLine], by decide, by decide⟩

/-- The blank behind `close` is stored with it. -/
theorem not_parsedExactly : ¬ ∀ head : RequestHead, head.ParsedExactly := by
  intro h
  have hequals := (h paddedHead ⟨.null, 0, paddedHead.bytes⟩ rfl).2 [] paddedLine [] rfl
    fun line hline => absurd hline List.not_mem_nil
  have hstored : (parseHeaders ⟨.null, 0, paddedHead.bytes⟩).headerEquals paddedLine.name
      paddedLine.value = false := by
    decide +kernel
  rw [hstored] at hequals
  exact absurd hequals Bool.false_ne_true

end Lundi
