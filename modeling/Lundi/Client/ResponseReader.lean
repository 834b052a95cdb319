import Lundi.Core.FromChars
import Lundi.Core.HeaderFields
import Mathlib.Data.List.DropRight

/-!
# An HTTP client

What the peer of the server makes of the bytes it receives: it splits off the head of a response at
the first empty line, reads the status and the fields, and takes as many bytes for the body as the
`Content-Length` field says. A response with a transfer coding, or without exactly one length, is
not understood. The method of the request matters: the answer to `HEAD` has no body, whatever its
fields say, and so has a success that answers `CONNECT`.

* `readResponse_append`: a head that is put together from fields, and a body, are read back, with
  any bytes behind them;
* `readAll_flatMap`: responses that are sent one behind the other are read one by one;
* `readAnswers_flatMap`: so they are when they answer requests of other methods that expect a body.
-/

namespace Lundi

open Search Decimal

/-- A response as a client sees it. -/
structure Message where
  status : ℕ
  fields : List (Bytes × Bytes)
  body : Bytes
  deriving DecidableEq

/-- The status code of a status line: three digits behind the version, with a blank behind. -/
def statusOf (line : Bytes) : Option ℕ :=
  let code := (line.drop 9).take 3
  if ascii "HTTP/1.1 " <+: line ∧ code.length = 3 ∧ IsNumeral code ∧ (line.drop 12).head? = some sp
  then some (value code)
  else none

/-- A value without the blanks around it. -/
def trim (value : Bytes) : Bytes := (value.dropWhile isBlank).rdropWhile isBlank

/-- The fields of a head, their values trimmed. -/
def receivedFields (head : Bytes) : List (Bytes × Bytes) :=
  (fields head).map fun f => (f.1, f.2.rdropWhile isBlank)

/-- The length of the body of a response to a request whose method asks for one. -/
def bodyLength (status : ℕ) (fields : List (Bytes × Bytes)) : Option ℕ :=
  if status < 200 ∨ status = 204 ∨ status = 304 then some 0
  else
    match valuesOf (ascii "transfer-encoding") fields, valuesOf (ascii "content-length") fields with
    | [], [val] => if IsNumeral val then some (value val) else none
    | _, _ => none

/-- The length of the body of a response to a request with this method. -/
def bodyLengthTo (method : Bytes) (status : ℕ) (fields : List (Bytes × Bytes)) : Option ℕ :=
  if method = ascii "HEAD" ∨ (method = ascii "CONNECT" ∧ 200 ≤ status ∧ status < 300) then some 0
  else bodyLength status fields

/-- The response to a request with this method is taken from the front of a stream. -/
def readResponseTo (method stream : Bytes) : Option (Message × Bytes) :=
  match find headerTerminator stream with
  | none => none
  | some i =>
    let head := stream.take (i + 4)
    let rest := stream.drop (i + 4)
    match statusOf ((lines head).headD []) with
    | none => none
    | some status =>
      match bodyLengthTo method status (receivedFields head) with
      | none => none
      | some n =>
        if n ≤ rest.length then some (⟨status, receivedFields head, rest.take n⟩, rest.drop n)
        else none

/-- The response to a `GET` request is taken from the front of a stream. -/
def readResponse (stream : Bytes) : Option (Message × Bytes) := readResponseTo (ascii "GET") stream

/-- Responses are taken from a stream until nothing is left, at most `budget` of them. -/
def readResponses : ℕ → Bytes → Option (List Message)
  | _, [] => some []
  | 0, _ :: _ => none
  | budget + 1, b :: stream =>
    match readResponse (b :: stream) with
    | some (message, rest) => (readResponses budget rest).map (message :: ·)
    | none => none

/-- The responses to `GET` requests that a stream consists of. There are no more of them than
bytes. -/
def readAll (stream : Bytes) : Option (List Message) := readResponses stream.length stream

/-- The responses that a stream consists of, the first to a request with the first of the methods
and so on. There are no more of them than requests. -/
def readAnswers : List Bytes → Bytes → Option (List Message)
  | _, [] => some []
  | [], _ :: _ => none
  | method :: methods, b :: stream =>
    match readResponseTo method (b :: stream) with
    | some (message, rest) => (readAnswers methods rest).map (message :: ·)
    | none => none

/-- A method whose responses have a body where their status and fields say so. -/
def ExpectsBody (method : Bytes) : Prop := method ≠ ascii "HEAD" ∧ method ≠ ascii "CONNECT"

instance (method : Bytes) : Decidable (ExpectsBody method) := by
  unfold ExpectsBody; infer_instance

/-! ### Fields -/

/-- A field as a client sees it. -/
def trimmed (f : Bytes × Bytes) : Bytes × Bytes := (f.1, trim f.2)

/-- A value without blanks around it is not changed. -/
theorem trim_eq_self {value : Bytes} (hfirst : ∀ b ∈ value.head?, isBlank b = false)
    (hlast : ∀ b ∈ value.getLast?, isBlank b = false) : trim value = value := by
  rw [trim, dropWhile_isBlank_eq_self hfirst, List.rdropWhile_eq_self_iff]
  intro hne
  simp [hlast _ (List.getLast?_eq_some_getLast hne)]

/-- Digits are not changed. -/
theorem trim_of_isDigit {value : Bytes} (h : ∀ b ∈ value, isDigit b = true) :
    trim value = value := by
  have hblank : ∀ b ∈ value, isBlank b = false := by
    intro b hb
    rw [isBlank, Bool.or_eq_false_iff, beq_eq_false_iff_ne, beq_eq_false_iff_ne]
    constructor
    · rintro rfl
      exact absurd (h sp hb) (by decide)
    · rintro rfl
      exact absurd (h tab hb) (by decide)
  apply trim_eq_self
  · intro b hb
    exact hblank b (List.mem_of_mem_head? hb)
  · intro b hb
    exact hblank b (List.mem_of_getLast? hb)

theorem valuesOf_map_trimmed (name : Bytes) (fs : List (Bytes × Bytes)) :
    valuesOf name (fs.map trimmed) = (valuesOf name fs).map trim :=
  valuesOf_map name trim fs

/-! ### Methods -/

theorem bodyLengthTo_eq {method : Bytes} (h : ExpectsBody method) (status : ℕ)
    (fields : List (Bytes × Bytes)) :
    bodyLengthTo method status fields = bodyLength status fields :=
  if_neg (by rintro (hhead | ⟨hconnect, -⟩); exacts [h.1 hhead, h.2 hconnect])

/-- Responses to requests that expect a body are read alike. -/
theorem readResponseTo_eq {method : Bytes} (h : ExpectsBody method) (stream : Bytes) :
    readResponseTo method stream = readResponse stream := by
  have hget : ExpectsBody (ascii "GET") := by decide
  simp only [readResponse, readResponseTo, bodyLengthTo_eq h, bodyLengthTo_eq hget]

theorem readResponse_nil : readResponse [] = none := by
  simp [readResponse, readResponseTo, find]

/-! ### Reading back -/

variable {l : Bytes} {fs : List (Bytes × Bytes)}

/-- The fields of a head are those it was put together from, trimmed. -/
theorem receivedFields_headOf (hl : IsLine l) (hfs : ∀ f ∈ fs, CleanField f) :
    receivedFields (headOf (l :: fs.map fieldLine)) = fs.map trimmed := by
  -- The head has them without the blanks in front of their values, the reader removes the others.
  rw [receivedFields, fields_headOf_of_clean hl hfs, List.map_map]
  rfl

/-- A response that is put together from a status line, fields and a body is read back, whatever
comes behind it. -/
theorem readResponse_append {status : ℕ} {body : Bytes} (hl : IsLine l)
    (hfs : ∀ f ∈ fs, CleanField f) (hstatus : statusOf l = some status)
    (hlength : bodyLength status (fs.map trimmed) = some body.length) (rest : Bytes) :
    readResponse (headOf (l :: fs.map fieldLine) ++ body ++ rest) =
      some (⟨status, fs.map trimmed, body⟩, rest) := by
  obtain ⟨i, hi, hend⟩ := Option.map_eq_some_iff.mp
    (find_headerTerminator_headOf (isLine_of_clean hl hfs) (body ++ rest))
  have hfirst : (lines (headOf (l :: fs.map fieldLine))).headD [] = l := by
    rw [headOf_cons, lines_append hl.not_crlf]
    rfl
  have hget : ExpectsBody (ascii "GET") := by decide
  rw [readResponse, readResponseTo, List.append_assoc, hi]
  simp only [hend, List.take_left, List.drop_left, hfirst, hstatus, receivedFields_headOf hl hfs,
    bodyLengthTo_eq hget, hlength]
  rw [if_pos (by rw [List.length_append]; omega)]

/-- What is read one by one is read as a whole. The induction is on the list of what was sent. -/
theorem readResponses_flatMap {α : Type} {encode : α → Bytes} {message : α → Message}
    {xs : List α} (h : ∀ x ∈ xs, ∀ rest, readResponse (encode x ++ rest) = some (message x, rest))
    {budget : ℕ} (hbudget : xs.length ≤ budget) :
    readResponses budget (xs.flatMap encode) = some (xs.map message) := by
  induction xs generalizing budget with
  | nil =>
    rw [List.flatMap_nil, readResponses]
    rfl
  | cons x xs ih =>
    obtain ⟨hx, hxs⟩ := List.forall_mem_cons.mp h
    obtain ⟨budget, rfl⟩ : ∃ b, budget = b + 1 :=
      ⟨budget - 1, by rw [List.length_cons] at hbudget; omega⟩
    have hread := hx (xs.flatMap encode)
    have hrest := ih hxs (show xs.length ≤ budget by rw [List.length_cons] at hbudget; omega)
    rw [List.flatMap_cons]
    cases hstream : encode x ++ xs.flatMap encode with
    | nil =>
      -- Nothing is read from an empty stream.
      rw [hstream, readResponse_nil] at hread
      cases hread
    | cons b stream =>
      rw [hstream] at hread
      rw [readResponses, hread]
      simp only [hrest]
      rfl

/-- Responses that are sent one behind the other are read one by one, and nothing is left. -/
theorem readAll_flatMap {α : Type} (encode : α → Bytes) (message : α → Message) {xs : List α}
    (h : ∀ x ∈ xs, ∀ rest, readResponse (encode x ++ rest) = some (message x, rest)) :
    readAll (xs.flatMap encode) = some (xs.map message) := by
  apply readResponses_flatMap h
  -- Each of them has at least one byte, since nothing is read from an empty stream.
  have hbyte : ∀ x ∈ xs, encode x ≠ [] := by
    intro x hx hnil
    have hread := h x hx []
    rw [hnil, List.nil_append, readResponse_nil] at hread
    cases hread
  clear h
  induction xs with
  | nil => exact Nat.zero_le _
  | cons x xs ih =>
    obtain ⟨hx, hxs⟩ := List.forall_mem_cons.mp hbyte
    have hpos := List.length_pos_iff.mpr hx
    have hrest := ih hxs
    rw [List.flatMap_cons, List.length_append, List.length_cons]
    omega

/-- Responses are read as the answers to requests that expect a body, as long as there are enough
requests. The induction is on the list of what was sent. -/
theorem readAnswers_flatMap {α : Type} {encode : α → Bytes} {message : α → Message} {xs : List α}
    (h : ∀ x ∈ xs, ∀ rest, readResponse (encode x ++ rest) = some (message x, rest))
    {methods : List Bytes} (hmethods : ∀ method ∈ methods, ExpectsBody method)
    (hlength : xs.length ≤ methods.length) :
    readAnswers methods (xs.flatMap encode) = some (xs.map message) := by
  induction xs generalizing methods with
  | nil =>
    rw [List.flatMap_nil, readAnswers]
    rfl
  | cons x xs ih =>
    obtain ⟨hx, hxs⟩ := List.forall_mem_cons.mp h
    obtain ⟨method, methods, rfl⟩ :=
      List.exists_cons_of_length_pos (Nat.lt_of_lt_of_le (Nat.succ_pos _) hlength)
    obtain ⟨hmethod, hothers⟩ := List.forall_mem_cons.mp hmethods
    have hread := hx (xs.flatMap encode)
    have hrest := ih hxs hothers (by simpa using hlength)
    rw [List.flatMap_cons]
    cases hstream : encode x ++ xs.flatMap encode with
    | nil =>
      rw [hstream, readResponse_nil] at hread
      cases hread
    | cons b stream =>
      rw [hstream] at hread
      rw [readAnswers, readResponseTo_eq hmethod, hread]
      simp only [hrest]
      rfl

/-- A single response is read, and nothing is left. -/
theorem readAll_of_readResponse {s : Bytes} {message : Message}
    (h : ∀ rest, readResponse (s ++ rest) = some (message, rest)) : readAll s = some [message] := by
  have hone : ∀ x ∈ [()], ∀ rest, readResponse ((fun _ => s) x ++ rest) =
      some ((fun _ => message) x, rest) := fun _ _ => h
  simpa using readAll_flatMap (fun _ : Unit => s) (fun _ => message) hone

end Lundi
