import Lundi.Core.Request
import Lundi.Engine.HeaderScan
import Mathlib.Algebra.Group.Nat.Defs
import Mathlib.Logic.Function.Basic

/-!
# Multipart forms

`detail::parse_multipart`, `detail::extract_boundary` and `request::form`. A turn of the parser's
loop is a function from the position of a delimiter to the positions it computes, and each
`substr` is a `slice` between two of them, with the length as `size_t` computes it.

The loop has a step budget of one more than the size of the body; `parseLoop_eq_some` says that it
is never used up.
-/

namespace Lundi

open Search

/-- `form_file`. -/
structure FormFile where
  filename : Bytes
  contentType : Bytes
  data : Bytes
  deriving DecidableEq

/-- `form_data`; an unordered map is a function from its keys. -/
structure FormData where
  /-- Text fields by name. -/
  fields : Bytes → Option Bytes
  /-- Uploaded files by name. -/
  files : Bytes → Option FormFile

/-- A default-constructed form. -/
def FormData.empty : FormData := ⟨fun _ => none, fun _ => none⟩

/-- A difference of type `size_t`. -/
def sizeSub (a b : ℕ) : ℕ := if b ≤ a then a - b else 2 ^ 64 - (b - a)

/-- `substr( first, last - first )`. -/
def slice (s : Bytes) (first last : ℕ) : Bytes := (s.drop first).take (sizeSub last first)

theorem slice_eq (s : Bytes) {first last : ℕ} (h : first ≤ last) :
    slice s first last = (s.drop first).take (last - first) := by
  rw [slice, sizeSub, if_pos h]

/-- A text that stands at a position. -/
theorem slice_of_drop {s a b : Bytes} {first : ℕ} (h : s.drop first = a ++ b) :
    slice s first (a.length + first) = a := by
  rw [slice_eq s (Nat.le_add_left first a.length), Nat.add_sub_cancel, h, List.take_left]

/-! ### The attributes of a part -/

/-- The bounds of the text between a key that ends in a quotation mark and the next mark. -/
def quotedBounds (headers key : Bytes) : Option (ℕ × ℕ) :=
  match find key headers with
  | none => none
  | some p =>
    match findFrom [34] headers (p + key.length) with
    | none => none
    | some last => some (p + key.length, last)

/-- The bounds of the text from `Content-Type: ` to the end of the line. -/
def contentTypeBounds (headers : Bytes) : Option (ℕ × ℕ) :=
  let ctPos :=
    match find (ascii "Content-Type: ") headers with
    | some p => some p
    | none => find (ascii "content-type: ") headers
  match ctPos with
  | none => none
  | some p => some (p + 14, (findFrom crlf headers (p + 14)).getD headers.length)

/-- The text between bounds, empty when there are none. -/
def textAt (headers : Bytes) : Option (ℕ × ℕ) → Bytes
  | none => []
  | some (first, last) => slice headers first last

/-- `name`. -/
def partName (headers : Bytes) : Bytes := textAt headers (quotedBounds headers (ascii "name=\""))

/-- `filename`. -/
def partFilename (headers : Bytes) : Bytes :=
  textAt headers (quotedBounds headers (ascii "filename=\""))

/-- `content_type`. -/
def partContentType (headers : Bytes) : Bytes := textAt headers (contentTypeBounds headers)

/-- The end of a turn: a part without a name is skipped, one with a file name is a file. -/
def storePart (headers body : Bytes) (result : FormData) : FormData :=
  if partName headers = [] then result
  else if partFilename headers ≠ [] then
    { result with files := Function.update result.files (partName headers) (some {
        filename := partFilename headers
        contentType :=
          if partContentType headers = [] then ascii "application/octet-stream"
          else partContentType headers
        data := body }) }
  else { result with fields := Function.update result.fields (partName headers) (some body) }

/-! ### The loop -/

/-- Where the headers of a part start and end. -/
structure HeaderSpan where
  start : ℕ
  headerEnd : ℕ
  deriving DecidableEq

/-- The first half of a turn, from a delimiter at `pos` to the end of the part headers; nothing
stands for a `break`. -/
def headerSpan (body delim : Bytes) (pos : ℕ) : Option HeaderSpan :=
  let pos := pos + delim.length
  if pos + 2 > body.length then none
  else if body[pos]? = some 45 ∧ body[pos + 1]? = some 45 then none
  else
    let pos := if body[pos]? = some cr then pos + 2 else pos
    match findFrom headerTerminator body pos with
    | none => none
    | some headerEnd => some ⟨pos, headerEnd⟩

/-- The positions of a part; `next` is the delimiter behind it. -/
structure PartSpan extends HeaderSpan where
  next : ℕ
  deriving DecidableEq

/-- The positions that a turn computes. -/
def partSpan (body delim : Bytes) (pos : ℕ) : Option PartSpan :=
  match headerSpan body delim pos with
  | none => none
  | some span =>
    match findFrom delim body (span.headerEnd + 4) with
    | none => none
    | some next => some ⟨span, next⟩

/-- `part_headers`. -/
def HeaderSpan.headers (span : HeaderSpan) (body : Bytes) : Bytes :=
  slice body span.start span.headerEnd

/-- Where the body of the part starts. -/
def HeaderSpan.contentStart (span : HeaderSpan) : ℕ := span.headerEnd + 4

/-- `body_end`: a line terminator in front of the delimiter is left out. -/
def PartSpan.bodyEnd (part : PartSpan) (body : Bytes) : ℕ :=
  if 2 ≤ part.next ∧ body[part.next - 2]? = some cr ∧ body[part.next - 1]? = some lf then
    part.next - 2
  else part.next

/-- `part_body`. -/
def PartSpan.content (part : PartSpan) (body : Bytes) : Bytes :=
  slice body part.contentStart (part.bodyEnd body)

/-- The loop of `parse_multipart` from a delimiter at `pos` on, if the budget is sufficient. -/
def parseLoop (body delim : Bytes) : ℕ → ℕ → FormData → Option FormData
  | 0, _, _ => none
  | budget + 1, pos, result =>
    match partSpan body delim pos with
    | none => some result
    | some part =>
      parseLoop body delim budget part.next
        (storePart (part.headers body) (part.content body) result)

/-- `delim`. -/
def delimiter (boundary : Bytes) : Bytes := ascii "--" ++ boundary

/-- `detail::parse_multipart`. -/
def parseMultipart (body boundary : Bytes) : FormData :=
  match find (delimiter boundary) body with
  | none => .empty
  | some pos =>
    (parseLoop body (delimiter boundary) (body.length + 1) pos .empty).getD .empty

/-! ### The request -/

/-- The loop of `extract_boundary` that goes back over trailing blanks. -/
def trimLoop (contentType : Bytes) (bp : ℕ) : ℕ → ℕ
  | 0 => 0
  | last + 1 =>
    if last + 1 > bp ∧ (contentType[last]? = some sp ∨ contentType[last]? = some cr) then
      trimLoop contentType bp last
    else last + 1

/-- `detail::extract_boundary`. -/
def extractBoundary (contentType : Bytes) : Bytes :=
  match find (ascii "boundary=") contentType with
  | none => []
  | some p =>
    let bp := p + 9
    if contentType[bp]? = some 34 then
      match findFrom [34] contentType (bp + 1) with
      | none => []
      | some last => slice contentType (bp + 1) last
    else
      let last := (findFrom [59] contentType bp).getD contentType.length
      slice contentType bp (trimLoop contentType bp last)

/-- `request::form`. -/
def Request.form (req : Request) : FormData :=
  match req.findHeaderCi (ascii "content-type") with
  | none => .empty
  | some ct =>
    if find (ascii "multipart/form-data") ct.bytes = none then .empty
    else if extractBoundary ct.bytes = [] then .empty
    else parseMultipart req.body.bytes (extractBoundary ct.bytes)

/-! ### Positions -/

/-- A search from a position returns a position behind it. -/
theorem findFrom_spec {p l : Bytes} {pos i : ℕ} (h : findFrom p l pos = some i) (hp : p ≠ []) :
    pos ≤ i ∧ i + p.length ≤ l.length ∧ p <+: l.drop i ∧
      ∀ j, pos ≤ j → j < i → ¬ p <+: l.drop j := by
  obtain ⟨k, hk, rfl⟩ := Option.map_eq_some_iff.mp h
  have hlen := length_le_of_find_eq_some hk
  obtain ⟨hat, hbefore⟩ := find_eq_some_iff.mp hk
  have hpos : 0 < p.length := List.length_pos_iff.mpr hp
  rw [List.length_drop] at hlen
  rw [List.drop_drop] at hat
  refine ⟨by omega, by omega, by rwa [Nat.add_comm k pos], fun j hle hlt hpre => ?_⟩
  apply hbefore (j - pos) (by omega)
  rw [List.drop_drop]
  rwa [Nat.add_sub_cancel' hle]

theorem delimiter_ne_nil (boundary : Bytes) : delimiter boundary ≠ [] := by
  simp [delimiter, ascii]

/-- What the first half of a turn guarantees. -/
theorem headerSpan_spec {body delim : Bytes} {pos : ℕ} {span : HeaderSpan}
    (h : headerSpan body delim pos = some span) :
    pos + delim.length ≤ span.start ∧ span.start ≤ span.headerEnd ∧
      span.contentStart ≤ body.length ∧ headerTerminator <+: body.drop span.headerEnd := by
  simp only [headerSpan] at h
  split at h
  · exact absurd h (by simp)
  · split at h
    · exact absurd h (by simp)
    · split at h
      · exact absurd h (by simp)
      next headerEnd hend =>
        obtain rfl := Option.some_inj.mp h
        obtain ⟨hle, hlen, hat, -⟩ := findFrom_spec hend (by decide)
        refine ⟨?_, hle, hlen, hat⟩
        simp only
        split
        · exact Nat.le_add_right _ 2
        · exact le_rfl

/-- What a turn that finds a part guarantees. -/
theorem partSpan_spec {body delim : Bytes} {pos : ℕ} {part : PartSpan}
    (h : partSpan body delim pos = some part) (hdelim : delim ≠ []) :
    headerSpan body delim pos = some part.toHeaderSpan ∧ part.contentStart ≤ part.next ∧
      part.next + delim.length ≤ body.length ∧ delim <+: body.drop part.next ∧
      ∀ j, part.contentStart ≤ j → j < part.next → ¬ delim <+: body.drop j := by
  rw [partSpan] at h
  split at h
  · exact absurd h (by simp)
  next span hspan =>
    split at h
    · exact absurd h (by simp)
    next next hnext =>
      obtain rfl := Option.some_inj.mp h
      exact ⟨hspan, findFrom_spec hnext hdelim⟩

/-- Each turn gets closer to the end of the body. -/
theorem lt_next_of_partSpan {body delim : Bytes} {pos : ℕ} {part : PartSpan}
    (h : partSpan body delim pos = some part) (hdelim : delim ≠ []) :
    pos + delim.length + 4 ≤ part.next ∧ part.next < body.length := by
  obtain ⟨hspan, hle, hlen, -, -⟩ := partSpan_spec h hdelim
  obtain ⟨hstart, hend, -, -⟩ := headerSpan_spec hspan
  have hpos : 0 < delim.length := List.length_pos_iff.mpr hdelim
  rw [HeaderSpan.contentStart] at hle
  omega

/-- The budget is sufficient when it is larger than what is left of the body. -/
theorem parseLoop_eq_some {body delim : Bytes} (hdelim : delim ≠ []) {budget pos : ℕ}
    (h : body.length - pos < budget) (result : FormData) :
    ∃ form, parseLoop body delim budget pos result = some form := by
  induction budget generalizing pos result with
  | zero => exact absurd h (Nat.not_lt_zero _)
  | succ budget ih =>
    rw [parseLoop]
    cases hpart : partSpan body delim pos with
    | none => exact ⟨result, rfl⟩
    | some part =>
      have hlt := lt_next_of_partSpan hpart hdelim
      exact ih (by omega) _

/-- A larger budget changes nothing. -/
theorem parseLoop_mono {body delim : Bytes} {budget budget' pos : ℕ} {result form : FormData}
    (h : parseLoop body delim budget pos result = some form) (hle : budget ≤ budget') :
    parseLoop body delim budget' pos result = some form := by
  induction budget generalizing budget' pos result with
  | zero => exact absurd h (by simp [parseLoop])
  | succ budget ih =>
    obtain ⟨more, rfl⟩ := Nat.exists_eq_add_of_le hle
    have hbudget : budget + 1 + more = (budget + more) + 1 := by omega
    rw [hbudget, parseLoop]
    rw [parseLoop] at h
    cases hpart : partSpan body delim pos with
    | none =>
      rw [hpart] at h
      exact h
    | some part =>
      rw [hpart] at h
      exact ih h (Nat.le_add_right budget more)

end Lundi
