import Lundi.Server.ContentLength

/-!
# Requests as clients send them

A `RawRequest` is a request put together from its parts, within the limits of a server. Its head
is a request line and header lines, and its body, if it has one, is announced by a single
`Content-Length` field.

* `RawRequest.framing_head`: the head stands for the length of the body;
* `RawRequest.frame_eq`: what a server cuts from the front of a stream that begins with the request.
-/

namespace Lundi

open Search Decimal

/-! ### Requests -/

/-- A part of a request line: not empty, without spaces and line terminators. -/
def IsToken (b : Bytes) : Prop := b ≠ [] ∧ sp ∉ b ∧ cr ∉ b ∧ lf ∉ b

instance (b : Bytes) : Decidable (IsToken b) :=
  inferInstanceAs (Decidable (b ≠ [] ∧ sp ∉ b ∧ cr ∉ b ∧ lf ∉ b))

/-- A request line. -/
def requestLine (method target version : Bytes) : Bytes :=
  method ++ sp :: (target ++ sp :: version)

theorem isLine_requestLine {method target version : Bytes} (hm : IsToken method)
    (ht : IsToken target) (hv : IsToken version) : IsLine (requestLine method target version) := by
  obtain ⟨hm0, -, hmcr, hmlf⟩ := hm
  obtain ⟨-, -, htcr, htlf⟩ := ht
  obtain ⟨-, -, hvcr, hvlf⟩ := hv
  refine ⟨by simp [requestLine], ?_, ?_⟩
  · simp [requestLine, hmcr, htcr, hvcr, show cr ≠ sp by decide]
  · simp [requestLine, hmlf, htlf, hvlf, show lf ≠ sp by decide]

/-- The `Content-Length` fields announce the body: none for no body, otherwise one, a numeral of
its length. -/
def Announces (fieldLines : List Bytes) : Option Bytes → Prop
  | none => valuesOf (ascii "content-length") (fieldLines.filterMap fieldOf) = []
  | some body => ∃ val, valuesOf (ascii "content-length") (fieldLines.filterMap fieldOf) = [val] ∧
      IsNumeral val ∧ value val = body.length

/-- A request, within the limits of a server. -/
structure RawRequest (opts : ServerOptions) where
  method : Bytes
  target : Bytes
  version : Bytes
  fieldLines : List Bytes
  body : Option Bytes
  isToken_method : IsToken method
  isToken_target : IsToken target
  isToken_version : IsToken version
  isLine_fieldLines : ∀ l ∈ fieldLines, IsLine l
  length_fieldLines_le : fieldLines.length ≤ maxHeaders
  announces : Announces fieldLines body
  length_head_le :
    (headOf (requestLine method target version :: fieldLines)).length ≤ opts.maxHeaderSize
  length_body_le : (body.getD []).length ≤ opts.maxBodySize

namespace RawRequest

variable {opts : ServerOptions} (r : RawRequest opts)

/-- The lines of the head. -/
def lines : List Bytes := requestLine r.method r.target r.version :: r.fieldLines

def head : Bytes := headOf r.lines

def bodyBytes : Bytes := r.body.getD []

/-- What the client sends. -/
def bytes : Bytes := r.head ++ r.bodyBytes

/-- What a handler is to see of the request. -/
def values : Bytes × Bytes × Bytes := (r.method, r.target, r.bodyBytes)

/-- The request asks to close the connection. -/
def closes : Bool :=
  (valuesOf (ascii "connection") (r.fieldLines.filterMap fieldOf)).any
    (equalsIgnoreCase · (ascii "close"))

theorem isLine_lines : ∀ l ∈ r.lines, IsLine l :=
  List.forall_mem_cons.mpr
    ⟨isLine_requestLine r.isToken_method r.isToken_target r.isToken_version, r.isLine_fieldLines⟩

theorem findHeaderEnd_eq (rest : Bytes) : findHeaderEnd (r.head ++ rest) 0 = r.head.length :=
  findHeaderEnd_append_headOf r.isLine_lines rest

theorem head_ne_nil : r.head ≠ [] := by simp [head, lines, headOf_cons]

/-- All fields of the head are stored. -/
theorem take_fields_head :
    (fields r.head).take maxHeaders = r.fieldLines.filterMap fieldOf := by
  rw [head, lines, fields_headOf r.isLine_lines, List.take_of_length_le]
  exact (List.length_filterMap_le _ _).trans r.length_fieldLines_le

/-- The head stands for the length of the body. -/
theorem framing_head : framing opts.maxBodySize r.head = some r.bodyBytes.length := by
  have hannounces := r.announces
  have hle := r.length_body_le
  have hfirst : firstContentLength r.head =
      (valuesOf (ascii "content-length") (r.fieldLines.filterMap fieldOf)).head? := by
    rw [firstContentLength, take_fields_head]
  rw [bodyBytes]
  cases hbody : r.body with
  | none =>
    -- No field announces a body, and none is sent.
    rw [hbody] at hannounces
    rw [framing_of_none (by rw [hfirst, hannounces, List.head?_nil])]
    rfl
  | some body =>
    rw [hbody] at hannounces hle
    obtain ⟨val, hvalues, hnumeral, hlen⟩ := hannounces
    have hval : firstContentLength r.head = some val := by rw [hfirst, hvalues, List.head?_cons]
    rw [framing_of_isNumeral opts.maxBodySize_lt hval hnumeral, hlen]
    exact if_pos hle

/-- The parser finds the parts of the request line. -/
theorem requestLine_parse (data : StringView) (h : data.bytes = r.head) :
    (parseHeaders data).method.bytes = r.method ∧ (parseHeaders data).rawPath.bytes = r.target := by
  have hline := isLine_requestLine r.isToken_method r.isToken_target r.isToken_version
  have hbytes : data.bytes =
      requestLine r.method r.target r.version ++ cr :: lf :: headOf r.fieldLines := by
    rw [h, head, lines, headOf_cons]
  exact requestLine_parseHeaders r.isToken_method.2.1 r.isToken_target.2.1 hline.not_crlf hbytes

/-- A request that does not ask to close the connection is not taken to do so. -/
theorem headerEquals_close (data : StringView) (h : data.bytes = r.head)
    (hcloses : r.closes = false) :
    (parseHeaders data).headerEquals (ascii "connection") (ascii "close") = false := by
  have hlookup := findHeaderCi_eq (parseHeaders data) (ascii "connection")
  rw [fieldsRead_parseHeaders, h, take_fields_head] at hlookup
  rw [Request.headerEquals]
  cases hfind : (parseHeaders data).findHeaderCi (ascii "connection") with
  | none => rfl
  | some val =>
    rw [hfind, Option.map_some] at hlookup
    -- The value that is found is one of the `Connection` values of the request.
    have hmem := List.mem_of_head? hlookup.symm
    simp only [closes, List.any_eq_false] at hcloses
    simpa using hcloses _ hmem

/-- What a server cuts from the front of a stream that begins with the request. -/
theorem frame_eq {rest : Bytes} {x : Exchange} {n : ℕ} {rest' : Bytes}
    (h : FrameAt opts.maxBodySize (r.bytes ++ rest) x n rest') :
    x.head = r.head ∧ (x.request.method.bytes, x.request.rawPath.bytes, x.request.body.bytes) =
      r.values ∧ rest' = rest := by
  have hend : findHeaderEnd (r.bytes ++ rest) 0 = r.head.length := by
    rw [bytes, List.append_assoc, findHeaderEnd_eq]
  have hhead : x.head = r.head := by
    rw [h.head_eq, hend, bytes, List.append_assoc, List.take_left]
  have hn : n = r.bodyBytes.length := by
    have := h.framing_eq
    rw [hhead, framing_head] at this
    exact (Option.some_inj.mp this).symm
  obtain ⟨generation, hreq⟩ := h.request_eq
  obtain ⟨hmethod, htarget⟩ :=
    r.requestLine_parse ⟨.readBuffer generation, 0, x.head⟩ hhead
  have hbody := h.body_eq
  rw [hend, bytes, List.append_assoc, List.drop_left, hn, List.take_left] at hbody
  refine ⟨hhead, ?_, ?_⟩
  · rw [values, hbody]
    rw [hreq]
    rw [← hmethod, ← htarget]
  · rw [h.rest_eq, hend, hn, bytes, ← List.length_append, List.drop_left]

end RawRequest

end Lundi
