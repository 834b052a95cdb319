import Lundi.Core.HeaderFields
import Lundi.Core.ParseHeaders
import Lundi.Multipart.Parser

/-!
# The round trip of multipart forms

A form, its rendering as the body of a request, and what the parser reads from it.

* `partSpan_bytes`: a turn of the loop cuts a part out, whatever its name and content look like;
* `partName_headers`, `partFilename_headers`, `partContentType_headers`: the attributes that are
  found by searches in the part headers;
* `form_round_trip_iff`: exactly when the form comes back.
-/

namespace Lundi

open Search

/-! ### Forms -/

/-- A character of a token: printable and no separator. -/
def isTokenChar (c : UInt8) : Bool :=
  33 ≤ c && c ≤ 126 && !(ascii "()<>@,;:\\\"/[]?=").contains c

/-- A boundary is a non-empty token. -/
structure IsBoundary (boundary : Bytes) : Prop where
  ne_nil : boundary ≠ []
  forall_isTokenChar : ∀ c ∈ boundary, isTokenChar c = true

/-- What is sent about a file besides its bytes. -/
structure Upload where
  filename : Bytes
  contentType : Bytes
  deriving DecidableEq

/-- A part of a form: a text field or a file. -/
structure FormPart where
  name : Bytes
  upload : Option Upload
  content : Bytes
  deriving DecidableEq

/-- Text that can stand between quotation marks in a header line. -/
def Quotable (s : Bytes) : Prop := 34 ∉ s ∧ Unbroken s

instance (s : Bytes) : Decidable (Quotable s) := inferInstanceAs (Decidable (34 ∉ s ∧ Unbroken s))

/-- A part that can be sent with a boundary. -/
structure FormPart.Sendable (boundary : Bytes) (p : FormPart) : Prop where
  name_ne_nil : p.name ≠ []
  quotable_name : Quotable p.name
  filename : ∀ u ∈ p.upload, u.filename ≠ [] ∧ Quotable u.filename
  contentType : ∀ u ∈ p.upload, u.contentType ≠ [] ∧ Unbroken u.contentType
  not_infix_content : ¬ delimiter boundary <:+: p.content

instance (boundary : Bytes) (p : FormPart) : Decidable (p.Sendable boundary) :=
  decidable_of_iff
    (p.name ≠ [] ∧ Quotable p.name ∧ (∀ u ∈ p.upload, u.filename ≠ [] ∧ Quotable u.filename) ∧
      (∀ u ∈ p.upload, u.contentType ≠ [] ∧ Unbroken u.contentType) ∧
        ¬ delimiter boundary <:+: p.content)
    ⟨fun ⟨h₁, h₂, h₃, h₄, h₅⟩ => ⟨h₁, h₂, h₃, h₄, h₅⟩,
      fun ⟨h₁, h₂, h₃, h₄, h₅⟩ => ⟨h₁, h₂, h₃, h₄, h₅⟩⟩

/-- A form that can be sent with a boundary. -/
structure Form (boundary : Bytes) where
  parts : List FormPart
  sendable : ∀ p ∈ parts, p.Sendable boundary
  nodup_names : (parts.map FormPart.name).Nodup

/-- A text between quotation marks. -/
def quoted (s : Bytes) : Bytes := 34 :: (s ++ [34])

namespace FormPart

variable (p : FormPart)

/-- The attribute of a file. -/
def filenameAttribute : Option Upload → Bytes
  | none => []
  | some u => ascii "; filename=" ++ quoted u.filename

/-- The `Content-Disposition` line. -/
def dispositionLine : Bytes :=
  ascii "Content-Disposition: form-data; name=" ++ quoted p.name ++ filenameAttribute p.upload

/-- The `Content-Type` line of a file. -/
def typeLines : Option Upload → List Bytes
  | none => []
  | some u => [ascii "Content-Type: " ++ u.contentType]

/-- The lines without the empty one. -/
def headers : Bytes := p.dispositionLine ++ (typeLines p.upload).flatMap (crlf ++ ·)

/-- The part behind its delimiter. -/
def rendered : Bytes :=
  headOf (p.dispositionLine :: typeLines p.upload) ++ (p.content ++ crlf)

end FormPart

/-- The body of a request: each part behind a delimiter, the closing delimiter and an epilogue. -/
def Form.render {boundary : Bytes} (f : Form boundary) (epilogue : Bytes) : Bytes :=
  (f.parts.flatMap fun p => delimiter boundary ++ (crlf ++ p.rendered)) ++
    (delimiter boundary ++ (ascii "--" ++ epilogue))

/-- A `Content-Type` that announces the boundary, bare or quoted, and perhaps more parameters. -/
def AnnouncesForm (boundary contentType : Bytes) : Prop :=
  ∃ params, (params = [] ∨ params.head? = some 59) ∧
    (contentType = ascii "multipart/form-data; boundary=" ++ (boundary ++ params) ∨
      contentType = ascii "multipart/form-data; boundary=" ++ (quoted boundary ++ params))

/-! ### Boundaries -/

namespace IsBoundary

variable {boundary : Bytes}

theorem notMem_of_not_isTokenChar (h : IsBoundary boundary) {c : UInt8}
    (hc : isTokenChar c = false) : c ∉ boundary := by
  intro hmem
  rw [h.forall_isTokenChar c hmem] at hc
  exact absurd hc (by decide)

theorem notMem_delimiter (h : IsBoundary boundary) {c : UInt8}
    (hc : isTokenChar c = false) (hdash : c ≠ 45) : c ∉ delimiter boundary := by
  have hascii : ascii "--" = [45, 45] := by decide
  rw [delimiter, hascii]
  simp only [List.cons_append, List.nil_append, List.mem_cons, not_or]
  exact ⟨hdash, hdash, h.notMem_of_not_isTokenChar hc⟩

/-- The key of the boundary is found behind `multipart/form-data; `. -/
theorem find_boundary (rest : Bytes) :
    find (ascii "boundary=") (ascii "multipart/form-data; boundary=" ++ rest) = some 21 :=
  find_append_of_eq_some (by decide) rest

theorem drop_boundary (rest : Bytes) :
    (ascii "multipart/form-data; boundary=" ++ rest).drop 30 = rest :=
  List.drop_left' (by decide)

/-- A bare boundary does not end in a blank. -/
theorem trimLoop_eq (h : IsBoundary boundary) (params : Bytes) :
    trimLoop (ascii "multipart/form-data; boundary=" ++ (boundary ++ params)) 30
      (boundary.length + 30) = boundary.length + 30 := by
  have hpos : 0 < boundary.length := List.length_pos_iff.mpr h.ne_nil
  have hlast : (ascii "multipart/form-data; boundary=" ++ (boundary ++ params))[
      boundary.length + 29]? = boundary[boundary.length - 1]? := by
    have hindex : boundary.length + 29 = 30 + (boundary.length - 1) := by omega
    rw [hindex, ← List.getElem?_drop, drop_boundary, List.getElem?_append_left (by omega)]
  have hblank : ∀ c, isTokenChar c = false → boundary[boundary.length - 1]? ≠ some c :=
    fun c hc hget => h.notMem_of_not_isTokenChar hc (List.mem_of_getElem? hget)
  have hstop : ¬ (boundary[boundary.length - 1]? = some sp ∨
      boundary[boundary.length - 1]? = some cr) :=
    not_or.mpr ⟨hblank sp (by decide), hblank cr (by decide)⟩
  change trimLoop _ 30 (boundary.length + 29 + 1) = _
  rw [trimLoop, hlast, if_neg fun hcond => hstop hcond.2]

/-- A bare boundary ends at the next parameter. -/
theorem extractBoundary_bare (h : IsBoundary boundary) {params : Bytes}
    (hparams : params = [] ∨ params.head? = some 59) :
    extractBoundary (ascii "multipart/form-data; boundary=" ++ (boundary ++ params)) =
      boundary := by
  have hquote : 34 ∉ boundary := h.notMem_of_not_isTokenChar (by decide)
  have hsemi : 59 ∉ boundary := h.notMem_of_not_isTokenChar (by decide)
  have hfirst : (ascii "multipart/form-data; boundary=" ++ (boundary ++ params))[30]? ≠
      some 34 := by
    rw [← Nat.add_zero 30, ← List.getElem?_drop, drop_boundary]
    obtain ⟨c, rest, rfl⟩ := List.exists_cons_of_ne_nil h.ne_nil
    rw [List.cons_append, List.getElem?_cons_zero]
    intro hc
    exact hquote (Option.some_inj.mp hc ▸ List.mem_cons_self)
  have hend : (findFrom [59] (ascii "multipart/form-data; boundary=" ++ (boundary ++ params))
      30).getD (ascii "multipart/form-data; boundary=" ++ (boundary ++ params)).length =
        boundary.length + 30 := by
    rw [findFrom, drop_boundary]
    rcases hparams with rfl | hhead
    · rw [List.append_nil, find_singleton_eq_none_iff.mpr hsemi, Option.map_none,
        Option.getD_none, List.length_append, Nat.add_comm]
      rfl
    · obtain ⟨rest, rfl⟩ := List.head?_eq_some_iff.mp hhead
      rw [find_singleton_append hsemi, Option.map_some, Option.getD_some]
  rw [extractBoundary, find_boundary]
  simp only [if_neg hfirst, hend, h.trimLoop_eq]
  exact slice_of_drop (drop_boundary (boundary ++ params))

/-- A quoted one ends at the next mark. -/
theorem extractBoundary_quoted (h : IsBoundary boundary) (params : Bytes) :
    extractBoundary (ascii "multipart/form-data; boundary=" ++ (quoted boundary ++ params)) =
      boundary := by
  have hquote : 34 ∉ boundary := h.notMem_of_not_isTokenChar (by decide)
  have hfirst : (ascii "multipart/form-data; boundary=" ++ (quoted boundary ++ params))[30]? =
      some 34 := by
    rw [← Nat.add_zero 30, ← List.getElem?_drop, drop_boundary]
    rfl
  have hrest : (ascii "multipart/form-data; boundary=" ++ (quoted boundary ++ params)).drop 31 =
      boundary ++ 34 :: params := by
    rw [← List.drop_drop (i := 1) (j := 30), drop_boundary]
    simp [quoted]
  have hend : findFrom [34] (ascii "multipart/form-data; boundary=" ++
      (quoted boundary ++ params)) 31 = some (boundary.length + 31) := by
    rw [findFrom, hrest, find_singleton_append hquote]
    rfl
  rw [extractBoundary, find_boundary]
  simp only [if_pos hfirst, hend]
  exact slice_of_drop hrest

/-- The boundary is read from the content type. -/
theorem extractBoundary_eq (h : IsBoundary boundary) {contentType : Bytes}
    (hct : AnnouncesForm boundary contentType) : extractBoundary contentType = boundary := by
  obtain ⟨params, hparams, rfl | rfl⟩ := hct
  · exact h.extractBoundary_bare hparams
  · exact h.extractBoundary_quoted params

end IsBoundary

/-! ### A turn on a part -/

theorem unbroken_quoted {s : Bytes} (h : Quotable s) : Unbroken (quoted s) := by
  obtain ⟨-, hcr, hlf⟩ := h
  simp only [Unbroken, quoted, List.mem_cons, List.mem_append, List.not_mem_nil, or_false, not_or]
  exact ⟨⟨by decide, hcr, by decide⟩, ⟨by decide, hlf, by decide⟩⟩

theorem isLine_typeLines {boundary : Bytes} {p : FormPart} (hp : p.Sendable boundary) :
    ∀ l ∈ FormPart.typeLines p.upload, IsLine l := by
  intro l hl
  cases hu : p.upload with
  | none =>
    rw [hu] at hl
    exact absurd hl List.not_mem_nil
  | some u =>
    rw [hu] at hl
    obtain rfl := List.mem_singleton.mp hl
    exact ⟨by simp [ascii], unbroken_append.mpr ⟨by decide, (hp.contentType u hu).2⟩⟩

theorem isLine_headers {boundary : Bytes} {p : FormPart} (hp : p.Sendable boundary) :
    ∀ l ∈ p.dispositionLine :: FormPart.typeLines p.upload, IsLine l := by
  have hattribute : Unbroken (FormPart.filenameAttribute p.upload) := by
    cases hu : p.upload with
    | none => exact ⟨List.not_mem_nil, List.not_mem_nil⟩
    | some u => exact unbroken_append.mpr ⟨by decide, unbroken_quoted (hp.filename u hu).2⟩
  refine List.forall_mem_cons.mpr ⟨⟨by simp [FormPart.dispositionLine, quoted], ?_⟩,
    isLine_typeLines hp⟩
  exact unbroken_append.mpr
    ⟨unbroken_append.mpr ⟨by decide, unbroken_quoted hp.quotable_name⟩, hattribute⟩

/-- The search for the next delimiter stops behind the content, wherever the content has dashes and
line terminators. -/
theorem find_delimiter {boundary : Bytes} (hb : IsBoundary boundary) {content : Bytes}
    (hcontent : ¬ delimiter boundary <:+: content) (tail : Bytes) :
    find (delimiter boundary) (content ++ cr :: lf :: (delimiter boundary ++ tail)) =
      some (content.length + 2) := by
  have hcr : cr ∉ delimiter boundary := hb.notMem_delimiter (by decide) (by decide)
  have hlf : lf ∉ delimiter boundary := hb.notMem_delimiter (by decide) (by decide)
  exact find_append_cons_cons_append (delimiter_ne_nil boundary) hcr hlf hcontent tail

/-- The headers and the content of a part, as they stand in a body. -/
structure RawPart where
  headers : Bytes
  content : Bytes

/-- The part with its delimiter: an empty line behind the headers, and a line terminator behind the
content. -/
def RawPart.bytes (boundary : Bytes) (q : RawPart) : Bytes :=
  delimiter boundary ++ (crlf ++ (q.headers ++ (headerTerminator ++ (q.content ++ crlf))))

/-- The first empty line is the one behind the headers, and the next delimiter stands behind the
content. -/
structure RawPart.Fits (boundary : Bytes) (q : RawPart) : Prop where
  headers : ∀ rest, find headerTerminator (q.headers ++ (headerTerminator ++ rest)) =
    some q.headers.length
  content : ¬ delimiter boundary <:+: q.content

/-- The lines of the headers, each but the last with its terminator, and the empty line. -/
theorem headOf_eq_append (l : Bytes) (ls : List Bytes) :
    headOf (l :: ls) = (l ++ ls.flatMap (crlf ++ ·)) ++ headerTerminator := by
  induction ls generalizing l with
  | nil => simp [headOf]
  | cons l' ls ih =>
    have hcons : headOf (l :: l' :: ls) = l ++ crlf ++ headOf (l' :: ls) := by simp [headOf]
    rw [hcons, ih, List.flatMap_cons]
    simp only [List.append_assoc]

/-- Headers that are lines end at the first empty line. -/
theorem find_headerTerminator_lines {l : Bytes} {ls : List Bytes} (h : ∀ x ∈ l :: ls, IsLine x)
    (rest : Bytes) :
    find headerTerminator ((l ++ ls.flatMap (crlf ++ ·)) ++ (headerTerminator ++ rest)) =
      some (l ++ ls.flatMap (crlf ++ ·)).length := by
  have hfind := find_headerTerminator_headOf h rest
  rw [headOf_eq_append, List.append_assoc] at hfind
  obtain ⟨k, hk, hlen⟩ := Option.map_eq_some_iff.mp hfind
  rw [List.length_append] at hlen
  obtain rfl : k = (l ++ ls.flatMap (crlf ++ ·)).length := Nat.add_right_cancel hlen
  exact hk

/-- The first half of a turn finds the headers, and the rest of the part behind them. -/
theorem headerSpan_bytes {body boundary rest : Bytes} {pos : ℕ} {q : RawPart}
    (hq : q.Fits boundary)
    (hdrop : body.drop pos =
      delimiter boundary ++ cr :: lf :: (q.headers ++ (headerTerminator ++ (q.content ++ rest)))) :
    ∃ span, headerSpan body (delimiter boundary) pos = some span ∧
      span.headers body = q.headers ∧ body.drop span.contentStart = q.content ++ rest := by
  have hbehind : body.drop (pos + (delimiter boundary).length) =
      cr :: lf :: (q.headers ++ (headerTerminator ++ (q.content ++ rest))) := by
    rw [← List.drop_drop, hdrop, List.drop_left]
  have hstart : body.drop (pos + (delimiter boundary).length + 2) =
      q.headers ++ (headerTerminator ++ (q.content ++ rest)) := by
    rw [← List.drop_drop, hbehind]
    rfl
  have hcr : body[pos + (delimiter boundary).length]? = some cr := by
    rw [← List.head?_drop, hbehind]
    rfl
  have hlong : ¬ pos + (delimiter boundary).length + 2 > body.length := by
    have hlen := congrArg List.length hbehind
    rw [List.length_drop, List.length_cons, List.length_cons] at hlen
    omega
  -- Not two dashes but a line terminator is behind the delimiter: it is not the closing one.
  have hdash : ¬ (body[pos + (delimiter boundary).length]? = some 45 ∧
      body[pos + (delimiter boundary).length + 1]? = some 45) := by
    rw [hcr]
    exact fun h => absurd (Option.some_inj.mp h.1) (by decide)
  have hheader : findFrom headerTerminator body (pos + (delimiter boundary).length + 2) =
      some (q.headers.length + (pos + (delimiter boundary).length + 2)) := by
    rw [findFrom, hstart, hq.headers]
    rfl
  refine ⟨⟨pos + (delimiter boundary).length + 2,
    q.headers.length + (pos + (delimiter boundary).length + 2)⟩, ?_, slice_of_drop hstart, ?_⟩
  · simp only [headerSpan, if_neg hlong, if_neg hdash, if_pos hcr, hheader]
  · have hsum : q.headers.length + (pos + (delimiter boundary).length + 2) + 4 =
        pos + (delimiter boundary).length + 2 + (q.headers.length + 4) := by omega
    rw [HeaderSpan.contentStart, hsum, ← List.drop_drop, hstart, List.drop_length_add_append]
    rfl

/-- The content ends in front of the line terminator. -/
theorem content_render {body content rest : Bytes} {part : PartSpan}
    (hdrop : body.drop part.contentStart = content ++ cr :: lf :: rest)
    (hnext : part.next = content.length + 2 + part.contentStart) :
    part.content body = content ∧ body.drop part.next = rest := by
  have hget : ∀ i, body[part.contentStart + i]? = (content ++ cr :: lf :: rest)[i]? := by
    intro i
    rw [← List.getElem?_drop, hdrop]
  have hcr : body[part.next - 2]? = some cr := by
    have hindex : part.next - 2 = part.contentStart + content.length := by omega
    rw [hindex, hget, List.getElem?_append_right le_rfl, Nat.sub_self]
    rfl
  have hlf : body[part.next - 1]? = some lf := by
    have hindex : part.next - 1 = part.contentStart + (content.length + 1) := by omega
    rw [hindex, hget, List.getElem?_append_right (by omega), Nat.add_sub_cancel_left]
    rfl
  have hbodyEnd : part.bodyEnd body = content.length + part.contentStart := by
    rw [PartSpan.bodyEnd, if_pos ⟨by omega, hcr, hlf⟩]
    omega
  constructor
  · rw [PartSpan.content, hbodyEnd]
    exact slice_of_drop hdrop
  · have hsum : part.next = part.contentStart + (content.length + 2) := by omega
    rw [hsum, ← List.drop_drop, hdrop, List.drop_length_add_append]
    rfl

/-- A turn of the loop cuts the part out. -/
theorem partSpan_bytes {body boundary tail : Bytes} {pos : ℕ} {q : RawPart}
    (hb : IsBoundary boundary) (hq : q.Fits boundary)
    (hdrop : body.drop pos = q.bytes boundary ++ (delimiter boundary ++ tail)) :
    ∃ part, partSpan body (delimiter boundary) pos = some part ∧
      part.headers body = q.headers ∧ part.content body = q.content ∧
      body.drop part.next = delimiter boundary ++ tail := by
  have hcut : q.bytes boundary ++ (delimiter boundary ++ tail) =
      delimiter boundary ++ cr :: lf :: (q.headers ++ (headerTerminator ++
        (q.content ++ cr :: lf :: (delimiter boundary ++ tail)))) := by
    simp [RawPart.bytes]
  obtain ⟨span, hspan, hheaders, hcontent⟩ := headerSpan_bytes hq (hdrop.trans hcut)
  have hnext : findFrom (delimiter boundary) body span.contentStart =
      some (q.content.length + 2 + span.contentStart) := by
    rw [findFrom, hcontent, find_delimiter hb hq.content]
    rfl
  have hpart : partSpan body (delimiter boundary) pos =
      some ⟨span, q.content.length + 2 + span.contentStart⟩ := by
    rw [HeaderSpan.contentStart] at hnext ⊢
    rw [partSpan, hspan]
    simp only [hnext]
  exact ⟨_, hpart, hheaders, content_render hcontent rfl⟩

/-- The closing delimiter ends the loop. -/
theorem partSpan_closing {body boundary epilogue : Bytes} {pos : ℕ}
    (hdrop : body.drop pos = delimiter boundary ++ (ascii "--" ++ epilogue)) :
    partSpan body (delimiter boundary) pos = none := by
  have hbehind : body.drop (pos + (delimiter boundary).length) = 45 :: 45 :: epilogue := by
    rw [← List.drop_drop, hdrop, List.drop_left]
    rfl
  have hget : ∀ i, body[pos + (delimiter boundary).length + i]? =
      (45 :: 45 :: epilogue : Bytes)[i]? := by
    intro i
    rw [← List.getElem?_drop, hbehind]
  have hspan : headerSpan body (delimiter boundary) pos = none := by
    simp only [headerSpan]
    split
    · rfl
    · rw [if_pos ⟨hget 0, hget 1⟩]
  rw [partSpan, hspan]

/-- The loop stores the parts one by one. -/
theorem parseLoop_bytes {body boundary epilogue : Bytes} (hb : IsBoundary boundary)
    {qs : List RawPart} (hqs : ∀ q ∈ qs, q.Fits boundary) {pos : ℕ}
    (hdrop : body.drop pos =
      qs.flatMap (RawPart.bytes boundary) ++ (delimiter boundary ++ (ascii "--" ++ epilogue)))
    (result : FormData) :
    parseLoop body (delimiter boundary) (qs.length + 1) pos result =
      some (qs.foldl (fun form q => storePart q.headers q.content form) result) := by
  induction qs generalizing pos result with
  | nil =>
    rw [parseLoop, partSpan_closing hdrop]
    rfl
  | cons q qs ih =>
    obtain ⟨hq, hrest⟩ := List.forall_mem_cons.mp hqs
    -- Another delimiter stands behind the part, of the next one or the closing one.
    obtain ⟨tail, htail⟩ : ∃ tail,
        qs.flatMap (RawPart.bytes boundary) ++ (delimiter boundary ++ (ascii "--" ++ epilogue)) =
          delimiter boundary ++ tail := by
      cases qs with
      | nil => exact ⟨_, rfl⟩
      | cons q' qs =>
        rw [List.flatMap_cons, RawPart.bytes, List.append_assoc, List.append_assoc]
        exact ⟨_, rfl⟩
    rw [List.flatMap_cons, List.append_assoc, htail] at hdrop
    obtain ⟨part, hpart, hheaders, hcontent, hnext⟩ := partSpan_bytes hb hq hdrop
    rw [List.length_cons, parseLoop, hpart]
    simp only [hheaders, hcontent]
    rw [← htail] at hnext
    exact ih hrest hnext _

/-- The parser stores the parts of a body one by one. -/
theorem parseMultipart_bytes {boundary : Bytes} (hb : IsBoundary boundary) {qs : List RawPart}
    (hqs : ∀ q ∈ qs, q.Fits boundary) (epilogue : Bytes) :
    parseMultipart (qs.flatMap (RawPart.bytes boundary) ++
        (delimiter boundary ++ (ascii "--" ++ epilogue))) boundary =
      qs.foldl (fun form q => storePart q.headers q.content form) .empty := by
  generalize hbody : qs.flatMap (RawPart.bytes boundary) ++
    (delimiter boundary ++ (ascii "--" ++ epilogue)) = body
  have hfirst : find (delimiter boundary) body = some 0 := by
    have hfront : delimiter boundary <+: body := by
      rw [← hbody]
      cases qs with
      | nil => exact List.prefix_append _ _
      | cons q qs =>
        rw [List.flatMap_cons, RawPart.bytes, List.append_assoc, List.append_assoc]
        exact List.prefix_append _ _
    exact find_eq_zero_iff.mpr hfront
  have hstart : body.drop 0 = qs.flatMap (RawPart.bytes boundary) ++
      (delimiter boundary ++ (ascii "--" ++ epilogue)) := hbody.symm
  have hloop := parseLoop_bytes hb hqs hstart .empty
  have hleft : body.length - 0 < body.length + 1 := by omega
  obtain ⟨form, hform⟩ := parseLoop_eq_some (delimiter_ne_nil boundary) hleft .empty
  rw [parseMultipart, hfirst]
  simp only [hform, Option.getD_some]
  -- Both budgets are sufficient.
  have hmore := parseLoop_mono hform (Nat.le_add_right (body.length + 1) (qs.length + 1))
  have hmore' := parseLoop_mono hloop (Nat.le_add_left (qs.length + 1) (body.length + 1))
  rw [hmore] at hmore'
  exact Option.some_inj.mp hmore'

/-! ### The attributes -/

/-- The text between a key that ends in a mark and the next mark. -/
def quotedText (headers key : Bytes) : Bytes := textAt headers (quotedBounds headers key)

/-- The key ends at the first mark: the text behind it goes to the next one. -/
theorem quotedBounds_of_suffix {w a : Bytes} (hw : 34 ∉ w) (ha : 34 ∉ a) (h : w <:+ a)
    (l : Bytes) : quotedBounds (a ++ 34 :: l) (w ++ [34]) =
      (find [34] l).map fun i => (a.length + 1, i + (a.length + 1)) := by
  have hfind := find_concat_append hw ha l
  rw [if_pos h] at hfind
  have hpos : a.length - w.length + (w ++ [34]).length = a.length + 1 := by
    have hlen := h.length_le
    rw [List.length_append, List.length_singleton]
    omega
  have hdrop : (a ++ 34 :: l).drop (a.length + 1) = l := List.drop_length_add_append 1
  rw [quotedBounds, hfind]
  simp only [hpos, findFrom, hdrop]
  cases find [34] l <;> rfl

theorem quotedText_of_suffix {w a s rest : Bytes} (hw : 34 ∉ w) (ha : 34 ∉ a) (hs : 34 ∉ s)
    (h : w <:+ a) : quotedText (a ++ 34 :: (s ++ 34 :: rest)) (w ++ [34]) = s := by
  rw [quotedText, quotedBounds_of_suffix hw ha h, find_singleton_append hs]
  exact slice_of_drop (List.drop_length_add_append 1)

/-- Otherwise it is looked for behind the mark. -/
theorem quotedText_of_not_suffix {w a : Bytes} (hw : 34 ∉ w) (ha : 34 ∉ a) (h : ¬ w <:+ a)
    (l : Bytes) : quotedText (a ++ 34 :: l) (w ++ [34]) = quotedText l (w ++ [34]) := by
  have hfind := find_concat_append hw ha l
  rw [if_neg h] at hfind
  have hdrop : ∀ i, (a ++ 34 :: l).drop (i + (a.length + 1)) = l.drop i := by
    intro i
    rw [Nat.add_comm i, ← List.drop_drop, ← List.drop_drop, List.drop_left]
    rfl
  rw [quotedText, quotedText, quotedBounds, quotedBounds, hfind]
  cases find (w ++ [34]) l with
  | none => rfl
  | some p =>
    have hshift : p + (a.length + 1) + (w ++ [34]).length =
        p + (w ++ [34]).length + (a.length + 1) := by omega
    simp only [Option.map_some, hshift, findFrom, hdrop]
    cases find [34] (l.drop (p + (w ++ [34]).length)) with
    | none => rfl
    | some q =>
      simp only [Option.map_some, textAt]
      rw [slice_eq _ (by omega), slice_eq _ (by omega), hdrop]
      congr 1
      omega

/-- Without a second mark nothing is read. -/
theorem quotedText_of_notMem {w a l : Bytes} (hw : 34 ∉ w) (ha : 34 ∉ a) (hl : 34 ∉ l) :
    quotedText (a ++ 34 :: l) (w ++ [34]) = [] := by
  by_cases h : w <:+ a
  · rw [quotedText, quotedBounds_of_suffix hw ha h, find_singleton_eq_none_iff.mpr hl]
    rfl
  · have hnone : find (w ++ [34]) l = none := by
      rw [find_eq_none_iff_not_isInfix]
      exact fun hinside => hl (hinside.subset (by simp))
    rw [quotedText_of_not_suffix hw ha h, quotedText, quotedBounds, hnone]
    rfl

/-- A content type in the first line ends with it. -/
theorem partContentType_of_find_eq_some {line : Bytes} {i : ℕ} (hcr : cr ∉ line)
    (h : find (ascii "Content-Type: ") line = some i) (rest : Bytes) :
    partContentType (line ++ cr :: lf :: rest) = line.drop (i + 14) := by
  have hbound : i + 14 ≤ line.length := length_le_of_find_eq_some h
  have hdrop : (line ++ cr :: lf :: rest).drop (i + 14) = line.drop (i + 14) ++ cr :: lf :: rest :=
    List.drop_append_of_le_length hbound
  have hnot : ¬ crlf <:+: line.drop (i + 14) := fun h =>
    hcr (List.mem_of_mem_drop (h.subset List.mem_cons_self))
  have hend : findFrom crlf (line ++ cr :: lf :: rest) (i + 14) =
      some ((line.drop (i + 14)).length + (i + 14)) := by
    rw [findFrom, hdrop, find_pair_append (by decide) hnot]
    rfl
  rw [partContentType, contentTypeBounds, find_append_of_eq_some h]
  simp only [hend, textAt]
  exact slice_of_drop hdrop

/-- Otherwise the one in the second line is read, to the end of the headers. -/
theorem partContentType_of_find_eq_none {line contentType : Bytes}
    (h : find (ascii "Content-Type: ") line = none) (htype : ¬ crlf <:+: contentType) :
    partContentType (line ++ cr :: lf :: (ascii "Content-Type: " ++ contentType)) =
      contentType := by
  generalize hheaders : line ++ cr :: lf :: (ascii "Content-Type: " ++ contentType) = headers
  have hkey : find (ascii "Content-Type: ") headers = some (line.length + 2) := by
    rw [← hheaders]
    exact find_append_cons_cons_append (by decide) (by decide) (by decide)
      (find_eq_none_iff_not_isInfix.mp h) contentType
  have hdrop : headers.drop (line.length + 2 + 14) = contentType := by
    rw [← hheaders, Nat.add_assoc, List.drop_length_add_append]
    rfl
  have hend : findFrom crlf headers (line.length + 2 + 14) = none := by
    rw [findFrom, hdrop, find_eq_none_iff_not_isInfix.mpr htype]
    rfl
  have hlen : headers.length = contentType.length + (line.length + 2 + 14) := by
    have hascii : (ascii "Content-Type: ").length = 14 := by decide
    rw [← hheaders, List.length_append, List.length_cons, List.length_cons, List.length_append,
      hascii]
    omega
  rw [partContentType, contentTypeBounds, hkey]
  simp only [hend, Option.getD_none, textAt, hlen]
  exact slice_of_drop (b := []) (hdrop.trans (List.append_nil contentType).symm)

/-- What stands behind the first `Content-Type: ` in a line, if anything does. -/
def typeInside (line : Bytes) : Option Bytes :=
  (find (ascii "Content-Type: ") line).map fun i => line.drop (i + 14)

/-- A content type in the line in front of the one that announces it is read instead. -/
theorem partContentType_lines {line contentType : Bytes} (hcr : cr ∉ line)
    (htype : Unbroken contentType) :
    partContentType (line ++ cr :: lf :: (ascii "Content-Type: " ++ contentType)) =
      (typeInside line).getD contentType := by
  rw [typeInside]
  cases hfind : find (ascii "Content-Type: ") line with
  | some i => exact partContentType_of_find_eq_some hcr hfind _
  | none =>
    have hend : ¬ crlf <:+: contentType := fun h => htype.1 (h.subset List.mem_cons_self)
    exact partContentType_of_find_eq_none hfind hend

/-- The text behind the key ends in the mark that ends the line. -/
theorem getD_typeInside_ne_nil {contentType : Bytes} (h : contentType ≠ []) (front : Bytes) :
    (typeInside (front ++ [34])).getD contentType ≠ [] := by
  rw [typeInside]
  cases hfind : find (ascii "Content-Type: ") (front ++ [34]) with
  | none => exact h
  | some i =>
    have hat := (find_eq_some_iff.mp hfind).1
    simp only [Option.map_some, Option.getD_some]
    intro hnil
    -- A key at the end of the line would end in a space.
    have hlen := length_le_of_find_eq_some hfind
    have hascii : (ascii "Content-Type: ").length = 14 := by decide
    rw [List.drop_eq_nil_iff, List.length_append, List.length_singleton] at hnil
    rw [hascii, List.length_append, List.length_singleton] at hlen
    have hlast := getElem?_of_prefix_drop hat (show 13 < (ascii "Content-Type: ").length by decide)
    have hindex : i + 13 = front.length := by omega
    rw [hindex, List.getElem?_append_right le_rfl, Nat.sub_self] at hlast
    exact absurd hlast (by decide)

namespace FormPart

variable {boundary : Bytes} {p : FormPart}

/-- The first mark in the headers is the one in front of the name. -/
theorem headers_eq (p : FormPart) : p.headers =
    ascii "Content-Disposition: form-data; name=" ++ 34 :: (p.name ++ 34 ::
      (filenameAttribute p.upload ++ (typeLines p.upload).flatMap (crlf ++ ·))) := by
  simp [headers, dispositionLine, quoted]

/-- The headers of a file go on with the file name. -/
theorem rest_of_upload (u : Upload) :
    filenameAttribute (some u) ++ (typeLines (some u)).flatMap (crlf ++ ·) =
      ascii "; filename=" ++ 34 :: (u.filename ++ 34 ::
        (crlf ++ (ascii "Content-Type: " ++ u.contentType))) := by
  simp [filenameAttribute, typeLines, quoted]

/-- The name is always found. -/
theorem partName_headers (hp : p.Sendable boundary) : partName p.headers = p.name := by
  have hkey : ascii "name=\"" = ascii "name=" ++ [34] := by decide
  rw [partName, hkey, headers_eq]
  exact quotedText_of_suffix (by decide) (by decide) hp.quotable_name.1 (by decide)

/-- A text field has no file name, whatever its name looks like. -/
theorem partFilename_headers_of_text (hp : p.Sendable boundary) (hu : p.upload = none) :
    partFilename p.headers = [] := by
  have hkey : ascii "filename=\"" = ascii "filename=" ++ [34] := by decide
  rw [partFilename, hkey, headers_eq, hu]
  change quotedText _ _ = []
  rw [quotedText_of_not_suffix (by decide) (by decide) (by decide)]
  exact quotedText_of_notMem (by decide) hp.quotable_name.1 List.not_mem_nil

/-- The text that is read as the file name: behind a name that ends like the key, it is the text up
to the file name. -/
def readFilename (p : FormPart) (u : Upload) : Bytes :=
  if ascii "filename=" <:+ p.name then ascii "; filename=" else u.filename

theorem partFilename_headers (hp : p.Sendable boundary) {u : Upload} (hu : p.upload = some u) :
    partFilename p.headers = p.readFilename u := by
  have hkey : ascii "filename=\"" = ascii "filename=" ++ [34] := by decide
  rw [partFilename, hkey, headers_eq, hu, rest_of_upload]
  change quotedText _ _ = _
  rw [quotedText_of_not_suffix (by decide) (by decide) (by decide), readFilename]
  split
  next hsuffix =>
    exact quotedText_of_suffix (by decide) hp.quotable_name.1 (by decide) hsuffix
  next hnot =>
    rw [quotedText_of_not_suffix (by decide) hp.quotable_name.1 hnot]
    exact quotedText_of_suffix (by decide) (by decide) (hp.filename u hu).2.1 (by decide)

/-- What stands behind the first `Content-Type: ` in the first line, if anything does. -/
def typeInLine (p : FormPart) : Option Bytes :=
  (find (ascii "Content-Type: ") p.dispositionLine).map fun i => p.dispositionLine.drop (i + 14)

/-- The text that is read as the content type. -/
def readContentType (p : FormPart) (u : Upload) : Bytes := p.typeInLine.getD u.contentType

theorem partContentType_headers (hp : p.Sendable boundary) {u : Upload}
    (hu : p.upload = some u) : partContentType p.headers = p.readContentType u := by
  have hline : p.headers = p.dispositionLine ++ cr :: lf ::
      (ascii "Content-Type: " ++ u.contentType) := by
    simp [headers, typeLines, hu]
  have hcr : cr ∉ p.dispositionLine := (isLine_headers hp _ List.mem_cons_self).2.1
  rw [hline]
  exact partContentType_lines hcr (hp.contentType u hu).2

/-- The part as it is read. -/
def readBack (p : FormPart) : FormPart :=
  { p with upload := p.upload.map fun u => ⟨p.readFilename u, p.readContentType u⟩ }

/-- A part is added to a form. -/
def store (p : FormPart) (form : FormData) : FormData :=
  match p.upload with
  | none => { form with fields := Function.update form.fields p.name (some p.content) }
  | some u =>
    { form with
      files := Function.update form.files p.name
        (some ⟨u.filename, u.contentType, p.content⟩) }

theorem readFilename_ne_nil (hp : p.Sendable boundary) {u : Upload} (hu : p.upload = some u) :
    p.readFilename u ≠ [] := by
  rw [readFilename]
  split
  · decide
  · exact (hp.filename u hu).1

theorem readContentType_ne_nil (hp : p.Sendable boundary) {u : Upload} (hu : p.upload = some u) :
    p.readContentType u ≠ [] := by
  have hline : p.dispositionLine = (ascii "Content-Disposition: form-data; name=" ++
      quoted p.name ++ (ascii "; filename=" ++ 34 :: u.filename)) ++ [34] := by
    rw [dispositionLine, hu]
    simp [filenameAttribute, quoted]
  have htype : p.readContentType u = (typeInside p.dispositionLine).getD u.contentType := rfl
  rw [htype, hline]
  exact getD_typeInside_ne_nil (hp.contentType u hu).1 _

/-- The end of a turn stores the part as it is read. -/
theorem storePart_headers (hp : p.Sendable boundary) (result : FormData) :
    storePart p.headers p.content result = p.readBack.store result := by
  rw [storePart, partName_headers hp, if_neg hp.name_ne_nil]
  cases hu : p.upload with
  | none =>
    rw [partFilename_headers_of_text hp hu]
    simp [store, readBack, hu]
  | some u =>
    rw [partFilename_headers hp hu, partContentType_headers hp hu,
      if_pos (readFilename_ne_nil hp hu), if_neg (readContentType_ne_nil hp hu)]
    simp [store, readBack, hu]

end FormPart

/-! ### The fields and files -/

/-- Parts whose headers store them as other parts are stored as these. -/
theorem foldl_storePart {parts : List FormPart} {raw : FormPart → RawPart}
    {read : FormPart → FormPart}
    (h : ∀ p ∈ parts, ∀ result,
      storePart (raw p).headers (raw p).content result = (read p).store result)
    (result : FormData) :
    (parts.map raw).foldl (fun form q => storePart q.headers q.content form) result =
      (parts.map read).foldl (fun form p => p.store form) result := by
  induction parts generalizing result with
  | nil => rfl
  | cons p parts ih =>
    obtain ⟨hp, hrest⟩ := List.forall_mem_cons.mp h
    rw [List.map_cons, List.map_cons, List.foldl_cons, List.foldl_cons, hp]
    exact ih hrest _

/-- The part as it stands in the body. -/
def FormPart.raw (p : FormPart) : RawPart := ⟨p.headers, p.content⟩

theorem FormPart.fits_raw {boundary : Bytes} {p : FormPart} (hp : p.Sendable boundary) :
    p.raw.Fits boundary :=
  ⟨find_headerTerminator_lines (isLine_headers hp), hp.not_infix_content⟩

theorem Form.render_eq {boundary : Bytes} (f : Form boundary) (epilogue : Bytes) :
    f.render epilogue = (f.parts.map FormPart.raw).flatMap (RawPart.bytes boundary) ++
      (delimiter boundary ++ (ascii "--" ++ epilogue)) := by
  rw [Form.render, List.flatMap_map]
  congr 2
  funext p
  simp only [RawPart.bytes, FormPart.raw, FormPart.rendered, FormPart.headers, headOf_eq_append,
    List.append_assoc]

/-- The parser reads the parts of a rendered form. -/
theorem parseMultipart_render {boundary : Bytes} (hb : IsBoundary boundary) (f : Form boundary)
    (epilogue : Bytes) :
    parseMultipart (f.render epilogue) boundary =
      (f.parts.map FormPart.readBack).foldl (fun form p => p.store form) .empty := by
  have hfits : ∀ q ∈ f.parts.map FormPart.raw, q.Fits boundary :=
    List.forall_mem_map.mpr fun p hp => FormPart.fits_raw (f.sendable p hp)
  rw [f.render_eq, parseMultipart_bytes hb hfits]
  exact foldl_storePart (fun p hp => FormPart.storePart_headers (f.sendable p hp)) _

/-- The form has exactly the fields and files of the parts. -/
structure FormData.Holds (form : FormData) (parts : List FormPart) : Prop where
  fields : ∀ name value, form.fields name = some value ↔
    ∃ p ∈ parts, p.name = name ∧ p.upload = none ∧ p.content = value
  files : ∀ name file, form.files name = some file ↔
    ∃ p ∈ parts, ∃ u, p.name = name ∧ p.upload = some u ∧
      file = ⟨u.filename, u.contentType, p.content⟩

/-- A part with a new name is added. -/
theorem FormData.Holds.store {form : FormData} {parts : List FormPart} (h : form.Holds parts)
    {p : FormPart} (hp : p.name ∉ parts.map FormPart.name) :
    (p.store form).Holds (parts ++ [p]) := by
  have hnew : ∀ q ∈ parts, q.name ≠ p.name := by
    intro q hq heq
    exact hp (heq ▸ List.mem_map_of_mem hq)
  have hsplit : ∀ P : FormPart → Prop,
      (∃ q ∈ parts ++ [p], P q) ↔ (∃ q ∈ parts, P q) ∨ P p := by
    intro P
    simp only [List.mem_append, List.mem_singleton, or_and_right, exists_or, exists_eq_left]
  constructor
  · intro name value
    rw [hsplit]
    cases hu : p.upload with
    | some u => simp [FormPart.store, hu, h.fields name value]
    | none =>
      by_cases hname : name = p.name
      · -- No earlier part has the name.
        subst hname
        have hold : ¬ ∃ q ∈ parts, q.name = p.name ∧ q.upload = none ∧ q.content = value :=
          fun ⟨q, hq, heq, _⟩ => hnew q hq heq
        simp [FormPart.store, hu, hold]
      · simp [FormPart.store, hu, Function.update_of_ne hname, Ne.symm hname, h.fields name value]
  · intro name file
    rw [hsplit]
    cases hu : p.upload with
    | none => simp [FormPart.store, hu, h.files name file]
    | some u =>
      by_cases hname : name = p.name
      · subst hname
        have hold : ¬ ∃ q ∈ parts, ∃ u, q.name = p.name ∧ q.upload = some u ∧
            file = ⟨u.filename, u.contentType, q.content⟩ :=
          fun ⟨q, hq, _, heq, _⟩ => hnew q hq heq
        rw [or_iff_right hold]
        simp [FormPart.store, hu, eq_comm]
      · simp [FormPart.store, hu, Function.update_of_ne hname, Ne.symm hname, h.files name file]

/-- Parts with distinct names are stored one by one. -/
theorem holds_foldl {parts : List FormPart} (h : (parts.map FormPart.name).Nodup) :
    FormData.Holds (parts.foldl (fun form p => p.store form) .empty) parts := by
  induction parts using List.reverseRecOn with
  | nil => constructor <;> simp [FormData.empty]
  | append_singleton parts p ih =>
    rw [List.map_append, List.map_singleton, List.nodup_append] at h
    rw [List.foldl_append]
    apply (ih h.1).store
    intro hmem
    exact h.2.2 p.name hmem p.name (List.mem_singleton_self _) rfl

/-! ### The round trip -/

/-- A file comes back with its file name and its content type: its name does not end like the key of
file names, and neither its name nor its file name contains the key of content types; or what is
then read instead happens to be the same. -/
structure FormPart.ReadsBack (p : FormPart) : Prop where
  filename : ∀ u ∈ p.upload, ascii "filename=" <:+ p.name → u.filename = ascii "; filename="
  contentType : ∀ u ∈ p.upload, ascii "Content-Type: " <:+: p.name ∨
    ascii "Content-Type: " <:+: u.filename → p.typeInLine = some u.contentType

/-- The key of content types stands in the line of a file when it stands in one of its names. -/
theorem infix_dispositionLine_iff {p : FormPart} {u : Upload} (hu : p.upload = some u) :
    ascii "Content-Type: " <:+: p.dispositionLine ↔
      ascii "Content-Type: " <:+: p.name ∨ ascii "Content-Type: " <:+: u.filename := by
  have hline : p.dispositionLine = ascii "Content-Disposition: form-data; name=" ++ 34 ::
      (p.name ++ 34 :: (ascii "; filename=" ++ 34 :: (u.filename ++ 34 :: []))) := by
    simp [FormPart.dispositionLine, FormPart.filenameAttribute, quoted, hu]
  have hmark : 34 ∉ ascii "Content-Type: " := by decide
  have hfirst : ¬ ascii "Content-Type: " <:+: ascii "Content-Disposition: form-data; name=" := by
    decide
  have hsecond : ¬ ascii "Content-Type: " <:+: ascii "; filename=" := by decide
  have hlast : ¬ ascii "Content-Type: " <:+: [] := by decide
  rw [hline, infix_append_cons_iff hmark, infix_append_cons_iff hmark,
    infix_append_cons_iff hmark, infix_append_cons_iff hmark]
  simp only [hfirst, hsecond, hlast, false_or, or_false]

theorem readBack_of_text {p : FormPart} (hu : p.upload = none) : p.readBack = p := by
  obtain ⟨name, upload, content⟩ := p
  obtain rfl : upload = none := hu
  rfl

theorem readBack_of_upload {p : FormPart} {u : Upload} (hu : p.upload = some u) :
    p.readBack = p ↔ p.readFilename u = u.filename ∧ p.readContentType u = u.contentType := by
  obtain ⟨name, upload, content⟩ := p
  obtain rfl : upload = some u := hu
  obtain ⟨filename, contentType⟩ := u
  simp [FormPart.readBack]

theorem readFilename_eq_iff (p : FormPart) (u : Upload) :
    p.readFilename u = u.filename ↔
      (ascii "filename=" <:+ p.name → u.filename = ascii "; filename=") := by
  rw [FormPart.readFilename]
  split
  next h => exact ⟨fun heq _ => heq.symm, fun himp => (himp h).symm⟩
  next h => exact iff_of_true rfl fun hsuffix => absurd hsuffix h

theorem readContentType_eq_iff {p : FormPart} {u : Upload} (hu : p.upload = some u) :
    p.readContentType u = u.contentType ↔
      (ascii "Content-Type: " <:+: p.name ∨ ascii "Content-Type: " <:+: u.filename →
        p.typeInLine = some u.contentType) := by
  rw [← infix_dispositionLine_iff hu, FormPart.readContentType]
  cases hfind : find (ascii "Content-Type: ") p.dispositionLine with
  | none =>
    have hline : p.typeInLine = none := by rw [FormPart.typeInLine, hfind, Option.map_none]
    have hnot := find_eq_none_iff_not_isInfix.mp hfind
    rw [hline]
    exact iff_of_true rfl fun hinside => absurd hinside hnot
  | some i =>
    have hline : p.typeInLine = some (p.dispositionLine.drop (i + 14)) := by
      rw [FormPart.typeInLine, hfind, Option.map_some]
    have hinside : ascii "Content-Type: " <:+: p.dispositionLine :=
      infix_iff_exists_prefix_drop.mpr ⟨i, (find_eq_some_iff.mp hfind).1⟩
    rw [hline]
    simp [hinside]

theorem readBack_eq_iff (p : FormPart) : p.readBack = p ↔ p.ReadsBack := by
  cases hu : p.upload with
  | none =>
    refine iff_of_true (readBack_of_text hu) ⟨?_, ?_⟩
    · intro u hmem
      exact absurd (hu.symm.trans hmem) (by simp)
    · intro u hmem
      exact absurd (hu.symm.trans hmem) (by simp)
  | some u =>
    rw [readBack_of_upload hu, readFilename_eq_iff, readContentType_eq_iff hu]
    constructor
    · rintro ⟨hfilename, hcontentType⟩
      constructor
      · intro u' hmem
        obtain rfl := Option.some_inj.mp (hu.symm.trans hmem)
        exact hfilename
      · intro u' hmem
        obtain rfl := Option.some_inj.mp (hu.symm.trans hmem)
        exact hcontentType
    · intro h
      exact ⟨h.filename u hu, h.contentType u hu⟩

/-- A form with the parts as they are read has the parts only if each of them comes back. -/
theorem FormData.Holds.readBack_eq {form : FormData} {parts : List FormPart}
    (h : form.Holds parts) (hread : form.Holds (parts.map FormPart.readBack)) :
    ∀ p ∈ parts, p.readBack = p := by
  intro p hp
  cases hu : p.upload with
  | none => exact readBack_of_text hu
  | some u =>
    -- The entry of its name is the part, and it is the part as it is read.
    have hfile := (h.files p.name _).mpr ⟨p, hp, u, rfl, hu, rfl⟩
    have hback : p.readBack.upload = some ⟨p.readFilename u, p.readContentType u⟩ := by
      rw [FormPart.readBack, hu]
      rfl
    have hfile' := (hread.files p.name _).mpr
      ⟨p.readBack, List.mem_map_of_mem hp, _, rfl, hback, rfl⟩
    rw [hfile] at hfile'
    obtain ⟨hfilename, hcontentType, -⟩ : u.filename = p.readFilename u ∧
        u.contentType = p.readContentType u ∧ p.content = p.content :=
      FormFile.mk.inj (Option.some_inj.mp hfile')
    exact (readBack_of_upload hu).mpr ⟨hfilename.symm, hcontentType.symm⟩

/-- The parser reads the parts of a rendered form, each as it is read back. -/
theorem holds_parseMultipart {boundary : Bytes} (hb : IsBoundary boundary) (f : Form boundary)
    (epilogue : Bytes) :
    (parseMultipart (f.render epilogue) boundary).Holds (f.parts.map FormPart.readBack) := by
  rw [parseMultipart_render hb]
  apply holds_foldl
  rw [List.map_map]
  exact f.nodup_names

/-- Exactly when a form comes back: a request announces the boundary and carries the rendering of
the form. It has exactly the fields and files of the form if and only if each file comes back. -/
theorem form_round_trip_iff {boundary : Bytes} (hb : IsBoundary boundary) (f : Form boundary)
    {req : Request} {contentType epilogue : Bytes} (hct : AnnouncesForm boundary contentType)
    (hheader : (req.findHeaderCi (ascii "content-type")).map StringView.bytes = some contentType)
    (hbody : req.body.bytes = f.render epilogue) :
    req.form.Holds f.parts ↔ ∀ p ∈ f.parts, p.ReadsBack := by
  have hextract := hb.extractBoundary_eq hct
  have hkind : find (ascii "multipart/form-data") contentType ≠ none := by
    obtain ⟨params, -, rfl | rfl⟩ := hct
    all_goals
      rw [find_append_of_eq_some (i := 0) (by decide)]
      simp
  have hform : req.form = parseMultipart (f.render epilogue) boundary := by
    obtain ⟨ct, hct', rfl⟩ := Option.map_eq_some_iff.mp hheader
    rw [Request.form, hct']
    simp only [if_neg hkind, hextract, if_neg hb.ne_nil, hbody]
  -- The form holds what its parts are read as, and determines these parts.
  have hread := holds_parseMultipart hb f epilogue
  rw [hform]
  constructor
  · intro hholds p hp
    exact (readBack_eq_iff p).mp (hholds.readBack_eq hread p hp)
  · intro hback
    have hsame : f.parts.map FormPart.readBack = f.parts := by
      have hid : f.parts.map FormPart.readBack = f.parts.map id :=
        List.map_congr_left fun p hp => (readBack_eq_iff p).mpr (hback p hp)
      rw [hid, List.map_id]
    rwa [hsame] at hread

/-! ### Concrete forms -/

theorem isBoundary_B : IsBoundary (ascii "B") where
  ne_nil := by decide
  forall_isTokenChar := by
    have hletter : ascii "B" = [66] := by decide
    intro c hc
    rw [hletter, List.mem_singleton] at hc
    rw [hc]
    decide

/-- A request with a form as its body. -/
def formRequest (body : Bytes) : Request :=
  { parseHeaders ⟨.readBuffer 0, 0, ascii "POST /upload HTTP/1.1\r\n" ++
      ascii "Content-Type: multipart/form-data; boundary=B; charset=utf-8\r\n\r\n"⟩ with
    body := ⟨.readBuffer 0, 0, body⟩ }

theorem header_formRequest (body : Bytes) :
    ((formRequest body).findHeaderCi (ascii "content-type")).map StringView.bytes =
      some (ascii "multipart/form-data; boundary=B; charset=utf-8") := by
  have hheaders : (formRequest body).headers = (formRequest []).headers := rfl
  rw [Request.findHeaderCi, hheaders]
  decide +kernel

theorem announcesForm_B :
    AnnouncesForm (ascii "B") (ascii "multipart/form-data; boundary=B; charset=utf-8") :=
  ⟨ascii "; charset=utf-8", Or.inr (by decide), Or.inl (by decide)⟩

/-- A field that looks like a part header with dashes, and a file. -/
def sampleParts : List FormPart :=
  [⟨ascii "filename=", none, ascii "name=\"a\"\r\n--\r\n\r\n"⟩,
    ⟨ascii "doc", some ⟨ascii "a.txt", ascii "text/plain"⟩, ascii "hello"⟩]

/-- A file whose name looks like a content type. -/
def oddParts : List FormPart :=
  [⟨ascii "doc", some ⟨ascii "Content-Type: x", ascii "text/plain"⟩, ascii "hello"⟩]

theorem sendable_sampleParts : ∀ p ∈ sampleParts, p.Sendable (ascii "B") := by decide +kernel

theorem sendable_oddParts : ∀ p ∈ oddParts, p.Sendable (ascii "B") := by decide +kernel

theorem nodup_sampleParts : (sampleParts.map FormPart.name).Nodup := by decide

theorem nodup_oddParts : (oddParts.map FormPart.name).Nodup := by decide

/-- The form with a field and a file. -/
def sampleForm : Form (ascii "B") := ⟨sampleParts, sendable_sampleParts, nodup_sampleParts⟩

/-- The form with the odd file. -/
def oddForm : Form (ascii "B") := ⟨oddParts, sendable_oddParts, nodup_oddParts⟩

theorem readsBack_sampleParts : ∀ p ∈ sampleForm.parts, p.ReadsBack := by
  have hpart : ∀ p ∈ sampleParts, p.readBack = p := by decide +kernel
  intro p hp
  exact (readBack_eq_iff p).mp (hpart p hp)

/-- The form with a field and a file comes back. -/
theorem form_round_trip_sampleForm :
    (formRequest (sampleForm.render crlf)).form.Holds sampleParts := by
  apply (form_round_trip_iff isBoundary_B sampleForm announcesForm_B (header_formRequest _)
    rfl).mpr
  exact readsBack_sampleParts

/-- The content type of the odd file is read from its name. -/
theorem not_form_round_trip_oddForm :
    ¬ ∀ (boundary : Bytes) (f : Form boundary) (req : Request) (contentType epilogue : Bytes),
      IsBoundary boundary → AnnouncesForm boundary contentType →
      (req.findHeaderCi (ascii "content-type")).map StringView.bytes = some contentType →
      req.body.bytes = f.render epilogue → req.form.Holds f.parts := by
  intro h
  have hholds := h (ascii "B") oddForm (formRequest (oddForm.render crlf)) _ crlf isBoundary_B
    announcesForm_B (header_formRequest _) rfl
  have hfile := (hholds.files (ascii "doc") _).mpr
    ⟨_, List.mem_cons_self, _, rfl, rfl, rfl⟩
  have hread : (formRequest (oddForm.render crlf)).form.files (ascii "doc") =
      some ⟨ascii "Content-Type: x", ascii "x\"", ascii "hello"⟩ := by
    decide +kernel
  rw [hread] at hfile
  exact absurd hfile (by decide)

end Lundi
