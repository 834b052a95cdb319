import Lundi.Lib.Runs
import Lundi.Multipart.Parser

/-!
# Multipart parsing of arbitrary input

Every access of the parser to the body and to the part headers, on bodies of any kind.

* `inRange_accessesAt_iff`: the accesses of one turn are in range exactly when it does not
  collapse;
* `Visited.disjoint`: the contents of the parts lie one behind the other;
* `parsesSafely_iff`: exactly when parsing is safe.

A turn collapses when the next delimiter stands directly behind the empty line that ends the part
headers. The end of the content is then moved in front of its start.
-/

namespace Lundi

open Search Runs

/-! ### Accesses -/

/-- An access to a string of some size. -/
inductive Access
  /-- `s[ i ]`. -/
  | index (i size : ℕ)
  /-- `s.substr( first, last - first )`. -/
  | substr (first last size : ℕ)

/-- The index is in range; the start of the part is, and its length does not wrap around. -/
def Access.InRange : Access → Prop
  | .index i size => i < size
  | .substr first last size => first ≤ size ∧ first ≤ last

/-- The access that cuts a text out of a string. -/
def boundsAccess (size : ℕ) : Option (ℕ × ℕ) → List Access
  | none => []
  | some (first, last) => [.substr first last size]

/-- The accesses of a turn that has found a part. -/
def PartSpan.accesses (part : PartSpan) (body : Bytes) : List Access :=
  let headers := part.headers body
  (if 2 ≤ part.next then
    [.index (part.next - 2) body.length, .index (part.next - 1) body.length]
  else []) ++
    .substr part.contentStart (part.bodyEnd body) body.length ::
      (boundsAccess headers.length (quotedBounds headers (ascii "name=\"")) ++
        (boundsAccess headers.length (quotedBounds headers (ascii "filename=\"")) ++
          boundsAccess headers.length (contentTypeBounds headers)))

/-- The accesses of the turn at a position. -/
def accessesAt (body delim : Bytes) (pos : ℕ) : List Access :=
  (if pos + delim.length + 2 > body.length then []
  else
    [.index (pos + delim.length) body.length, .index (pos + delim.length + 1) body.length]) ++
    match headerSpan body delim pos with
    | none => []
    | some span =>
      .substr span.start span.headerEnd body.length ::
        match partSpan body delim pos with
        | none => []
        | some part => part.accesses body

/-- The bounds of a quoted text are in order. -/
theorem quotedBounds_spec {headers key : Bytes} {first last : ℕ}
    (h : quotedBounds headers key = some (first, last)) :
    first ≤ headers.length ∧ first ≤ last := by
  rw [quotedBounds] at h
  split at h
  · exact absurd h (by simp)
  next p hp =>
    split at h
    · exact absurd h (by simp)
    next hlast =>
      obtain ⟨rfl, rfl⟩ := Prod.mk.inj (Option.some_inj.mp h)
      have hlen := length_le_of_find_eq_some hp
      obtain ⟨hle, -⟩ := findFrom_spec hlast (by decide)
      exact ⟨hlen, hle⟩

/-- So are those of a content type. -/
theorem contentTypeBounds_spec {headers : Bytes} {first last : ℕ}
    (h : contentTypeBounds headers = some (first, last)) :
    first ≤ headers.length ∧ first ≤ last := by
  rw [contentTypeBounds] at h
  split at h
  · exact absurd h (by simp)
  next p hp =>
    have hkey : p + 14 ≤ headers.length := by
      split at hp
      next q hq =>
        obtain rfl := Option.some_inj.mp hp
        exact length_le_of_find_eq_some hq
      next => exact length_le_of_find_eq_some hp
    obtain ⟨rfl, rfl⟩ := Prod.mk.inj (Option.some_inj.mp h)
    refine ⟨hkey, ?_⟩
    cases hend : findFrom crlf headers (p + 14) with
    | none => exact hkey
    | some last => exact (findFrom_spec hend (by decide)).1

theorem inRange_of_mem_boundsAccess {size : ℕ} {bounds : Option (ℕ × ℕ)}
    (h : ∀ first last, bounds = some (first, last) → first ≤ size ∧ first ≤ last) :
    ∀ a ∈ boundsAccess size bounds, a.InRange := by
  intro a ha
  match bounds with
  | none => exact absurd ha List.not_mem_nil
  | some (first, last) =>
    obtain rfl := List.mem_singleton.mp ha
    exact h first last rfl

/-! ### Contents -/

/-- The next delimiter stands directly behind the empty line that ends the part headers. -/
def Collapsed (body delim : Bytes) (pos : ℕ) : Prop :=
  ∃ part, partSpan body delim pos = some part ∧ part.next = part.contentStart

variable {body delim : Bytes} {pos : ℕ} {part : PartSpan}

/-- The empty line ends in front of the content. -/
theorem getElem?_contentStart (h : partSpan body delim pos = some part) (hdelim : delim ≠ []) :
    body[part.contentStart - 2]? = some cr ∧ body[part.contentStart - 1]? = some lf := by
  obtain ⟨hspan, -⟩ := partSpan_spec h hdelim
  obtain ⟨-, -, -, hat⟩ := headerSpan_spec hspan
  obtain ⟨rest, hrest⟩ := hat
  have hget : ∀ i, (body.drop part.headerEnd)[i]? = body[part.headerEnd + i]? :=
    fun i => List.getElem?_drop
  have hcr := hget 2
  have hlf := hget 3
  rw [← hrest] at hcr hlf
  exact ⟨hcr.symm, hlf.symm⟩

/-- The content ends in front of its start exactly when the turn collapses. -/
theorem contentStart_le_bodyEnd_iff (h : partSpan body delim pos = some part)
    (hdelim : delim ≠ []) :
    part.contentStart ≤ part.bodyEnd body ↔ ¬ Collapsed body delim pos := by
  obtain ⟨hcr, hlf⟩ := getElem?_contentStart h hdelim
  obtain ⟨-, hle, -⟩ := partSpan_spec h hdelim
  have hfour : 4 ≤ part.contentStart := Nat.le_add_left 4 part.headerEnd
  have hcollapsed : Collapsed body delim pos ↔ part.next = part.contentStart := by
    constructor
    · rintro ⟨part', h', heq⟩
      rw [h] at h'
      obtain rfl := Option.some_inj.mp h'
      exact heq
    · exact fun heq => ⟨part, h, heq⟩
  rw [hcollapsed, PartSpan.bodyEnd]
  by_cases heq : part.next = part.contentStart
  · -- The terminator of the empty line is taken for the one in front of the delimiter.
    rw [heq, if_pos ⟨by omega, hcr, hlf⟩]
    omega
  · split
    next hcut =>
      by_cases hone : part.next = part.contentStart + 1
      · -- A single byte of content stands behind a line feed.
        have hbyte := hcut.2.1
        have hpos : part.next - 2 = part.contentStart - 1 := by omega
        rw [hpos, hlf] at hbyte
        exact absurd (Option.some_inj.mp hbyte) (by decide)
      · omega
    next => omega

theorem bodyEnd_le_next (part : PartSpan) (body : Bytes) : part.bodyEnd body ≤ part.next := by
  rw [PartSpan.bodyEnd]
  split
  · exact Nat.sub_le _ _
  · exact le_rfl

theorem inRange_of_mem_indices {i j size : ℕ} (hi : i < size) (hj : j < size) :
    ∀ a ∈ [Access.index i size, Access.index j size], a.InRange := by
  intro a ha
  rcases List.mem_pair.mp ha with rfl | rfl
  · exact hi
  · exact hj

/-- A turn that does not collapse makes no bad access to its part. -/
theorem PartSpan.inRange_accesses (hpart : partSpan body delim pos = some part)
    (hdelim : delim ≠ []) (hsound : ¬ Collapsed body delim pos) :
    ∀ a ∈ part.accesses body, a.InRange := by
  intro a ha
  obtain ⟨-, hle, hlen, -, -⟩ := partSpan_spec hpart hdelim
  have hpos : 0 < delim.length := List.length_pos_iff.mpr hdelim
  simp only [PartSpan.accesses, List.mem_append, List.mem_cons] at ha
  rcases ha with ha | rfl | ha | ha | ha
  · split at ha
    · exact inRange_of_mem_indices (by omega) (by omega) a ha
    · exact absurd ha List.not_mem_nil
  · refine ⟨by omega, ?_⟩
    exact (contentStart_le_bodyEnd_iff hpart hdelim).mpr hsound
  · exact inRange_of_mem_boundsAccess (fun _ _ => quotedBounds_spec) a ha
  · exact inRange_of_mem_boundsAccess (fun _ _ => quotedBounds_spec) a ha
  · exact inRange_of_mem_boundsAccess (fun _ _ => contentTypeBounds_spec) a ha

/-- The accesses of a turn are in range exactly when it does not collapse. -/
theorem inRange_accessesAt_iff (hdelim : delim ≠ []) :
    (∀ a ∈ accessesAt body delim pos, a.InRange) ↔ ¬ Collapsed body delim pos := by
  constructor
  · rintro h ⟨part, hpart, heq⟩
    obtain ⟨hspan, -⟩ := partSpan_spec hpart hdelim
    have hmem : Access.substr part.contentStart (part.bodyEnd body) body.length ∈
        accessesAt body delim pos := by
      simp [accessesAt, hspan, hpart, PartSpan.accesses]
    exact (contentStart_le_bodyEnd_iff hpart hdelim).mp (h _ hmem).2 ⟨part, hpart, heq⟩
  · intro hsound a ha
    rw [accessesAt, List.mem_append] at ha
    rcases ha with ha | ha
    · -- The two bytes behind the delimiter.
      split at ha
      · exact absurd ha List.not_mem_nil
      · exact inRange_of_mem_indices (by omega) (by omega) a ha
    · split at ha
      · exact absurd ha List.not_mem_nil
      next span hspan =>
        obtain ⟨-, hstart, hend, -⟩ := headerSpan_spec hspan
        rw [HeaderSpan.contentStart] at hend
        rcases List.mem_cons.mp ha with rfl | ha
        · exact ⟨by omega, hstart⟩
        · split at ha
          · exact absurd ha List.not_mem_nil
          next part hpart => exact PartSpan.inRange_accesses hpart hdelim hsound a ha

/-- A content that ends behind its start is a part of the body. -/
theorem content_eq (h : part.contentStart ≤ part.bodyEnd body) :
    part.content body =
      (body.drop part.contentStart).take (part.bodyEnd body - part.contentStart) := by
  rw [PartSpan.content, slice_eq body h]

/-- There is no delimiter in it. -/
theorem not_infix_content (h : partSpan body delim pos = some part) (hdelim : delim ≠ [])
    (hle : part.contentStart ≤ part.bodyEnd body) : ¬ delim <:+: part.content body := by
  obtain ⟨-, -, -, -, hbefore⟩ := partSpan_spec h hdelim
  have hend := bodyEnd_le_next part body
  have hpos : 0 < delim.length := List.length_pos_iff.mpr hdelim
  rw [content_eq hle]
  rintro ⟨front, back, heq⟩
  have hlen := congrArg List.length heq
  rw [List.length_append, List.length_append, List.length_take] at hlen
  -- An occurrence would begin in front of the delimiter that has been found.
  apply hbefore (part.contentStart + front.length) (by omega) (by omega)
  rw [← List.drop_drop]
  have hprefix : front ++ delim ++ back <+: body.drop part.contentStart := by
    rw [heq]
    exact List.take_prefix _ _
  obtain ⟨rest, hrest⟩ := hprefix
  rw [← hrest]
  exact ⟨back ++ rest, by simp⟩

/-! ### Runs of the loop -/

/-- A turn of the loop: from a delimiter to the one behind the part. -/
def turn (body delim : Bytes) (pos : ℕ) (_ : Unit) : Option ℕ :=
  (partSpan body delim pos).map PartSpan.next

/-- The parser comes to a delimiter at the position. -/
def Visited (body boundary : Bytes) (pos : ℕ) : Prop :=
  ∃ first, find (delimiter boundary) body = some first ∧
    Reach (turn body (delimiter boundary)) Any first pos

theorem turn_eq_some_iff {next : ℕ} {u : Unit} :
    turn body delim pos u = some next ↔
      ∃ part, partSpan body delim pos = some part ∧ part.next = next := by
  rw [turn, Option.map_eq_some_iff]

/-- The loop never goes back. -/
theorem le_of_reach (hdelim : delim ≠ []) {pos' : ℕ} (h : Reach (turn body delim) Any pos pos') :
    pos ≤ pos' := by
  refine h.invariant le_rfl ?_
  intro p u next hle _ hstep
  obtain ⟨part, hpart, rfl⟩ := turn_eq_some_iff.mp hstep
  have hlt := lt_next_of_partSpan hpart hdelim
  omega

/-- A content ends in front of the contents of the parts behind it. -/
theorem bodyEnd_le_contentStart (hdelim : delim ≠ []) {pos' : ℕ} {part' : PartSpan}
    (h : Reach (turn body delim) Any pos pos') (hne : pos ≠ pos')
    (hpart : partSpan body delim pos = some part)
    (hpart' : partSpan body delim pos' = some part') :
    part.bodyEnd body ≤ part'.contentStart := by
  rcases h.eq_or_step with heq | ⟨u, next, -, hstep, hrest⟩
  · exact absurd heq hne
  · obtain ⟨part₀, hpart₀, rfl⟩ := turn_eq_some_iff.mp hstep
    rw [hpart] at hpart₀
    obtain rfl := Option.some_inj.mp hpart₀
    have hend := bodyEnd_le_next part body
    have hle := le_of_reach hdelim hrest
    obtain ⟨hspan, -⟩ := partSpan_spec hpart' hdelim
    obtain ⟨hstart, hheader, -, -⟩ := headerSpan_spec hspan
    rw [HeaderSpan.contentStart]
    omega

/-- The contents of two parts lie one behind the other. -/
theorem Visited.disjoint {boundary : Bytes} {pos' : ℕ} {part' : PartSpan}
    (h : Visited body boundary pos) (h' : Visited body boundary pos') (hne : pos ≠ pos')
    (hpart : partSpan body (delimiter boundary) pos = some part)
    (hpart' : partSpan body (delimiter boundary) pos' = some part') :
    part.bodyEnd body ≤ part'.contentStart ∨ part'.bodyEnd body ≤ part.contentStart := by
  have hdelim := delimiter_ne_nil boundary
  obtain ⟨first, hfirst, hreach⟩ := h
  obtain ⟨first', hfirst', hreach'⟩ := h'
  rw [hfirst] at hfirst'
  obtain rfl := Option.some_inj.mp hfirst'
  rcases hreach.total hreach' with hlater | hearlier
  · exact Or.inl (bodyEnd_le_contentStart hdelim hlater hne hpart hpart')
  · exact Or.inr (bodyEnd_le_contentStart hdelim hearlier hne.symm hpart' hpart)

/-! ### What is stored -/

/-- A turn stores nothing but its content. -/
theorem of_mem_storePart (headers content : Bytes) (result : FormData) (name : Bytes) :
    (∀ value, (storePart headers content result).fields name = some value →
      result.fields name = some value ∨ value = content) ∧
    ∀ file, (storePart headers content result).files name = some file →
      result.files name = some file ∨ file.data = content := by
  rw [storePart]
  split
  · exact ⟨fun _ h => Or.inl h, fun _ h => Or.inl h⟩
  · split
    · refine ⟨fun _ h => Or.inl h, fun file h => ?_⟩
      simp only [Function.update_apply] at h
      split at h
      · obtain rfl := Option.some_inj.mp h
        exact Or.inr rfl
      · exact Or.inl h
    · refine ⟨fun value h => ?_, fun _ h => Or.inl h⟩
      simp only [Function.update_apply] at h
      split at h
      · exact Or.inr (Option.some_inj.mp h).symm
      · exact Or.inl h

/-- The text is the content of a part that is reached from a position. -/
def IsContentFrom (body delim : Bytes) (pos : ℕ) (text : Bytes) : Prop :=
  ∃ pos' part, Reach (turn body delim) Any pos pos' ∧ partSpan body delim pos' = some part ∧
    text = part.content body

/-- The loop stores nothing but contents. The induction is on the budget of turns. -/
theorem of_mem_parseLoop {budget : ℕ} {result form : FormData}
    (h : parseLoop body delim budget pos result = some form) (name : Bytes) :
    (∀ value, form.fields name = some value →
      result.fields name = some value ∨ IsContentFrom body delim pos value) ∧
    ∀ file, form.files name = some file →
      result.files name = some file ∨ IsContentFrom body delim pos file.data := by
  induction budget generalizing pos result with
  | zero => exact absurd h (by simp [parseLoop])
  | succ budget ih =>
    rw [parseLoop] at h
    cases hpart : partSpan body delim pos with
    | none =>
      rw [hpart] at h
      obtain rfl := Option.some_inj.mp h
      exact ⟨fun _ hvalue => Or.inl hvalue, fun _ hfile => Or.inl hfile⟩
    | some part =>
      rw [hpart] at h
      have hstep : Reach (turn body delim) Any pos part.next :=
        Reach.start.next () (turn_eq_some_iff.mpr ⟨part, hpart, rfl⟩)
      -- What a later turn comes to, this one comes to a step later.
      have hlater : ∀ text, IsContentFrom body delim part.next text →
          IsContentFrom body delim pos text := by
        rintro text ⟨pos', part', hreach, hpart', rfl⟩
        exact ⟨pos', part', hstep.trans hreach, hpart', rfl⟩
      obtain ⟨hfields, hfiles⟩ := ih h
      obtain ⟨hfield, hfile⟩ :=
        of_mem_storePart (part.headers body) (part.content body) result name
      constructor
      · intro value hvalue
        rcases hfields value hvalue with hstored | hcontent
        · rcases hfield value hstored with hold | rfl
          · exact Or.inl hold
          · exact Or.inr ⟨pos, part, .start, hpart, rfl⟩
        · exact Or.inr (hlater value hcontent)
      · intro file hvalue
        rcases hfiles file hvalue with hstored | hcontent
        · rcases hfile file hstored with hold | hnew
          · exact Or.inl hold
          · exact Or.inr ⟨pos, part, .start, hpart, hnew⟩
        · exact Or.inr (hlater file.data hcontent)

/-- The text is the content of a part that the parser comes to. -/
def IsContent (body boundary text : Bytes) : Prop :=
  ∃ pos part, Visited body boundary pos ∧ partSpan body (delimiter boundary) pos = some part ∧
    text = part.content body

theorem parseLoop_parseMultipart {body boundary : Bytes} {first : ℕ}
    (hfirst : find (delimiter boundary) body = some first) {budget : ℕ}
    (hbudget : body.length < budget) :
    parseLoop body (delimiter boundary) budget first .empty =
      some (parseMultipart body boundary) := by
  have hleft : body.length - first < body.length + 1 := by omega
  obtain ⟨form, hform⟩ := parseLoop_eq_some (delimiter_ne_nil boundary) hleft .empty
  have hparse : parseMultipart body boundary = form := by
    rw [parseMultipart, hfirst]
    simp only [hform, Option.getD_some]
  rw [hparse]
  exact parseLoop_mono hform hbudget

/-- Whatever is stored is a content. -/
theorem isContent_of_stored {body boundary : Bytes} (name : Bytes) :
    (∀ value, (parseMultipart body boundary).fields name = some value →
      IsContent body boundary value) ∧
    ∀ file, (parseMultipart body boundary).files name = some file →
      IsContent body boundary file.data := by
  cases hfirst : find (delimiter boundary) body with
  | none =>
    have hparse : parseMultipart body boundary = .empty := by rw [parseMultipart, hfirst]
    rw [hparse]
    exact ⟨fun _ h => absurd h (by simp [FormData.empty]),
      fun _ h => absurd h (by simp [FormData.empty])⟩
  | some first =>
    -- The loop starts at the first delimiter, with an empty form.
    have hvisited : ∀ text, IsContentFrom body (delimiter boundary) first text →
        IsContent body boundary text := by
      rintro text ⟨pos, part, hreach, hpart, rfl⟩
      exact ⟨pos, part, ⟨first, hfirst, hreach⟩, hpart, rfl⟩
    obtain ⟨hfields, hfiles⟩ :=
      of_mem_parseLoop (parseLoop_parseMultipart hfirst (Nat.lt_succ_self _)) name
    constructor
    · intro value hvalue
      rcases hfields value hvalue with hold | hcontent
      · exact absurd hold (by simp [FormData.empty])
      · exact hvisited value hcontent
    · intro file hfile
      rcases hfiles file hfile with hold | hcontent
      · exact absurd hold (by simp [FormData.empty])
      · exact hvisited file.data hcontent

/-! ### Safety -/

/-- Parsing is safe: it ends, whatever budget larger than the body it is given; all accesses are in
range; what is stored are contents of parts; these are slices of the body without a delimiter, and
those of different parts have no byte in common. -/
structure ParsesSafely (body boundary : Bytes) : Prop where
  terminates : ∀ first, find (delimiter boundary) body = some first →
    ∀ budget, body.length < budget →
      parseLoop body (delimiter boundary) budget first .empty =
        some (parseMultipart body boundary)
  inRange : ∀ pos, Visited body boundary pos →
    ∀ a ∈ accessesAt body (delimiter boundary) pos, a.InRange
  field_isContent : ∀ name value, (parseMultipart body boundary).fields name = some value →
    IsContent body boundary value
  file_isContent : ∀ name file, (parseMultipart body boundary).files name = some file →
    IsContent body boundary file.data
  isSlice : ∀ pos part, Visited body boundary pos →
    partSpan body (delimiter boundary) pos = some part →
      part.contentStart ≤ part.bodyEnd body ∧ part.bodyEnd body ≤ body.length ∧
        part.content body =
          (body.drop part.contentStart).take (part.bodyEnd body - part.contentStart) ∧
        ¬ delimiter boundary <:+: part.content body
  disjoint : ∀ pos pos' part part', Visited body boundary pos → Visited body boundary pos' →
    pos ≠ pos' → partSpan body (delimiter boundary) pos = some part →
      partSpan body (delimiter boundary) pos' = some part' →
        part.bodyEnd body ≤ part'.contentStart ∨ part'.bodyEnd body ≤ part.contentStart

/-- A turn collapses only where a delimiter stands directly behind an empty line. -/
theorem not_collapsed_of_not_infix (hdelim : delim ≠ [])
    (h : ¬ headerTerminator ++ delim <:+: body) (pos : ℕ) : ¬ Collapsed body delim pos := by
  rintro ⟨part, hpart, heq⟩
  obtain ⟨hspan, -, -, hnext, -⟩ := partSpan_spec hpart hdelim
  obtain ⟨-, -, -, rest, hrest⟩ := headerSpan_spec hspan
  have hdrop : body.drop part.next = rest := by
    rw [heq, HeaderSpan.contentStart, ← List.drop_drop, ← hrest]
    rfl
  rw [hdrop] at hnext
  obtain ⟨rest', rfl⟩ := hnext
  apply h
  refine ⟨body.take part.headerEnd, rest', ?_⟩
  rw [List.append_assoc, List.append_assoc, hrest, List.take_append_drop]

/-- Exactly when parsing is safe: for every body and every boundary, it is if and only if no turn
of the loop collapses. -/
theorem parsesSafely_iff (body boundary : Bytes) :
    ParsesSafely body boundary ↔
      ∀ pos, Visited body boundary pos → ¬ Collapsed body (delimiter boundary) pos := by
  have hdelim := delimiter_ne_nil boundary
  constructor
  · intro h pos hvisited
    exact (inRange_accessesAt_iff hdelim).mp (h.inRange pos hvisited)
  · intro h
    exact {
      terminates := fun first hfirst budget hbudget => parseLoop_parseMultipart hfirst hbudget
      inRange := fun pos hvisited => (inRange_accessesAt_iff hdelim).mpr (h pos hvisited)
      field_isContent := fun name => (isContent_of_stored name).1
      file_isContent := fun name => (isContent_of_stored name).2
      isSlice := fun pos part hvisited hpart => by
        have hle := (contentStart_le_bodyEnd_iff hpart hdelim).mpr (h pos hvisited)
        obtain ⟨-, -, hlen, -, -⟩ := partSpan_spec hpart hdelim
        have hend := bodyEnd_le_next part body
        exact ⟨hle, by omega, content_eq hle, not_infix_content hpart hdelim hle⟩
      disjoint := fun pos pos' part part' hvisited hvisited' hne hpart hpart' =>
        hvisited.disjoint hvisited' hne hpart hpart' }

/-- A field without content, whose delimiter stands directly behind the empty line. -/
def emptyField : Bytes :=
  ascii "--B\r\nContent-Disposition: form-data; name=\"a\"\r\n\r\n--B--\r\n"

/-- Its value is the closing delimiter. -/
theorem not_parsesSafely_emptyField :
    ¬ ∀ body boundary, boundary ≠ [] → ParsesSafely body boundary := by
  intro h
  have hsafe := h emptyField (ascii "B") (by decide)
  have hspan : partSpan emptyField (delimiter (ascii "B")) 0 = some ⟨⟨5, 45⟩, 49⟩ := by
    decide +kernel
  have hvisited : Visited emptyField (ascii "B") 0 := ⟨0, by decide, .start⟩
  obtain ⟨hle, -⟩ := hsafe.isSlice 0 _ hvisited hspan
  exact absurd hle (by decide)

end Lundi
