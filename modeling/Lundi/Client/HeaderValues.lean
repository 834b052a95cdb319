import Lundi.Client.RoundTrip

/-!
# What the value of a header can influence

`set_header` takes any strings, and the serializer writes them as they are. A value that is one line
influences only its own field; a value with a line terminator in it is a part of the head, or of the
body, like any other.

* `oneFieldApart_withValue`: two values that are one line each make two messages that differ in one
  field;
* `not_oneFieldApart_samples`: why the value, the other custom fields and the status are restricted.
-/

namespace Lundi

/-- Two byte strings are read as one message each, and the two messages differ at most in the field
at position `k`. -/
def OneFieldApart (k : ℕ) (s s' : Bytes) : Prop :=
  ∃ (status : ℕ) (before after : List (Bytes × Bytes)) (body : Bytes) (f f' : Bytes × Bytes),
    before.length = k ∧ readAll s = some [⟨status, before ++ f :: after, body⟩] ∧
      readAll s' = some [⟨status, before ++ f' :: after, body⟩]

namespace Response

/-- The response with another value in the custom header at position `i`. -/
def withValue (r : Response) (i : ℕ) (value : Bytes) : Response :=
  { r with headers := r.headers.modify i fun h => { h with value := value } }

/-- The position of a custom header among all fields of the head. -/
def fieldIndex (date : Bytes) (r : Response) (i : ℕ) : ℕ := (r.leadingFields date).length + i

variable {r : Response} {i : ℕ} {h : ResponseHeader}

/-- The header is written with the other value. -/
theorem writtenHeaders_withValue (r : Response) (i : ℕ) (value : Bytes) :
    (r.withValue i value).writtenHeaders =
      r.writtenHeaders.modify i fun h => { h with value := value } := by
  rw [writtenHeaders, writtenHeaders, withValue, List.take_modify]

/-- The names of the custom headers stay as they are. -/
theorem names_withValue (r : Response) (i : ℕ) (value : Bytes) :
    (r.withValue i value).writtenHeaders.map ResponseHeader.name =
      r.writtenHeaders.map ResponseHeader.name := by
  rw [writtenHeaders_withValue]
  apply List.ext_getElem?
  intro j
  rw [List.getElem?_map, List.getElem?_map, List.getElem?_modify]
  cases r.writtenHeaders[j]? with
  | none => rfl
  | some h => split <;> rfl

/-- A test of the names has the same result. -/
theorem any_name_withValue (p : Bytes → Bool) (r : Response) (i : ℕ) (value : Bytes) :
    ((r.withValue i value).writtenHeaders.any fun h => p h.name) =
      r.writtenHeaders.any fun h => p h.name := by
  have hnames : ∀ headers : List ResponseHeader,
      (headers.any fun h => p h.name) = (headers.map ResponseHeader.name).any p := by
    intro headers
    rw [List.any_map]
    rfl
  rw [hnames, hnames, names_withValue]

/-- The flags of the serializer depend on the names. -/
theorem hasContentLength_withValue (r : Response) (i : ℕ) (value : Bytes) :
    (r.withValue i value).hasContentLength = r.hasContentLength :=
  any_name_withValue (fun n => n == ascii "Content-Length" || n == ascii "content-length") r i value

theorem hasConnection_withValue (r : Response) (i : ℕ) (value : Bytes) :
    (r.withValue i value).hasConnection = r.hasConnection :=
  any_name_withValue (fun n => n == ascii "Connection" || n == ascii "connection") r i value

/-- The fields behind the custom ones stay as they are. -/
theorem trailingFields_withValue (r : Response) (i : ℕ) (value : Bytes) :
    (r.withValue i value).trailingFields = r.trailingFields := by
  rw [trailingFields, trailingFields, lengthFields, lengthFields, connectionFields,
    connectionFields, hasContentLength_withValue, hasConnection_withValue]
  rfl

/-- The custom fields around the header stay as they are. -/
theorem customFields_withValue (hi : r.writtenHeaders[i]? = some h) (value : Bytes) :
    (r.withValue i value).customFields =
      r.customFields.take i ++ (h.name, value) :: r.customFields.drop (i + 1) := by
  obtain ⟨hlt, hget⟩ := List.getElem?_eq_some_iff.mp hi
  rw [customFields, writtenHeaders_withValue, List.modify_eq_take_cons_drop hlt, hget,
    List.map_append, List.map_cons, List.map_take, List.map_drop]
  rfl

/-- The header among the custom fields. -/
theorem customFields_split (hi : r.writtenHeaders[i]? = some h) :
    r.customFields =
      r.customFields.take i ++ (h.name, h.value) :: r.customFields.drop (i + 1) := by
  obtain ⟨hlt, hget⟩ := List.getElem?_eq_some_iff.mp hi
  have hlt' : i < r.customFields.length := by simpa [customFields] using hlt
  have hfield : r.customFields[i] = (h.name, h.value) := by simp [customFields, hget]
  rw [← hfield, ← List.drop_eq_getElem_cons hlt', List.take_append_drop]

/-- The values of another name stay as they are. -/
theorem valuesOf_withValue {name : Bytes} (hi : r.writtenHeaders[i]? = some h)
    (hname : equalsIgnoreCase h.name name = false) (value : Bytes) :
    valuesOf name (r.withValue i value).customFields = valuesOf name r.customFields := by
  -- The header with another name has no part in these values, whatever its own value is.
  have hskip : ∀ (fs fs' : List (Bytes × Bytes)) (v : Bytes),
      valuesOf name (fs ++ (h.name, v) :: fs') = valuesOf name (fs ++ fs') := by
    intro fs fs' v
    rw [valuesOf_append, valuesOf_append, valuesOf, valuesOf, List.filter_cons_of_neg (by simpa)]
    rfl
  rw [customFields_withValue hi, customFields_split hi, hskip, hskip, ← customFields_split hi]

/-- Another value of a header that does not frame the message leaves the framing alone. -/
theorem Framed.withValue (hr : r.Framed) (hi : r.writtenHeaders[i]? = some h)
    (hname : ∀ name ∈ framingNames, equalsIgnoreCase h.name name = false) (value : Bytes) :
    (r.withValue i value).Framed where
  coding := by
    rw [valuesOf_withValue hi (hname _ (by decide))]
    exact hr.coding
  length := by
    rw [valuesOf_withValue hi (hname _ (by decide)), hasContentLength_withValue]
    exact hr.length

/-- A response that can be read can be read with another value of a header that is one line and,
where there may be a body, does not frame the message. -/
theorem Readable.withValue (hr : r.Readable) (hi : r.writtenHeaders[i]? = some h)
    (hname : ¬ r.HasNoBodyStatus → ∀ name ∈ framingNames, equalsIgnoreCase h.name name = false)
    {value : Bytes} (hvalue : Unbroken value) : (r.withValue i value).Readable where
  status_ge := hr.status_ge
  status_le := hr.status_le
  clean := by
    -- The fields around the header are the same, and the new value is one line, too.
    have hclean := hr.clean
    rw [customFields_split hi, List.forall_mem_append, List.forall_mem_cons] at hclean
    obtain ⟨hbefore, hfield, hafter⟩ := hclean
    rw [customFields_withValue hi, List.forall_mem_append, List.forall_mem_cons]
    exact ⟨hbefore, ⟨hfield.colon_notMem, hfield.name, hvalue⟩, hafter⟩
  delimited := by
    have hdelimited := hr.delimited
    by_cases hnone : r.HasNoBodyStatus
    · rw [if_pos hnone] at hdelimited
      rwa [if_pos (show (r.withValue i value).HasNoBodyStatus from hnone)]
    · rw [if_neg hnone] at hdelimited
      rw [if_neg (show ¬ (r.withValue i value).HasNoBodyStatus from hnone)]
      exact ⟨hdelimited.1.withValue hi (hname hnone) value, hdelimited.2⟩

/-- What a client reads when the header has a value that is one line. -/
theorem readAll_withValue {date : Bytes} (hdate : Unbroken date) (hr : r.Readable)
    (hi : r.writtenHeaders[i]? = some h)
    (hname : ¬ r.HasNoBodyStatus → ∀ name ∈ framingNames, equalsIgnoreCase h.name name = false)
    {value : Bytes} (hvalue : Unbroken value) :
    readAll ((r.withValue i value).serialize date) =
      some [⟨r.status.toNat,
        (r.leadingFields date ++ r.customFields.take i).map trimmed ++ (h.name, trim value) ::
          (r.customFields.drop (i + 1) ++ r.trailingFields).map trimmed, r.body⟩] := by
  -- The header stands between fields that do not depend on its value.
  have hfields : (r.withValue i value).headFields date =
      (r.leadingFields date ++ r.customFields.take i) ++ (h.name, value) ::
        (r.customFields.drop (i + 1) ++ r.trailingFields) := by
    have hleading : (r.withValue i value).leadingFields date = r.leadingFields date := rfl
    rw [headFields, hleading, customFields_withValue hi, trailingFields_withValue]
    simp only [List.append_assoc, List.cons_append]
  have hread :=
    readAll_of_readResponse ((hr.withValue hi hname hvalue).readResponse_serialize hdate)
  rw [hread, hfields, List.map_append, List.map_cons]
  rfl

end Response

/-- Two values that are one line each make two messages that differ at most in the field of that
header, for every header of a response without a body and for every header of the others that does
not frame the message. -/
theorem oneFieldApart_withValue {date : Bytes} (hdate : Unbroken date) {r : Response}
    (hr : r.Readable) {i : ℕ} {h : ResponseHeader} (hi : r.writtenHeaders[i]? = some h)
    (hname : ¬ r.HasNoBodyStatus →
      ∀ name ∈ Response.framingNames, equalsIgnoreCase h.name name = false)
    {value value' : Bytes} (hvalue : Unbroken value) (hvalue' : Unbroken value') :
    OneFieldApart (r.fieldIndex date i) ((r.withValue i value).serialize date)
      ((r.withValue i value').serialize date) := by
  have hlt := (List.getElem?_eq_some_iff.mp hi).1
  refine ⟨_, _, _, _, _, _, ?_, Response.readAll_withValue hdate hr hi hname hvalue,
    Response.readAll_withValue hdate hr hi hname hvalue'⟩
  -- The fields in front of it are the leading ones and the custom ones in front of it.
  have hcustom : r.customFields.length = r.writtenHeaders.length := List.length_map _
  rw [List.length_map, List.length_append, List.length_take, Response.fieldIndex]
  omega

/-- A redirection to a target that was copied from the request. -/
def redirect : Response :=
  (Response.text (ascii "gone") 302).setHeader (ascii "Location") (ascii "/a")

theorem readable_redirect : redirect.Readable := by
  apply Response.HasBodyStatus.readable (by decide) _ (Response.framed_of_forall_ne _) (by decide)
  · intro f hf
    obtain rfl := List.mem_singleton.mp hf
    exact ⟨by decide, by decide, by decide⟩
  · intro f hf
    obtain rfl := List.mem_singleton.mp hf
    decide

/-- An answer without a body, which says how long the body would be. -/
def notModified : Response :=
  ({ status := 304 } : Response).setHeader (ascii "Content-Length") (ascii "5")

theorem readable_notModified : notModified.Readable := by
  have hnone : notModified.HasNoBodyStatus := by decide
  refine ⟨by decide, by decide, ?_, ?_⟩
  · intro f hf
    obtain rfl := List.mem_singleton.mp hf
    exact ⟨by decide, by decide, by decide⟩
  · rw [if_pos hnone]
    rfl

theorem oneFieldApart_withValue_samples :
    OneFieldApart (redirect.fieldIndex sampleDate 0)
        ((redirect.withValue 0 (ascii "/b")).serialize sampleDate)
        ((redirect.withValue 0 (ascii "/c; d:e")).serialize sampleDate) ∧
      OneFieldApart (notModified.fieldIndex sampleDate 0)
        ((notModified.withValue 0 (ascii "7")).serialize sampleDate)
        ((notModified.withValue 0 (ascii "chunked")).serialize sampleDate) := by
  constructor
  · exact oneFieldApart_withValue (by decide) readable_redirect
      (h := ⟨ascii "Location", ascii "/a"⟩) (by decide) (fun _ => by decide) (by decide) (by decide)
  · have hnone : notModified.HasNoBodyStatus := by decide
    exact oneFieldApart_withValue (by decide) readable_notModified
      (h := ⟨ascii "Content-Length", ascii "5"⟩) (by decide) (fun hbody => absurd hnone hbody)
      (by decide) (by decide)

/-! ### Why there are conditions -/

/-- A check of what two messages that are one field apart have in common. -/
def sameButField (k : ℕ) (s s' : Bytes) : Bool :=
  match readAll s, readAll s' with
  | some [m], some [m'] =>
    m.status == m'.status && m.fields.eraseIdx k == m'.fields.eraseIdx k && m.body == m'.body
  | _, _ => false

theorem OneFieldApart.sameButField_eq {k : ℕ} {s s' : Bytes} (h : OneFieldApart k s s') :
    sameButField k s s' = true := by
  obtain ⟨status, before, after, body, f, f', rfl, hs, hs'⟩ := h
  simp [sameButField, hs, hs', List.eraseIdx_append_of_length_le]

/-- A response, the position of one of its headers, and two values for it. -/
structure ValueSample where
  response : Response
  index : ℕ
  value : Bytes
  value' : Bytes

/-- The values of a sample make messages that are one field apart. -/
def ValueSample.Apart (x : ValueSample) : Prop :=
  OneFieldApart (x.response.fieldIndex sampleDate x.index)
    ((x.response.withValue x.index x.value).serialize sampleDate)
    ((x.response.withValue x.index x.value').serialize sampleDate)

/-- A field and a whole response in the value of a header. -/
def splittingSamples : List ValueSample :=
  [⟨redirect, 0, ascii "/b", ascii "/b\r\nSet-Cookie: id=1"⟩,
    ⟨redirect, 0, ascii "/b", ascii "/b\r\nContent-Length: 0\r\n\r\nHTTP/1.1 200 OK"⟩]

/-- Values on one line of a header that frames the message, of one whose name is not a name, and of
a harmless one next to such headers, in front of a body behind a status that announces none, or
behind a status without three digits. -/
def framingSamples : List ValueSample :=
  [⟨(Response.text (ascii "ok")).setHeader (ascii "Content-Length") [], 0, ascii "2", ascii "1"⟩,
    ⟨(Response.text (ascii "ok")).setHeader (ascii "X\r\n\r\nX") [], 0, ascii "a", ascii "b"⟩,
    ⟨(Response.text (ascii "ok")).setHeader (ascii "Content-Length:2") [], 0, ascii "a", ascii "b"⟩,
    ⟨((Response.text (ascii "ok")).setHeader (ascii "X") (ascii "\r\n\r\n")).setHeader
      (ascii "Y") [], 1, ascii "a", ascii "b"⟩,
    ⟨((Response.text (ascii "ok")).setHeader (ascii "CONTENT-LENGTH") (ascii "1")).setHeader
      (ascii "Y") [], 1, ascii "a", ascii "b"⟩,
    ⟨((Response.text (ascii "ok")).setHeader (ascii "Transfer-Encoding")
      (ascii "chunked")).setHeader (ascii "Y") [], 1, ascii "a", ascii "b"⟩,
    ⟨(Response.text (ascii "ok") 100).setHeader (ascii "Y") [], 0, ascii "a", ascii "b"⟩,
    ⟨(Response.text (ascii "ok") 204).setHeader (ascii "Y") [], 0, ascii "a", ascii "b"⟩,
    ⟨(Response.text (ascii "ok") 304).setHeader (ascii "Y") [], 0, ascii "a", ascii "b"⟩,
    ⟨(Response.text [] 99).setHeader (ascii "Y") [], 0, ascii "a", ascii "b"⟩,
    ⟨(Response.text (ascii "ok") 1000).setHeader (ascii "Y") [], 0, ascii "a", ascii "b"⟩]

/-- Without the conditions the messages are not one field apart: not when a value has a line
terminator in it, and not for values on one line when the rest of the response cannot be read. -/
theorem not_oneFieldApart_samples :
    (¬ ∀ (date : Bytes) (r : Response) (i : ℕ) (value value' : Bytes), IsCachedDate date →
        i < r.writtenHeaders.length →
          OneFieldApart (r.fieldIndex date i) ((r.withValue i value).serialize date)
            ((r.withValue i value').serialize date)) ∧
      ∀ x ∈ splittingSamples ++ framingSamples,
        x.index < x.response.writtenHeaders.length ∧ ¬ x.Apart := by
  have hsamples : ∀ x ∈ splittingSamples ++ framingSamples,
      x.index < x.response.writtenHeaders.length ∧ ¬ x.Apart := by
    have hrun : (splittingSamples ++ framingSamples).all (fun x =>
        decide (x.index < x.response.writtenHeaders.length) &&
          !sameButField (x.response.fieldIndex sampleDate x.index)
            ((x.response.withValue x.index x.value).serialize sampleDate)
            ((x.response.withValue x.index x.value').serialize sampleDate)) = true := by
      decide +kernel
    intro x hx
    obtain ⟨hlt, hno⟩ := Bool.and_eq_true_iff.mp (List.all_eq_true.mp hrun x hx)
    refine ⟨of_decide_eq_true hlt, fun hapart => ?_⟩
    rw [hapart.sameButField_eq] at hno
    exact absurd hno (by decide)
  refine ⟨fun hall => ?_, hsamples⟩
  obtain ⟨hlt, hno⟩ := hsamples _ List.mem_cons_self
  exact hno (hall sampleDate _ _ _ _ (by decide) hlt)

end Lundi
