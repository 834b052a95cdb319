import Lundi.Client.ResponseReader
import Lundi.Core.ResponseHead

/-!
# Serialized responses are read back

A client reads from the serialized bytes the status, the custom fields among the generated ones,
and the body.

* `Response.Readable.readResponse_serialize`: one response, with any bytes behind it;
* `readAll_serializeAll`: responses that are written one behind the other from one buffer.
-/

namespace Lundi

open Decimal

namespace Response

/-- A status of three digits is read from the status line. -/
theorem statusOf_statusLine {r : Response} (hge : 100 ≤ r.status) (hle : r.status ≤ 999) :
    statusOf r.statusLine = some r.status.toNat := by
  unfold statusLine
  split
  next hok =>
    rw [hok]
    decide
  next =>
    -- The cast to `uint64_t` changes nothing, and the digits are those of the status.
    obtain ⟨n, hn⟩ := Int.eq_ofNat_of_zero_le (show 0 ≤ r.status by omega)
    have hwrap : (r.status % 2 ^ 64).toNat = n := by omega
    have hformatted : FastItoa.init.formatted n = decimal n := FastItoa.formatted_eq rfl (by omega)
    have hthree : (decimal n).length = 3 := by
      rw [length_decimal, if_neg (by omega), length_decimal, if_neg (by omega), length_decimal,
        if_pos (by omega)]
    have hversion : (ascii "HTTP/1.1 ").length = 9 := by decide
    -- The code stands between the version and the text.
    have hdrop : (ascii "HTTP/1.1 " ++ decimal n ++ sp :: statusText r.status).drop 9 =
        decimal n ++ sp :: statusText r.status := by
      rw [List.append_assoc, ← hversion, List.drop_left]
    have hcode : (decimal n ++ sp :: statusText r.status).take 3 = decimal n := by
      rw [← hthree, List.take_left]
    have hblank : ((ascii "HTTP/1.1 " ++ decimal n ++ sp :: statusText r.status).drop 12).head? =
        some sp := by
      rw [← List.drop_drop (i := 3) (j := 9), hdrop, ← hthree, List.drop_left]
      rfl
    rw [hwrap, hformatted, statusOf]
    simp only [hdrop, hcode, hblank]
    rw [if_pos ⟨by rw [List.append_assoc]; exact List.prefix_append _ _, hthree,
      isNumeral_decimal n, trivial⟩, value_decimal]
    congr 1
    omega

/-! ### Framing -/

/-- The names of the fields that frame a message. -/
def framingNames : List Bytes := [ascii "content-length", ascii "transfer-encoding"]

/-- The custom headers leave the length of the body as it is: none has the name of a framing field,
or a single `Content-Length` in a spelling that replaces the generated one gives that length. -/
structure Framed (r : Response) : Prop where
  coding : valuesOf (ascii "transfer-encoding") r.customFields = []
  length : (r.hasContentLength = false ∧ valuesOf (ascii "content-length") r.customFields = []) ∨
    (r.hasContentLength = true ∧ ∃ val, valuesOf (ascii "content-length") r.customFields = [val] ∧
      IsNumeral (trim val) ∧ value (trim val) = r.body.length)

/-- A status of three digits behind which a client expects a body. -/
def HasBodyStatus (r : Response) : Prop :=
  200 ≤ r.status ∧ r.status ≤ 999 ∧ r.status ≠ 204 ∧ r.status ≠ 304

instance (r : Response) : Decidable r.HasBodyStatus :=
  inferInstanceAs (Decidable (200 ≤ r.status ∧ r.status ≤ 999 ∧ r.status ≠ 204 ∧ r.status ≠ 304))

/-- A status behind which a client expects no body. -/
def HasNoBodyStatus (r : Response) : Prop := r.status < 200 ∨ r.status = 204 ∨ r.status = 304

instance (r : Response) : Decidable r.HasNoBodyStatus :=
  inferInstanceAs (Decidable (r.status < 200 ∨ r.status = 204 ∨ r.status = 304))

theorem HasBodyStatus.not_hasNoBodyStatus {r : Response} (h : r.HasBodyStatus) :
    ¬ r.HasNoBodyStatus := by
  obtain ⟨hge, -, hne, hne'⟩ := h
  rintro (hlt | heq | heq)
  exacts [absurd hge (not_le.mpr hlt), hne heq, hne' heq]

/-- The generated fields in front of and behind the custom ones frame nothing but the body. -/
theorem valuesOf_framing (r : Response) (date : Bytes) :
    valuesOf (ascii "transfer-encoding") (r.headFields date) =
        valuesOf (ascii "transfer-encoding") r.customFields ∧
      valuesOf (ascii "content-length") (r.headFields date) =
        valuesOf (ascii "content-length") r.customFields ++
          if r.hasContentLength then [] else [FastItoa.init.formatted r.body.length] := by
  -- Only the generated length is a framing field.
  have hconnection : ∀ name ∈ framingNames, valuesOf name r.connectionFields = [] := by
    unfold connectionFields
    split <;> decide
  have hcoding : valuesOf (ascii "transfer-encoding") r.lengthFields = [] := by
    apply valuesOf_eq_nil
    unfold lengthFields
    split
    · simp
    · exact List.forall_mem_singleton.mpr (show equalsIgnoreCase (ascii "Content-Length")
        (ascii "transfer-encoding") = false by decide)
  have hlength : valuesOf (ascii "content-length") r.lengthFields =
      if r.hasContentLength then [] else [FastItoa.init.formatted r.body.length] := by
    unfold lengthFields
    split
    · rfl
    · exact valuesOf_singleton (by decide) _
  rw [headFields, trailingFields]
  simp only [valuesOf_append, hlength, hcoding, hconnection _ List.mem_cons_self,
    hconnection (ascii "transfer-encoding") (by decide), List.append_nil]
  rw [valuesOf_leadingFields (by decide), valuesOf_leadingFields (by decide)]
  exact ⟨rfl, rfl⟩

/-- The announced length is the length of the body. -/
theorem Framed.bodyLength_eq {r : Response} (hr : r.Framed) (hstatus : r.HasBodyStatus)
    (hbody : r.body.length < 2 ^ 64) (date : Bytes) :
    bodyLength r.status.toNat ((r.headFields date).map trimmed) = some r.body.length := by
  obtain ⟨hge, -, hne, hne'⟩ := hstatus
  obtain ⟨hcoding, hlength⟩ := r.valuesOf_framing date
  rw [hr.coding] at hcoding
  rw [bodyLength, if_neg (by omega), valuesOf_map_trimmed, valuesOf_map_trimmed, hcoding, hlength]
  rcases hr.length with ⟨hno, hnone⟩ | ⟨hyes, val, hval, hnumeral, hvalue⟩
  · -- The length is generated.
    have hformatted : FastItoa.init.formatted r.body.length = decimal r.body.length :=
      FastItoa.formatted_eq rfl hbody
    have htrim : trim (decimal r.body.length) = decimal r.body.length :=
      trim_of_isDigit fun _ hb => isDigit_of_mem_decimal hb
    simp only [hno, hnone, hformatted, Bool.false_eq_true,
      if_false, List.nil_append, List.map_cons, List.map_nil, htrim]
    rw [if_pos (isNumeral_decimal _), value_decimal]
  · simp only [hyes, hval, if_true, List.append_nil, List.map_cons, List.map_nil]
    rw [if_pos hnumeral, hvalue]

/-- A response that a client can read: its status has three digits, its custom fields are lines, and
there is a body exactly where the status and the length announce it. Behind a status without a body
there is none; elsewhere the custom fields leave its length as it is, which is a `size_t`. -/
structure Readable (r : Response) : Prop where
  status_ge : 100 ≤ r.status
  status_le : r.status ≤ 999
  clean : ∀ f ∈ r.customFields, CleanField f
  delimited : if r.HasNoBodyStatus then r.body = [] else r.Framed ∧ r.body.length < 2 ^ 64

theorem HasBodyStatus.readable {r : Response} (h : r.HasBodyStatus)
    (hclean : ∀ f ∈ r.customFields, CleanField f) (hframed : r.Framed)
    (hlength : r.body.length < 2 ^ 64) : r.Readable where
  status_ge := le_trans (by decide) h.1
  status_le := h.2.1
  clean := hclean
  delimited := by
    rw [if_neg h.not_hasNoBodyStatus]
    exact ⟨hframed, hlength⟩

/-- A client takes the whole body, and nothing behind it. -/
theorem Readable.bodyLength_eq {r : Response} (hr : r.Readable) (date : Bytes) :
    bodyLength r.status.toNat ((r.headFields date).map trimmed) = some r.body.length := by
  have hdelimited := hr.delimited
  have hge := hr.status_ge
  split at hdelimited
  next hnone =>
    -- Nothing is read behind the head.
    have hstatus : r.status.toNat < 200 ∨ r.status.toNat = 204 ∨ r.status.toNat = 304 := by
      unfold HasNoBodyStatus at hnone
      omega
    rw [bodyLength, if_pos hstatus, hdelimited, List.length_nil]
  next hbody =>
    obtain ⟨hfinal, hne⟩ := not_or.mp hbody
    have hstatus : HasBodyStatus r := ⟨not_lt.mp hfinal, hr.status_le, not_or.mp hne⟩
    exact hdelimited.1.bodyLength_eq hstatus hdelimited.2 date

/-- Such a response is read back, whatever comes behind it. -/
theorem Readable.readResponse_serialize {date : Bytes} (hdate : Unbroken date) {r : Response}
    (hr : r.Readable) (rest : Bytes) :
    readResponse (r.serialize date ++ rest) =
      some (⟨r.status.toNat, (r.headFields date).map trimmed, r.body⟩, rest) := by
  rw [serialize_eq, head]
  exact readResponse_append (isLine_statusLine r) (cleanField_headFields hdate hr.clean)
    (statusOf_statusLine hr.status_ge hr.status_le) (hr.bodyLength_eq date) rest

end Response

/-! ### Plain responses -/

/-- A header whose name is a token, or at least without colons and line terminators, and does not
frame the message, and whose value is one line without blanks around it. -/
structure ResponseHeader.Plain (h : ResponseHeader) : Prop where
  colon_notMem : colon ∉ h.name
  unbroken_name : Unbroken h.name
  ne_framing : ∀ name ∈ Response.framingNames, equalsIgnoreCase h.name name = false
  unbroken_value : Unbroken h.value
  first : ∀ b ∈ h.value.head?, isBlank b = false
  last : ∀ b ∈ h.value.getLast?, isBlank b = false

namespace Response

/-- A header that does not frame the message does not replace the generated length. -/
theorem hasContentLength_eq_false {r : Response}
    (h : ∀ f ∈ r.customFields, equalsIgnoreCase f.1 (ascii "content-length") = false) :
    r.hasContentLength = false :=
  any_spelling_eq_false (by decide) (by decide) h

/-- Custom headers without the name of a framing field leave the framing alone. -/
theorem framed_of_forall_ne {r : Response}
    (h : ∀ f ∈ r.customFields, ∀ name ∈ framingNames, equalsIgnoreCase f.1 name = false) :
    r.Framed where
  coding := valuesOf_eq_nil fun f hf => h f hf _ (by decide)
  length := by
    have hlength : ∀ f ∈ r.customFields, equalsIgnoreCase f.1 (ascii "content-length") = false :=
      fun f hf => h f hf _ List.mem_cons_self
    exact Or.inl ⟨hasContentLength_eq_false hlength, valuesOf_eq_nil hlength⟩

/-- A response with a status that announces a body, with plain headers, and with a body whose
length is a `size_t`. -/
structure Plain (r : Response) : Prop where
  status : r.HasBodyStatus
  header : ∀ h ∈ r.writtenHeaders, h.Plain
  length_body : r.body.length < 2 ^ 64

/-- What a client is to see of a response: the custom headers as they are, in order, among the
generated fields. -/
def message (date : Bytes) (r : Response) : Message where
  status := r.status.toNat
  fields :=
    [(ascii "Server", ascii "Lundi"), (ascii "Date", trim date)] ++ r.presetFields ++
      r.writtenHeaders.map (fun h => (h.name, h.value)) ++
      [(ascii "Content-Length", decimal r.body.length)] ++ r.connectionFields
  body := r.body

theorem Plain.ne_framing {r : Response} (hr : r.Plain) :
    ∀ f ∈ r.customFields, ∀ name ∈ framingNames, equalsIgnoreCase f.1 name = false := by
  intro f hf
  obtain ⟨h, hh, rfl⟩ := List.mem_map.mp hf
  exact (hr.header h hh).ne_framing

theorem Plain.readable {r : Response} (hr : r.Plain) : r.Readable := by
  apply hr.status.readable _ (framed_of_forall_ne hr.ne_framing) hr.length_body
  intro f hf
  obtain ⟨h, hh, rfl⟩ := List.mem_map.mp hf
  have hplain := hr.header h hh
  exact ⟨hplain.colon_notMem, hplain.unbroken_name, hplain.unbroken_value⟩

/-- The length of the body is generated. -/
theorem Plain.lengthFields_eq {r : Response} (hr : r.Plain) :
    r.lengthFields = [(ascii "Content-Length", decimal r.body.length)] := by
  have hno := hasContentLength_eq_false fun f hf => hr.ne_framing f hf _ List.mem_cons_self
  rw [lengthFields, hno, FastItoa.formatted_eq rfl hr.length_body]
  rfl

/-- A client sees the fields that it is to see. -/
theorem Plain.map_trimmed {r : Response} (hr : r.Plain) (date : Bytes) :
    (r.headFields date).map trimmed = (r.message date).fields := by
  -- No generated value and no custom one has blanks around it; only the date may.
  have hcustom : r.customFields.map trimmed = r.customFields := by
    rw [customFields, List.map_map]
    apply List.map_congr_left
    intro h hh
    have hplain := hr.header h hh
    exact congrArg (h.name, ·) (trim_eq_self hplain.first hplain.last)
  have hpreset : r.presetFields.map trimmed = r.presetFields := by
    unfold presetFields
    cases r.presetCt <;> decide
  have hlength : r.lengthFields.map trimmed = r.lengthFields := by
    rw [hr.lengthFields_eq, List.map_singleton, trimmed]
    simp only [trim_of_isDigit fun _ hb => isDigit_of_mem_decimal hb]
  have hconnection : r.connectionFields.map trimmed = r.connectionFields := by
    unfold connectionFields
    split <;> decide
  have hserver : trimmed (ascii "Server", ascii "Lundi") = (ascii "Server", ascii "Lundi") := by
    decide
  simp only [headFields, leadingFields, trailingFields, List.map_append, List.map_cons, hserver,
    hpreset, hcustom, hlength, hconnection]
  simp only [message, hr.lengthFields_eq, trimmed, customFields, List.append_assoc,
    List.cons_append, List.nil_append]

/-- A plain response is read back, whatever comes behind it. -/
theorem Plain.readResponse_eq {date : Bytes} (hdate : Unbroken date) {r : Response} (hr : r.Plain)
    (rest : Bytes) : readResponse (r.serialize date ++ rest) = some (r.message date, rest) := by
  rw [hr.readable.readResponse_serialize hdate, hr.map_trimmed date]
  rfl

end Response

/-! ### One behind the other -/

/-- The bytes of some responses that are written one behind the other. All are serialized into the
same buffer, which is cleared before each of them; the cached date may change in between. -/
def serializeAll : WriteBuffer → List (Bytes × Response) → Bytes
  | _, [] => []
  | buf, (date, r) :: rs =>
    let buf := r.serializeInto date buf.clear
    buf.contents ++ serializeAll buf rs

/-- What the buffer held before does not matter. -/
theorem serializeAll_eq (buf : WriteBuffer) (rs : List (Bytes × Response)) :
    serializeAll buf rs = rs.flatMap fun p => p.2.serialize p.1 := by
  induction rs generalizing buf with
  | nil => rfl
  | cons p rs ih =>
    obtain ⟨date, r⟩ := p
    rw [serializeAll, List.flatMap_cons, ih, Response.contents_serializeInto,
      WriteBuffer.contents_clear, List.nil_append]

/-- A cached date is 29 bytes on one line. -/
def IsCachedDate (date : Bytes) : Prop := date.length = 29 ∧ Unbroken date

instance (date : Bytes) : Decidable (IsCachedDate date) :=
  inferInstanceAs (Decidable (date.length = 29 ∧ Unbroken date))

/-- From the bytes of plain responses that are written one behind the other, a client reads exactly
these responses, and nothing is left over. -/
theorem readAll_serializeAll (buf : WriteBuffer) (rs : List (Bytes × Response))
    (h : ∀ p ∈ rs, IsCachedDate p.1 ∧ p.2.Plain) :
    readAll (serializeAll buf rs) = some (rs.map fun p => p.2.message p.1) := by
  rw [serializeAll_eq]
  apply readAll_flatMap
  rintro ⟨date, r⟩ hp rest
  obtain ⟨⟨-, hdate⟩, hr⟩ := h _ hp
  exact hr.readResponse_eq hdate rest

/-- A response with a body that looks like a response, and one that closes the connection. -/
def sampleResponses : List Response :=
  [(Response.text (ascii "HTTP/1.1 200 OK\r\nContent-Length: 9\r\n\r\n")).setHeader
      (ascii "X-Id") (ascii "a: b"),
    (Response.json (ascii "[]") 404).setHeader (ascii "Connection") (ascii "close")]

/-- The date of the samples. -/
def sampleDate : Bytes := ascii "Sun, 06 Nov 1994 08:49:37 GMT"

theorem plain_sampleResponses : ∀ r ∈ sampleResponses, r.Plain := by
  have hfirst : ∀ {first : Option UInt8}, first.any isBlank = false →
      ∀ b ∈ first, isBlank b = false := by
    rintro _ hany b rfl
    exact hany
  have hheader : ∀ r ∈ sampleResponses, ∀ h ∈ r.writtenHeaders, h.Plain := by
    intro r hr h hh
    rcases List.mem_pair.mp hr with rfl | rfl
    · obtain rfl := List.mem_singleton.mp hh
      exact ⟨by decide, by decide, by decide, by decide, hfirst (by decide), hfirst (by decide)⟩
    · obtain rfl := List.mem_singleton.mp hh
      exact ⟨by decide, by decide, by decide, by decide, hfirst (by decide), hfirst (by decide)⟩
  intro r hr
  have hheaders := hheader r hr
  rcases List.mem_pair.mp hr with rfl | rfl
  · exact ⟨by decide, hheaders, by decide⟩
  · exact ⟨by decide, hheaders, by decide⟩

theorem readAll_serializeAll_samples :
    readAll (serializeAll (.init 4096) (sampleResponses.map (sampleDate, ·))) =
      some ((sampleResponses.map (sampleDate, ·)).map fun p => p.2.message p.1) := by
  apply readAll_serializeAll _ _
  intro p hp
  obtain ⟨r, hr, rfl⟩ := List.mem_map.mp hp
  exact ⟨show IsCachedDate sampleDate by decide, plain_sampleResponses r hr⟩

end Lundi
