import Lundi.Core.HeaderFields
import Lundi.Core.Response

/-!
# The head of a serialized response

What `serialize_into` writes, as a status line, fields and a body. The custom headers stand between
fields that the serializer generates; whether it generates the last two depends on the names of the
custom headers alone.

* `serialize_eq`: the bytes are the head with these fields, and the body;
* `cleanField_headFields`: fields without line terminators are generated around custom ones
  without.
-/

namespace Lundi

open Decimal

namespace Response

/-- The status line. -/
def statusLine (r : Response) : Bytes :=
  if r.status = 200 then ascii "HTTP/1.1 200 OK"
  else
    ascii "HTTP/1.1 " ++ FastItoa.init.formatted (r.status % 2 ^ 64).toNat ++
      sp :: statusText r.status

/-- The field of a preset content type. -/
def presetFields (r : Response) : List (Bytes × Bytes) :=
  match r.presetCt with
  | .text => [(ascii "Content-Type", ascii "text/plain; charset=utf-8")]
  | .json => [(ascii "Content-Type", ascii "application/json; charset=utf-8")]
  | .html => [(ascii "Content-Type", ascii "text/html; charset=utf-8")]
  | .none => []

/-- The fields in front of the custom ones. -/
def leadingFields (date : Bytes) (r : Response) : List (Bytes × Bytes) :=
  (ascii "Server", ascii "Lundi") :: (ascii "Date", date) :: r.presetFields

/-- The custom fields. -/
def customFields (r : Response) : List (Bytes × Bytes) :=
  r.writtenHeaders.map fun h => (h.name, h.value)

/-- The generated length of the body. -/
def lengthFields (r : Response) : List (Bytes × Bytes) :=
  if r.hasContentLength then []
  else [(ascii "Content-Length", FastItoa.init.formatted r.body.length)]

/-- The generated announcement that the connection stays open. -/
def connectionFields (r : Response) : List (Bytes × Bytes) :=
  if r.hasConnection then [] else [(ascii "Connection", ascii "keep-alive")]

/-- The fields behind the custom ones. -/
def trailingFields (r : Response) : List (Bytes × Bytes) := r.lengthFields ++ r.connectionFields

/-- All fields of the head. -/
def headFields (date : Bytes) (r : Response) : List (Bytes × Bytes) :=
  r.leadingFields date ++ r.customFields ++ r.trailingFields

/-- The head. -/
def head (date : Bytes) (r : Response) : Bytes :=
  headOf (r.statusLine :: (r.headFields date).map fieldLine)

/-! ### The bytes -/

/-- The lines of some fields, each with its terminator. -/
def fieldBytes (fs : List (Bytes × Bytes)) : Bytes := fs.flatMap fun f => fieldLine f ++ crlf

theorem fieldBytes_append (fs fs' : List (Bytes × Bytes)) :
    fieldBytes (fs ++ fs') = fieldBytes fs ++ fieldBytes fs' :=
  List.flatMap_append

theorem headOf_map_fieldLine (l : Bytes) (fs : List (Bytes × Bytes)) :
    headOf (l :: fs.map fieldLine) = l ++ crlf ++ fieldBytes fs ++ crlf := by
  simp [headOf, fieldBytes, List.flatMap_map]

theorem contents_appendStatusLine (r : Response) :
    (r.appendStatusLine (.init 0)).contents = r.statusLine ++ crlf := by
  unfold appendStatusLine statusLine
  split
  · rw [WriteBuffer.contents_append, WriteBuffer.contents_init]
    decide
  · simp

theorem contents_appendPreset (r : Response) :
    (r.appendPreset (.init 0)).contents = fieldBytes r.presetFields := by
  unfold appendPreset presetFields
  cases r.presetCt with
  | none => exact WriteBuffer.contents_init 0
  | text =>
    rw [WriteBuffer.contents_append, WriteBuffer.contents_init]
    decide
  | html =>
    rw [WriteBuffer.contents_append, WriteBuffer.contents_init]
    decide
  | json =>
    rw [WriteBuffer.contents_append, WriteBuffer.contents_init]
    decide

theorem contents_appendContentLength (r : Response) :
    (r.appendContentLength (.init 0)).contents = fieldBytes r.lengthFields := by
  unfold appendContentLength lengthFields
  split
  · exact WriteBuffer.contents_init 0
  · simp [fieldBytes, fieldLine, show ascii "Content-Length: " =
      ascii "Content-Length" ++ ascii ": " by decide]

theorem contents_appendConnection (r : Response) :
    (r.appendConnection (.init 0)).contents = fieldBytes r.connectionFields := by
  unfold appendConnection connectionFields
  split
  · exact WriteBuffer.contents_init 0
  · rw [WriteBuffer.contents_append, WriteBuffer.contents_init]
    rfl

theorem headerBytes_eq (r : Response) : r.headerBytes = fieldBytes r.customFields := by
  simp [headerBytes, customFields, fieldBytes, fieldLine, List.flatMap_map]

/-- A serialized response is its head and its body. -/
theorem serialize_eq (date : Bytes) (r : Response) :
    r.serialize date = r.head date ++ r.body := by
  have hserver : ascii "Server: Lundi\r\nDate: " ++ date ++ crlf =
      fieldBytes [(ascii "Server", ascii "Lundi"), (ascii "Date", date)] := by
    have hsplit : ascii "Server: Lundi\r\nDate: " =
        fieldLine (ascii "Server", ascii "Lundi") ++ crlf ++ (ascii "Date" ++ ascii ": ") := by
      decide
    simp [hsplit, fieldBytes, fieldLine]
  have hleading : r.leadingFields date =
      [(ascii "Server", ascii "Lundi"), (ascii "Date", date)] ++ r.presetFields := rfl
  rw [serialize, contents_serializeInto_eq, WriteBuffer.contents_init, List.nil_append,
    contents_appendStatusLine, hserver, contents_appendPreset, headerBytes_eq,
    contents_appendContentLength, contents_appendConnection, head, headOf_map_fieldLine,
    headFields, trailingFields, hleading]
  simp only [fieldBytes_append, List.append_assoc]

/-! ### Names -/

/-- The names of the fields in front of the custom ones. -/
theorem name_mem_leadingFields {date : Bytes} {r : Response} {f : Bytes × Bytes}
    (h : f ∈ r.leadingFields date) :
    f.1 ∈ [ascii "Server", ascii "Date", ascii "Content-Type"] := by
  rcases List.mem_cons.mp h with rfl | h
  · exact List.mem_cons_self
  · rcases List.mem_cons.mp h with rfl | h
    · exact List.mem_cons_of_mem _ List.mem_cons_self
    · -- Each preset has a field with the same name.
      unfold presetFields at h
      cases hct : r.presetCt <;> simp [hct] at h
      all_goals simp [h]

/-- The fields in front of the custom ones have no part in the values of another name. -/
theorem valuesOf_leadingFields {name : Bytes}
    (hname : ∀ n ∈ [ascii "Server", ascii "Date", ascii "Content-Type"],
      equalsIgnoreCase n name = false) (date : Bytes) (r : Response) :
    valuesOf name (r.leadingFields date) = [] :=
  valuesOf_eq_nil fun _ hf => hname _ (name_mem_leadingFields hf)

/-- Where no custom field has a name, the serializer finds neither of two spellings of it. -/
theorem any_spelling_eq_false {r : Response} {name a b : Bytes}
    (ha : equalsIgnoreCase a name = true) (hb : equalsIgnoreCase b name = true)
    (h : ∀ f ∈ r.customFields, equalsIgnoreCase f.1 name = false) :
    (r.writtenHeaders.any fun header => header.name == a || header.name == b) = false := by
  rw [List.any_eq_false]
  intro header hheader hname
  have hne : equalsIgnoreCase header.name name = false := h _ (List.mem_map_of_mem hheader)
  rcases Bool.or_eq_true_iff.mp hname with hname | hname
  · rw [eq_of_beq hname, ha] at hne
    exact absurd hne (by decide)
  · rw [eq_of_beq hname, hb] at hne
    exact absurd hne (by decide)

/-! ### Lines -/

theorem unbroken_statusText (code : ℤ) : Unbroken (statusText code) := by
  unfold statusText
  repeat refine Unbroken.ite (by decide) ?_
  decide

/-- No part of a line terminator is a digit. -/
theorem unbroken_formatted (val : ℕ) : Unbroken (FastItoa.init.formatted val) := by
  have hdigits := (FastItoa.formatted_spec FastItoa.init val rfl).1
  constructor
  · intro h
    exact absurd (hdigits cr h) (by decide)
  · intro h
    exact absurd (hdigits lf h) (by decide)

theorem isLine_statusLine (r : Response) : IsLine r.statusLine := by
  unfold statusLine
  split
  · decide
  · refine ⟨by simp, ?_⟩
    have hcode := unbroken_formatted (r.status % 2 ^ 64).toNat
    have htext : Unbroken ([sp] ++ statusText r.status) :=
      unbroken_append.mpr ⟨by decide, unbroken_statusText r.status⟩
    exact unbroken_append.mpr ⟨unbroken_append.mpr ⟨by decide, hcode⟩, htext⟩

theorem cleanField_presetFields (r : Response) : ∀ f ∈ r.presetFields, CleanField f := by
  have hclean : ∀ value ∈ [ascii "text/plain; charset=utf-8",
      ascii "application/json; charset=utf-8", ascii "text/html; charset=utf-8"],
      CleanField (ascii "Content-Type", value) := by
    intro value hvalue
    have hall : ∀ v ∈ [ascii "text/plain; charset=utf-8",
        ascii "application/json; charset=utf-8", ascii "text/html; charset=utf-8"],
        Unbroken v := by
      decide
    exact ⟨show colon ∉ ascii "Content-Type" by decide,
      show Unbroken (ascii "Content-Type") by decide, hall value hvalue⟩
  unfold presetFields
  cases r.presetCt with
  | none => simp
  | text => exact List.forall_mem_singleton.mpr (hclean _ (by simp))
  | html => exact List.forall_mem_singleton.mpr (hclean _ (by simp))
  | json => exact List.forall_mem_singleton.mpr (hclean _ (by simp))

theorem cleanField_leadingFields {date : Bytes} (hdate : Unbroken date) (r : Response) :
    ∀ f ∈ r.leadingFields date, CleanField f := by
  intro f hf
  rcases List.mem_cons.mp hf with rfl | hf
  · exact ⟨by decide, by decide, by decide⟩
  · rcases List.mem_cons.mp hf with rfl | hf
    · exact ⟨show colon ∉ ascii "Date" by decide, show Unbroken (ascii "Date") by decide, hdate⟩
    · exact cleanField_presetFields r f hf

theorem cleanField_trailingFields (r : Response) : ∀ f ∈ r.trailingFields, CleanField f := by
  intro f hf
  rcases List.mem_append.mp hf with hf | hf
  · unfold lengthFields at hf
    split at hf
    · exact absurd hf List.not_mem_nil
    · obtain rfl := List.mem_singleton.mp hf
      exact ⟨show colon ∉ ascii "Content-Length" by decide,
        show Unbroken (ascii "Content-Length") by decide, unbroken_formatted r.body.length⟩
  · unfold connectionFields at hf
    split at hf
    · exact absurd hf List.not_mem_nil
    · obtain rfl := List.mem_singleton.mp hf
      exact ⟨by decide, by decide, by decide⟩

/-- Where every custom field is one line, every field of the head is. -/
theorem cleanField_headFields {date : Bytes} (hdate : Unbroken date) {r : Response}
    (hcustom : ∀ f ∈ r.customFields, CleanField f) : ∀ f ∈ r.headFields date, CleanField f := by
  intro f hf
  rcases List.mem_append.mp hf with hf | hf
  · rcases List.mem_append.mp hf with hf | hf
    · exact cleanField_leadingFields hdate r f hf
    · exact hcustom f hf
  · exact cleanField_trailingFields r f hf

end Response

end Lundi
