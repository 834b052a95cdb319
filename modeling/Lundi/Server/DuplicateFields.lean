import Lundi.Server.ConnectionField
import Lundi.Server.HeadRequests

/-!
# Duplicate fields

The names of the fields in the head of a response: those that the serializer generates around the
custom headers, the custom headers, and the `Connection` field that `handle_connection` adds to the
last response on a connection. The serializer leaves its own `Content-Length` and `Connection` out
when a custom header has one of two spellings of the name, and nothing else looks at the custom
headers.

* `namesDiffer_serialize_iff`: when a serialized response has no two fields with one name;
* `namesDiffer_answeredOn_iff`: the same of the response as its connection sends it.
-/

namespace Lundi

/-- No two of the names are equal ignoring case. -/
def NamesDiffer (names : List Bytes) : Prop :=
  names.Pairwise fun n m => equalsIgnoreCase n m = false

instance (names : List Bytes) : Decidable (NamesDiffer names) :=
  inferInstanceAs (Decidable (names.Pairwise _))

/-- None of the names is equal to this one ignoring case. -/
def Lacks (names : List Bytes) (name : Bytes) : Prop :=
  ∀ n ∈ names, equalsIgnoreCase n name = false

instance (names : List Bytes) (name : Bytes) : Decidable (Lacks names name) :=
  inferInstanceAs (Decidable (∀ n ∈ names, equalsIgnoreCase n name = false))

theorem equalsIgnoreCase_comm (n m : Bytes) : equalsIgnoreCase n m = equalsIgnoreCase m n :=
  BEq.comm

/-- Names that differ from each other, around other names. -/
theorem namesDiffer_append_append_iff {before names behind : List Bytes}
    (hgenerated : NamesDiffer (before ++ behind)) :
    NamesDiffer (before ++ names ++ behind) ↔
      NamesDiffer names ∧ ∀ n ∈ before ++ behind, Lacks names n := by
  -- The names before and behind differ already; what is left is within `names` and across.
  obtain ⟨hbefore, hbehind, hapart⟩ := List.pairwise_append.mp hgenerated
  rw [NamesDiffer, List.pairwise_append, List.pairwise_append]
  constructor
  · rintro ⟨⟨-, hnames, hfront⟩, -, hback⟩
    refine ⟨hnames, fun n hn m hm => ?_⟩
    rcases List.mem_append.mp hn with hn | hn
    · rw [equalsIgnoreCase_comm]
      exact hfront n hn m hm
    · exact hback m (List.mem_append_right _ hm) n hn
  · rintro ⟨hnames, hlacks⟩
    refine ⟨⟨hbefore, hnames, fun n hn m hm => ?_⟩, hbehind, fun n hn m hm => ?_⟩
    · rw [equalsIgnoreCase_comm]
      exact hlacks n (List.mem_append_left _ hn) m hm
    · rcases List.mem_append.mp hn with hn | hn
      · exact hapart n hn m hm
      · exact hlacks m (List.mem_append_right _ hm) n hn

namespace Response

/-! ### The names in a serialized response -/

/-- The names of the fields that the custom headers make. -/
def seenNames (r : Response) : List Bytes := r.seenFields.map Prod.fst

/-- The names of the fields in front of the custom ones. -/
def leadingNames (r : Response) : List Bytes :=
  [ascii "Server", ascii "Date"] ++
    if r.presetCt = .none then [] else [ascii "Content-Type"]

/-- The names of the fields behind them. -/
def trailingNames (r : Response) : List Bytes :=
  if r.EndsHead then []
  else
    (if r.hasContentLength then [] else [ascii "Content-Length"]) ++
      if r.hasConnection then [] else [ascii "Connection"]

theorem map_fst_fields_serialize {date : Bytes} (hdate : Unbroken date) (r : Response) :
    (fields (r.serialize date)).map Prod.fst =
      r.leadingNames ++ r.seenNames ++ r.trailingNames := by
  have hstripped : ∀ fs : List (Bytes × Bytes),
      (fs.map stripped).map Prod.fst = fs.map Prod.fst := fun fs => by
    rw [List.map_map]
    rfl
  have hleading : (r.leadingFields date).map Prod.fst = r.leadingNames := by
    unfold leadingFields presetFields leadingNames
    cases r.presetCt <;> rfl
  -- A blank line among the headers of the handler hides what is generated behind them.
  have htrailing : (if r.EndsHead then [] else r.trailingFields.map stripped).map Prod.fst =
      r.trailingNames := by
    unfold trailingNames
    split
    · rfl
    · rw [hstripped, trailingFields, List.map_append]
      unfold lengthFields connectionFields
      congr 1
      · split <;> rfl
      · split <;> rfl
  rw [fields_serialize hdate, List.map_append, List.map_append, hstripped, hleading, htrailing]
  rfl

/-- The generated names differ, whichever of them are generated. -/
theorem namesDiffer_generated (r : Response) :
    NamesDiffer (r.leadingNames ++ r.trailingNames) := by
  have hall : NamesDiffer [ascii "Server", ascii "Date", ascii "Content-Type",
      ascii "Content-Length", ascii "Connection"] := by decide
  refine List.Pairwise.sublist ?_ hall
  have hleading : r.leadingNames.Sublist
      [ascii "Server", ascii "Date", ascii "Content-Type"] := by
    unfold leadingNames
    split <;> decide
  have htrailing : r.trailingNames.Sublist [ascii "Content-Length", ascii "Connection"] := by
    unfold trailingNames
    split_ifs <;> decide
  exact hleading.append htrailing

/-- Names among which the generated ones can stand: they differ, and none is one of these, unless
the generated field is left out. -/
structure Leaves (names : List Bytes) (noPreset ends replacesLength replacesConnection : Prop) :
    Prop where
  differ : NamesDiffer names
  server : Lacks names (ascii "Server")
  date : Lacks names (ascii "Date")
  contentType : noPreset ∨ Lacks names (ascii "Content-Type")
  contentLength : ends ∨ replacesLength ∨ Lacks names (ascii "Content-Length")
  connection : ends ∨ replacesConnection ∨ Lacks names (ascii "Connection")

theorem lacks_leadingNames_iff (r : Response) (names : List Bytes) :
    (∀ n ∈ r.leadingNames, Lacks names n) ↔
      Lacks names (ascii "Server") ∧ Lacks names (ascii "Date") ∧
        (r.presetCt = .none ∨ Lacks names (ascii "Content-Type")) := by
  rw [leadingNames, List.forall_mem_append, List.forall_mem_cons, List.forall_mem_singleton,
    and_assoc]
  by_cases hpreset : r.presetCt = .none
  · simp only [hpreset, if_true, List.not_mem_nil, false_imp_iff, implies_true, true_or]
  · simp only [hpreset, if_false, List.forall_mem_singleton, false_or]

theorem lacks_trailingNames_iff (r : Response) (names : List Bytes) :
    (∀ n ∈ r.trailingNames, Lacks names n) ↔
      (r.EndsHead ∨ r.hasContentLength = true ∨ Lacks names (ascii "Content-Length")) ∧
        (r.EndsHead ∨ r.hasConnection = true ∨ Lacks names (ascii "Connection")) := by
  rw [trailingNames]
  by_cases hends : r.EndsHead
  · -- The head ends in front of these fields.
    simp only [hends, if_true, List.not_mem_nil, false_imp_iff, implies_true, true_or, and_self]
  · rw [if_neg hends, List.forall_mem_append]
    simp only [hends, false_or]
    cases r.hasContentLength <;> cases r.hasConnection <;> simp

/-- A serialized response has no two fields with one name exactly when the generated fields can
stand around its custom headers. -/
theorem namesDiffer_serialize_iff {date : Bytes} (hdate : Unbroken date) (r : Response) :
    NamesDiffer ((fields (r.serialize date)).map Prod.fst) ↔
      Leaves r.seenNames (r.presetCt = .none) r.EndsHead (r.hasContentLength = true)
        (r.hasConnection = true) := by
  rw [map_fst_fields_serialize hdate, namesDiffer_append_append_iff r.namesDiffer_generated,
    List.forall_mem_append, lacks_leadingNames_iff, lacks_trailingNames_iff]
  constructor
  · rintro ⟨hdiffer, ⟨hserver, hdate, htype⟩, hlength, hconn⟩
    exact ⟨hdiffer, hserver, hdate, htype, hlength, hconn⟩
  · rintro ⟨hdiffer, hserver, hdate, htype, hlength, hconn⟩
    exact ⟨hdiffer, ⟨hserver, hdate, htype⟩, hlength, hconn⟩

/-! ### The response that a connection sends -/

theorem counted_withHeaders_iff {r : Response} (calls : List ResponseHeader) :
    (r.withHeaders calls).Counted ↔ r.Counted := by
  induction calls generalizing r with
  | nil => exact Iff.rfl
  | cons h calls ih =>
    rw [show r.withHeaders (h :: calls) = (r.setHeader h.name h.value).withHeaders calls from rfl,
      ih, Counted, Counted, setHeader, List.length_append, List.length_singleton]
    exact Nat.add_right_cancel_iff

theorem presetCt_withHeaders (r : Response) (calls : List ResponseHeader) :
    (r.withHeaders calls).presetCt = r.presetCt := by
  induction calls generalizing r with
  | nil => rfl
  | cons h calls ih => exact ih (r.setHeader h.name h.value)

/-- Each call makes a custom header. -/
theorem customFields_withHeaders {r : Response} (hcounted : r.Counted)
    (calls : List ResponseHeader) :
    (r.withHeaders calls).customFields =
      r.customFields ++ calls.map fun h => (h.name, h.value) := by
  induction calls generalizing r with
  | nil => exact (List.append_nil _).symm
  | cons h calls ih =>
    have hcons : r.withHeaders (h :: calls) = (r.setHeader h.name h.value).withHeaders calls := rfl
    have hset : (r.setHeader h.name h.value).Counted := (counted_withHeaders_iff [h]).mpr hcounted
    rw [hcons, ih hset, customFields_setHeader hcounted, List.append_assoc]
    rfl

/-- The fields that the header of the closing connection adds to those of the custom headers. -/
theorem seenNames_closing {r : Response} (hcounted : r.Counted) :
    r.closing.seenNames = r.seenNames ++ if r.EndsHead then [] else [ascii "Connection"] := by
  rw [seenNames, seenFields, terminatedLines_closing hcounted, takeWhile_append_lines,
    List.filterMap_append, List.map_append]
  congr 1
  by_cases hends : r.EndsHead
  · rw [if_pos hends, if_pos (show [] ∈ terminatedLines r.headerBytes from hends)]
    rfl
  · rw [if_neg hends, if_neg (show [] ∉ terminatedLines r.headerBytes from hends)]
    decide

/-- The header that is added has no part in the length. -/
theorem hasContentLength_closing {r : Response} (hcounted : r.Counted) :
    r.closing.hasContentLength = r.hasContentLength := by
  have hany : ∀ r : Response, r.hasContentLength = r.customFields.any fun f =>
      f.1 == ascii "Content-Length" || f.1 == ascii "content-length" := fun r => by
    rw [hasContentLength, customFields, List.any_map]
    rfl
  rw [hany, hany, closing, customFields_setHeader hcounted, List.any_append]
  exact Bool.or_false _

/-- The response as the connection sends it. -/
def answeredOn (r : Response) (keepAlive : Bool) : Response := if keepAlive then r else r.closing

theorem lacks_append {names names' : List Bytes} {name : Bytes} :
    Lacks (names ++ names') name ↔ Lacks names name ∧ Lacks names' name :=
  List.forall_mem_append

/-- The header of the closing connection is one more name, which nothing replaces. -/
theorem leaves_closing_iff {r : Response} (hcounted : r.Counted) :
    Leaves r.closing.seenNames (r.closing.presetCt = .none) r.closing.EndsHead
        (r.closing.hasContentLength = true) (r.closing.hasConnection = true) ↔
      Leaves r.seenNames (r.presetCt = .none) r.EndsHead (r.hasContentLength = true) False := by
  obtain ⟨hconn, hends, -⟩ := closing_spec hcounted
  have hpreset : r.closing.presetCt = r.presetCt := rfl
  rw [hpreset, hasContentLength_closing hcounted, hconn, propext hends, seenNames_closing hcounted]
  by_cases hbroken : r.EndsHead
  · -- The field is not seen.
    rw [if_pos hbroken, List.append_nil]
    constructor
    · rintro ⟨hdiffer, hserver, hdate, htype, hlength, -⟩
      exact ⟨hdiffer, hserver, hdate, htype, hlength, Or.inl hbroken⟩
    · rintro ⟨hdiffer, hserver, hdate, htype, hlength, -⟩
      exact ⟨hdiffer, hserver, hdate, htype, hlength, Or.inl hbroken⟩
  · rw [if_neg hbroken]
    -- It has none of the generated names but its own.
    have hlacks : ∀ name ∈ [ascii "Server", ascii "Date", ascii "Content-Type",
        ascii "Content-Length"],
        Lacks (r.seenNames ++ [ascii "Connection"]) name ↔ Lacks r.seenNames name := by
      intro name hname
      rw [lacks_append]
      apply and_iff_left
      revert name
      decide
    have hdiffer : NamesDiffer (r.seenNames ++ [ascii "Connection"]) ↔
        NamesDiffer r.seenNames ∧ Lacks r.seenNames (ascii "Connection") := by
      rw [NamesDiffer, List.pairwise_append]
      constructor
      · rintro ⟨hseen, -, hapart⟩
        exact ⟨hseen, fun n hn => hapart n hn _ List.mem_cons_self⟩
      · rintro ⟨hseen, hapart⟩
        refine ⟨hseen, List.pairwise_singleton _ _, fun n hn m hm => ?_⟩
        obtain rfl := List.mem_singleton.mp hm
        exact hapart n hn
    constructor
    · rintro ⟨hall, hserver, hdate, htype, hlength, -⟩
      obtain ⟨hseen, hclose⟩ := hdiffer.mp hall
      rw [hlacks _ (by simp)] at hserver hdate htype hlength
      exact ⟨hseen, hserver, hdate, htype, hlength, Or.inr (Or.inr hclose)⟩
    · rintro ⟨hseen, hserver, hdate, htype, hlength, hclose⟩
      have hown : Lacks r.seenNames (ascii "Connection") :=
        (hclose.resolve_left hbroken).resolve_left id
      rw [← hlacks _ (by simp)] at hserver hdate htype hlength
      exact ⟨hdiffer.mpr ⟨hseen, hown⟩, hserver, hdate, htype, hlength, Or.inr (Or.inl rfl)⟩

/-- The response on its connection. -/
theorem leaves_answeredOn_iff {r : Response} (hcounted : r.Counted) (keepAlive : Bool) :
    Leaves (r.answeredOn keepAlive).seenNames ((r.answeredOn keepAlive).presetCt = .none)
        (r.answeredOn keepAlive).EndsHead ((r.answeredOn keepAlive).hasContentLength = true)
        ((r.answeredOn keepAlive).hasConnection = true) ↔
      Leaves r.seenNames (r.presetCt = .none) r.EndsHead (r.hasContentLength = true)
        (keepAlive = true ∧ r.hasConnection = true) := by
  cases keepAlive with
  | true =>
    rw [eq_self, true_and]
    exact Iff.rfl
  | false =>
    rw [eq_false Bool.false_ne_true, false_and]
    exact leaves_closing_iff hcounted

/-- The ways of making a response before headers are set. -/
inductive Factory
  | default | text | html | json
  deriving DecidableEq

/-- The response that is made. -/
def Factory.make : Factory → Bytes → ℤ → Response
  | .default, body, status => { status := status, body := body }
  | .text, body, status => .text body status
  | .html, body, status => .html body status
  | .json, body, status => .json body status

end Response

open Response

/-! ### Conditions on the headers that are set -/

/-- The lines that the headers make in the head. -/
def linesSet (calls : List ResponseHeader) : List Bytes :=
  terminatedLines (fieldBytes (calls.map fun h => (h.name, h.value)))

/-- The names of the fields that a client reads in these lines: the names of the headers, unless
there are line terminators inside. -/
def namesSet (calls : List ResponseHeader) : List Bytes :=
  (((linesSet calls).takeWhile (· ≠ [])).filterMap fieldOf).map Prod.fst

/-- One of the headers has one of two spellings of a name. -/
def Spells (calls : List ResponseHeader) (a b : Bytes) : Prop :=
  ∃ h ∈ calls, h.name = a ∨ h.name = b

instance (calls : List ResponseHeader) (a b : Bytes) : Decidable (Spells calls a b) :=
  inferInstanceAs (Decidable (∃ h ∈ calls, h.name = a ∨ h.name = b))

/-- The headers leave the fields alone that are generated around them, and the one that is added
when the connection closes. An empty line among them ends the head in front of the fields behind
them, and a header with one of two spellings replaces one of these. -/
structure LeavesGenerated (factory : Factory) (calls : List ResponseHeader) (keepAlive : Bool) :
    Prop where
  differ : NamesDiffer (namesSet calls)
  server : Lacks (namesSet calls) (ascii "Server")
  date : Lacks (namesSet calls) (ascii "Date")
  contentType : factory = .default ∨ Lacks (namesSet calls) (ascii "Content-Type")
  contentLength : [] ∈ linesSet calls ∨
    Spells calls (ascii "Content-Length") (ascii "content-length") ∨
    Lacks (namesSet calls) (ascii "Content-Length")
  connection : [] ∈ linesSet calls ∨
    (keepAlive = true ∧ Spells calls (ascii "Connection") (ascii "connection")) ∨
    Lacks (namesSet calls) (ascii "Connection")

theorem counted_make (factory : Factory) (body : Bytes) (status : ℤ) :
    (factory.make body status).Counted := by
  cases factory <;> rfl

theorem customFields_make (factory : Factory) (body : Bytes) (status : ℤ)
    (calls : List ResponseHeader) :
    ((factory.make body status).withHeaders calls).customFields =
      calls.map fun h => (h.name, h.value) := by
  have hnone : (factory.make body status).customFields = [] := by cases factory <;> rfl
  rw [customFields_withHeaders (counted_make factory body status), hnone, List.nil_append]

/-- The serializer looks for two spellings among the headers that were set. -/
theorem any_writtenHeaders_iff {r : Response} {calls : List ResponseHeader}
    (hcustom : r.customFields = calls.map fun h => (h.name, h.value)) (a b : Bytes) :
    (r.writtenHeaders.any fun h => h.name == a || h.name == b) = true ↔ Spells calls a b := by
  have hinj : Function.Injective fun h : ResponseHeader => (h.name, h.value) := by
    rintro ⟨name, value⟩ ⟨name', value'⟩ h
    obtain ⟨rfl, rfl⟩ := Prod.mk.inj h
    rfl
  have hwritten : r.writtenHeaders = calls := List.map_injective_iff.mpr hinj hcustom
  rw [hwritten, List.any_eq_true, Spells]
  simp only [Bool.or_eq_true, beq_iff_eq]

theorem leavesGenerated_iff (factory : Factory) (body : Bytes) (status : ℤ)
    (calls : List ResponseHeader) (keepAlive : Bool) {r : Response}
    (hr : (factory.make body status).withHeaders calls = r) :
    LeavesGenerated factory calls keepAlive ↔
      Leaves r.seenNames (r.presetCt = .none) r.EndsHead (r.hasContentLength = true)
        (keepAlive = true ∧ r.hasConnection = true) := by
  have hcustom : r.customFields = calls.map fun h => (h.name, h.value) := by
    rw [← hr, customFields_make]
  have hpreset : r.presetCt = .none ↔ factory = .default := by
    rw [← hr, presetCt_withHeaders]
    cases factory <;> simp [Factory.make, text, html, json]
  -- What the serializer makes of the custom headers depends on the calls alone.
  have hlines : terminatedLines r.headerBytes = linesSet calls := by
    rw [headerBytes_eq, hcustom, linesSet]
  have hnames : r.seenNames = namesSet calls := by
    rw [seenNames, seenFields, hlines, namesSet]
  have hends : r.EndsHead ↔ [] ∈ linesSet calls := by rw [EndsHead, hlines]
  have hlength : r.hasContentLength = true ↔
      Spells calls (ascii "Content-Length") (ascii "content-length") :=
    any_writtenHeaders_iff hcustom _ _
  have hconn : r.hasConnection = true ↔
      Spells calls (ascii "Connection") (ascii "connection") :=
    any_writtenHeaders_iff hcustom _ _
  rw [hnames, propext hpreset, propext hends, propext hlength, propext hconn]
  constructor
  · rintro ⟨hdiffer, hserver, hdate, htype, hlen, hclose⟩
    exact ⟨hdiffer, hserver, hdate, htype, hlen, hclose⟩
  · rintro ⟨hdiffer, hserver, hdate, htype, hlen, hclose⟩
    exact ⟨hdiffer, hserver, hdate, htype, hlen, hclose⟩

/-- Headers without line terminators are read as they were set. -/
theorem namesSet_of_clean {calls : List ResponseHeader}
    (hclean : ∀ h ∈ calls, CleanField (h.name, h.value)) :
    [] ∉ linesSet calls ∧ namesSet calls = calls.map ResponseHeader.name := by
  have hfields : ∀ f ∈ calls.map fun h => (h.name, h.value), CleanField f :=
    List.forall_mem_map.mpr hclean
  have hlines : linesSet calls = (calls.map fun h => (h.name, h.value)).map fieldLine :=
    terminatedLines_fieldBytes hfields
  have htake := takeWhile_fieldLines hfields []
  rw [List.append_nil, List.takeWhile_nil, List.append_nil] at htake
  constructor
  · rw [hlines]
    intro hmem
    obtain ⟨f, hf, hempty⟩ := List.mem_map.mp hmem
    exact (hfields f hf).isLine.1 hempty
  · rw [namesSet, hlines, htake, filterMap_fieldOf hfields, List.map_map, List.map_map]
    rfl

/-- The head of a response that was made in one of these ways, with any headers set, has no two
fields with one name exactly when the headers leave the generated fields alone. -/
theorem namesDiffer_answeredOn_iff {date : Bytes} (hdate : Unbroken date) (factory : Factory)
    (body : Bytes) (status : ℤ) (calls : List ResponseHeader) (keepAlive : Bool) :
    NamesDiffer ((fields ((((factory.make body status).withHeaders calls).answeredOn
        keepAlive).serialize date)).map Prod.fst) ↔
      LeavesGenerated factory calls keepAlive := by
  rw [namesDiffer_serialize_iff hdate, leavesGenerated_iff factory body status calls _ rfl]
  have hcounted := (counted_withHeaders_iff calls).mpr (counted_make factory body status)
  exact leaves_answeredOn_iff hcounted _

/-- An exact spelling, on a connection that closes. -/
theorem namesDiffer_answeredOn_length :
    NamesDiffer ((fields ((((Factory.text.make (ascii "hi") 200).withHeaders
      [⟨ascii "Content-Length", ascii "2"⟩]).answeredOn false).serialize
        (ascii "Sun, 06 Nov 1994 08:49:37 GMT"))).map Prod.fst) := by
  refine (namesDiffer_answeredOn_iff (by decide) Factory.text (ascii "hi") 200
    [⟨ascii "Content-Length", ascii "2"⟩] false).mpr ?_
  exact ⟨by decide, by decide, by decide, by decide, by decide, by decide⟩

/-- Headers that are set next to a generated field of the same name: the spellings that the
serializer does not look for, those that it does not look for at all, and the one that closes the
connection. -/
def repeatedSamples : List (Factory × Bytes × Bool) :=
  [(.text, ascii "CONTENT-LENGTH", true), (.text, ascii "CONNECTION", true),
    (.text, ascii "Content-Type", true), (.default, ascii "Server", true),
    (.json, ascii "Connection", false)]

/-- One header is enough for two fields with one name, by each of these. -/
theorem not_namesDiffer_answeredOn :
    (¬ ∀ (date : Bytes) (factory : Factory) (body : Bytes) (status : ℤ)
        (calls : List ResponseHeader) (keepAlive : Bool), Unbroken date →
        NamesDiffer (calls.map ResponseHeader.name) →
        NamesDiffer ((fields ((((factory.make body status).withHeaders calls).answeredOn
          keepAlive).serialize date)).map Prod.fst)) ∧
      ∀ sample ∈ repeatedSamples,
        ¬ NamesDiffer ((fields ((((sample.1.make (ascii "hi") 200).withHeaders
          [⟨sample.2.1, ascii "2"⟩]).answeredOn sample.2.2).serialize
            (ascii "Sun, 06 Nov 1994 08:49:37 GMT"))).map Prod.fst) := by
  have hsamples : ∀ sample ∈ repeatedSamples,
      ¬ NamesDiffer ((fields ((((sample.1.make (ascii "hi") 200).withHeaders
        [⟨sample.2.1, ascii "2"⟩]).answeredOn sample.2.2).serialize
          (ascii "Sun, 06 Nov 1994 08:49:37 GMT"))).map Prod.fst) := by
    decide +kernel
  refine ⟨fun h => ?_, hsamples⟩
  exact hsamples (.text, ascii "CONTENT-LENGTH", true) List.mem_cons_self
    (h _ .text _ 200 _ true (by decide) (by decide))

end Lundi
