import Lundi.Client.ResponseReader
import Lundi.Core.ResponseHead
import Lundi.Server.Exceptions

/-!
# The Connection field

Every response says in its `Connection` field whether the server goes on to read another request.
`handle_connection` sets the field of the last response on a connection, and the serializer adds
one to a response without any; both look at nothing but the exact spelling of the custom headers,
and the head of a streaming response is fixed.

* `connectionValues_serialize`: the `Connection` fields that a client sees;
* `truthful_answer_iff`: for which responses there is exactly one, and it tells the truth;
* `truthful_handleConnection`: a connection on which all responses are of this kind.
-/

namespace Lundi

namespace Response

/-! ### The fields that a client sees -/

/-- The lines of some fields stand in front of whatever comes behind them, also when they have line
terminators inside. -/
theorem terminatedLines_fieldBytes_append (fs : List (Bytes × Bytes)) (rest : Bytes) :
    terminatedLines (fieldBytes fs ++ rest) =
      terminatedLines (fieldBytes fs) ++ terminatedLines rest := by
  induction fs with
  | nil => rfl
  | cons f fs ih =>
    -- The terminator of the first field separates it from what comes behind.
    have hcons : ∀ t : Bytes, fieldBytes (f :: fs) ++ t =
        fieldLine f ++ cr :: lf :: (fieldBytes fs ++ t) := by
      intro t
      simp [fieldBytes]
    have hself := hcons []
    rw [List.append_nil, List.append_nil] at hself
    rw [hcons, hself, terminatedLines_append_crlf, terminatedLines_append_crlf, ih,
      List.append_assoc]

theorem terminatedLines_fieldBytes {fs : List (Bytes × Bytes)} (hfs : ∀ f ∈ fs, CleanField f) :
    terminatedLines (fieldBytes fs) = fs.map fieldLine := by
  induction fs with
  | nil => rfl
  | cons f fs ih =>
    obtain ⟨hf, hfs⟩ := List.forall_mem_cons.mp hfs
    have hcons : fieldBytes (f :: fs) = fieldLine f ++ cr :: lf :: fieldBytes fs := by
      simp [fieldBytes]
    rw [hcons, terminatedLines_append hf.isLine.not_crlf, ih hfs, List.map_cons]

/-- A custom header has an empty line inside, which ends the head. -/
def EndsHead (r : Response) : Prop := [] ∈ terminatedLines r.headerBytes

instance (r : Response) : Decidable r.EndsHead :=
  inferInstanceAs (Decidable ([] ∈ terminatedLines r.headerBytes))

/-- The fields that the custom headers make in the head: one for each of them, unless there are line
terminators inside. -/
def seenFields (r : Response) : List (Bytes × Bytes) :=
  ((terminatedLines r.headerBytes).takeWhile (· ≠ [])).filterMap fieldOf

/-- The lines up to the first empty one, of a text that goes on behind some lines. -/
theorem takeWhile_append_lines (ls rest : List Bytes) :
    (ls ++ rest).takeWhile (· ≠ []) =
      ls.takeWhile (· ≠ []) ++ if [] ∈ ls then [] else rest.takeWhile (· ≠ []) := by
  by_cases hempty : [] ∈ ls
  · -- The first empty line is one of them.
    have hshort : (ls.takeWhile (· ≠ [])).length ≠ ls.length := by
      intro hlength
      have hself := (List.takeWhile_prefix (l := ls)
        (fun l => decide (l ≠ []))).eq_of_length hlength
      have hall := List.takeWhile_eq_self_iff.mp hself [] hempty
      exact absurd hall (by decide)
    rw [if_pos hempty, List.append_nil, List.takeWhile_append, if_neg hshort]
  · have hall : ∀ l ∈ ls, decide (l ≠ []) = true := by
      intro l hl
      rw [decide_eq_true_iff]
      rintro rfl
      exact hempty hl
    rw [if_neg hempty, List.takeWhile_append_of_pos hall, List.takeWhile_eq_self_iff.mpr hall]

/-- The lines of clean fields are not empty. -/
theorem takeWhile_fieldLines {fs : List (Bytes × Bytes)} (hfs : ∀ f ∈ fs, CleanField f)
    (rest : List Bytes) :
    (fs.map fieldLine ++ rest).takeWhile (· ≠ []) =
      fs.map fieldLine ++ rest.takeWhile (· ≠ []) := by
  apply List.takeWhile_append_of_pos
  intro l hl
  obtain ⟨f, hf, rfl⟩ := List.mem_map.mp hl
  simpa using (hfs f hf).isLine.1

/-- The fields of a serialized response: the leading ones, those of the custom headers, and the
trailing ones unless the head has ended before. -/
theorem fields_serialize {date : Bytes} (hdate : Unbroken date) (r : Response) :
    fields (r.serialize date) = (r.leadingFields date).map stripped ++ r.seenFields ++
      if r.EndsHead then [] else r.trailingFields.map stripped := by
  have hleading := cleanField_leadingFields hdate r
  have htrailing := cleanField_trailingFields r
  -- The lines of the response: status line, leading fields, custom headers, trailing fields, and
  -- the empty line in front of the body.
  have hbytes : r.serialize date = r.statusLine ++ cr :: lf ::
      (fieldBytes (r.leadingFields date) ++ (r.headerBytes ++
        (fieldBytes r.trailingFields ++ (([] : Bytes) ++ cr :: lf :: r.body)))) := by
    rw [serialize_eq, head, headOf_map_fieldLine, headFields, fieldBytes_append,
      fieldBytes_append, headerBytes_eq]
    simp
  have hlines : ((terminatedLines (r.serialize date)).drop 1) =
      (r.leadingFields date).map fieldLine ++ (terminatedLines r.headerBytes ++
        (r.trailingFields.map fieldLine ++ [] :: terminatedLines r.body)) := by
    rw [hbytes, terminatedLines_append r.isLine_statusLine.not_crlf, List.drop_one, List.tail_cons,
      terminatedLines_fieldBytes_append, terminatedLines_fieldBytes hleading, headerBytes_eq,
      terminatedLines_fieldBytes_append, terminatedLines_fieldBytes_append,
      terminatedLines_fieldBytes htrailing, terminatedLines_append_crlf]
    rfl
  rw [fields, headerLines, hlines, takeWhile_fieldLines hleading, takeWhile_append_lines,
    takeWhile_fieldLines htrailing, List.filterMap_append, List.filterMap_append,
    filterMap_fieldOf hleading, List.append_assoc, seenFields]
  congr 2
  by_cases hends : r.EndsHead
  · rw [if_pos hends, if_pos (show [] ∈ terminatedLines r.headerBytes from hends)]
    rfl
  · rw [if_neg hends, if_neg (show [] ∉ terminatedLines r.headerBytes from hends),
      List.takeWhile_cons_of_neg (by simp), List.append_nil, filterMap_fieldOf htrailing]

/-! ### The `Connection` fields among them -/

/-- The values of the `Connection` fields of a head. -/
def connectionValues (fs : List (Bytes × Bytes)) : List Bytes :=
  valuesOf (ascii "connection") fs

/-- The values of the `Connection` fields that custom headers make. -/
def seenConnection (r : Response) : List Bytes := connectionValues r.seenFields

/-- The `Connection` fields of a serialized response: those of the custom headers, and the generated
one, unless a custom header replaces it or the head has ended before. -/
theorem connectionValues_serialize {date : Bytes} (hdate : Unbroken date) (r : Response) :
    connectionValues (fields (r.serialize date)) = r.seenConnection ++
      if r.EndsHead ∨ r.hasConnection = true then [] else [ascii "keep-alive"] := by
  -- Of the generated fields only the last one is a `Connection` field.
  have hleading : valuesOf (ascii "connection") (r.leadingFields date) = [] :=
    valuesOf_leadingFields (by decide) date r
  have hlength : valuesOf (ascii "connection") r.lengthFields = [] := by
    apply valuesOf_eq_nil
    unfold lengthFields
    split
    · simp
    · exact List.forall_mem_singleton.mpr (show equalsIgnoreCase (ascii "Content-Length")
        (ascii "connection") = false by decide)
  have hconnection : (valuesOf (ascii "connection") r.connectionFields).map
      (·.dropWhile isBlank) = if r.hasConnection = true then [] else [ascii "keep-alive"] := by
    unfold connectionFields
    split
    · rfl
    · decide
  rw [fields_serialize hdate, connectionValues, valuesOf_append, valuesOf_append,
    valuesOf_map_stripped, hleading, seenConnection, connectionValues, List.map_nil,
    List.nil_append]
  congr 1
  by_cases hends : r.EndsHead
  · rw [if_pos hends, if_pos (Or.inl hends)]
    rfl
  · rw [if_neg hends, valuesOf_map_stripped, trailingFields, valuesOf_append, hlength,
      List.nil_append, hconnection]
    simp only [hends, false_or]

/-- The headers were set by `set_header`, which counts them. -/
def Counted (r : Response) : Prop := r.numHeaders = r.headers.length

theorem customFields_setHeader {r : Response} (hcounted : r.Counted) (name value : Bytes) :
    (r.setHeader name value).customFields = r.customFields ++ [(name, value)] := by
  -- All headers are written, before and after, because they are counted.
  have hall : r.writtenHeaders = r.headers := by
    rw [writtenHeaders, hcounted, List.take_length]
  have hall' : (r.setHeader name value).writtenHeaders = r.headers ++ [⟨name, value⟩] := by
    apply List.take_of_length_le
    rw [setHeader, List.length_append, List.length_singleton, hcounted]
  rw [customFields, customFields, hall, hall', List.map_append, List.map_singleton]

/-- The response that a connection writes before it closes. -/
def closing (r : Response) : Response := r.setHeader (ascii "Connection") (ascii "close")

theorem terminatedLines_closing {r : Response} (hcounted : r.Counted) :
    terminatedLines r.closing.headerBytes =
      terminatedLines r.headerBytes ++ [ascii "Connection: close"] := by
  rw [closing, headerBytes_eq, customFields_setHeader hcounted, fieldBytes_append,
    terminatedLines_fieldBytes_append, ← headerBytes_eq]
  congr 1

/-- What the header of the closing connection adds. -/
theorem closing_spec {r : Response} (hcounted : r.Counted) :
    r.closing.hasConnection = true ∧ (r.closing.EndsHead ↔ r.EndsHead) ∧
      r.closing.seenConnection =
        r.seenConnection ++ if r.EndsHead then [] else [ascii "close"] := by
  have hcustom := customFields_setHeader hcounted (ascii "Connection") (ascii "close")
  have hlines := terminatedLines_closing hcounted
  refine ⟨?_, ?_, ?_⟩
  · -- The serializer finds the header that was added last.
    have hmem : (⟨ascii "Connection", ascii "close"⟩ : ResponseHeader) ∈
        r.closing.writtenHeaders := by
      have hfield : (ascii "Connection", ascii "close") ∈ r.closing.customFields := by
        rw [closing, hcustom]
        simp
      obtain ⟨h, hh, heq⟩ := List.mem_map.mp hfield
      obtain ⟨hname, hvalue⟩ := Prod.mk.inj heq
      rwa [← hname, ← hvalue]
    exact List.any_eq_true.mpr ⟨_, hmem, by decide⟩
  · rw [EndsHead, hlines, List.mem_append, EndsHead]
    simp [ascii]
  · rw [seenConnection, seenFields, hlines, takeWhile_append_lines, List.filterMap_append,
      connectionValues, valuesOf_append]
    congr 1
    by_cases hends : r.EndsHead
    · rw [if_pos hends, if_pos (show [] ∈ terminatedLines r.headerBytes from hends)]
      rfl
    · rw [if_neg hends, if_neg (show [] ∉ terminatedLines r.headerBytes from hends)]
      decide

/-! ### Telling the truth -/

/-- A value of a `Connection` field says that the connection is closed. -/
def saysClose (value : Bytes) : Bool :=
  (value.splitOn 44).any fun option => equalsIgnoreCase (trim option) (ascii "close")

/-- A response head tells the truth about whether the server goes on to read another request: it has
exactly one `Connection` field, and that says so. -/
def Truthful (bytes : Bytes) (readsOn : Prop) : Prop :=
  ∃ value, connectionValues (fields bytes) = [value] ∧ (readsOn ↔ saysClose value = false)

instance (bytes : Bytes) (readsOn : Prop) [Decidable readsOn] :
    Decidable (Truthful bytes readsOn) :=
  match h : connectionValues (fields bytes) with
  | [] => isFalse fun ⟨_, hvalue, _⟩ => by simp [h] at hvalue
  | [value] => decidable_of_iff (readsOn ↔ saysClose value = false) (by simp [Truthful, h])
  | _ :: _ :: _ => isFalse fun ⟨_, hvalue, _⟩ => by simp [h] at hvalue

/-- The custom headers leave the `Connection` field to the server: none of them makes one, except
that while the connection stays open a single one may replace the generated one, if it does not say
that the connection is closed. Where a custom header ends the head, the field has to stand in front
of that, and be right. -/
def LeavesConnection (r : Response) (keepAlive : Bool) : Prop :=
  if r.EndsHead then
    ∃ value, r.seenConnection = [value] ∧ (keepAlive = true ↔ saysClose value = false)
  else if keepAlive = true ∧ r.hasConnection = true then
    ∃ value, r.seenConnection = [value] ∧ saysClose value = false
  else r.seenConnection = []

/-- A field that is added has to be the only one. -/
theorem exists_append_eq_singleton_iff {values : List Bytes} {added : Bytes} {P : Bytes → Prop} :
    (∃ value, values ++ [added] = [value] ∧ P value) ↔ values = [] ∧ P added := by
  constructor
  · rintro ⟨value, hvalues, hP⟩
    cases values with
    | nil =>
      obtain rfl : added = value := by simpa using hvalues
      exact ⟨rfl, hP⟩
    | cons v values => exact absurd (congrArg List.length hvalues) (by simp)
  · rintro ⟨rfl, hP⟩
    exact ⟨added, rfl, hP⟩

/-- The head of a response on an open connection. -/
theorem truthful_open_iff {date : Bytes} (hdate : Unbroken date) (r : Response) :
    Truthful (r.serialize date) True ↔ r.LeavesConnection true := by
  -- The generated field says that the connection stays open.
  have hkeep : saysClose (ascii "keep-alive") = false := by decide
  rw [Truthful, connectionValues_serialize hdate, LeavesConnection]
  by_cases hends : r.EndsHead
  · simp only [hends, true_or, if_true, List.append_nil, true_iff]
  · cases hconn : r.hasConnection with
    | true => simp only [hends, or_true, if_true, if_false, List.append_nil, and_self, true_iff]
    | false =>
      -- The field is generated.
      simp only [hends, Bool.false_eq_true, or_self, if_false, and_false, true_iff]
      rw [exists_append_eq_singleton_iff]
      exact and_iff_left hkeep

/-- The head of the last response on a connection. -/
theorem truthful_closing_iff {date : Bytes} (hdate : Unbroken date) {r : Response}
    (hcounted : r.Counted) :
    Truthful (r.closing.serialize date) False ↔ r.LeavesConnection false := by
  obtain ⟨hconn, -, hseen⟩ := closing_spec hcounted
  -- The header that is added says that it is closed.
  have hclose : False ↔ saysClose (ascii "close") = false := by decide
  rw [Truthful, connectionValues_serialize hdate, LeavesConnection, hseen, if_pos (Or.inr hconn),
    List.append_nil]
  by_cases hends : r.EndsHead
  · simp only [hends, if_true, List.append_nil, Bool.false_eq_true]
  · simp only [hends, if_false, Bool.false_eq_true, false_and]
    rw [exists_append_eq_singleton_iff]
    exact and_iff_left hclose

/-- A header of another name does not replace the generated `Connection`. -/
theorem hasConnection_eq_false {r : Response}
    (h : ∀ f ∈ r.customFields, equalsIgnoreCase f.1 (ascii "connection") = false) :
    r.hasConnection = false :=
  any_spelling_eq_false (by decide) (by decide) h

/-- Custom headers that are fields of other names leave the `Connection` field to the server. -/
theorem leavesConnection_of_clean {r : Response} (hclean : ∀ f ∈ r.customFields, CleanField f)
    (hnames : ∀ f ∈ r.customFields, equalsIgnoreCase f.1 (ascii "connection") = false)
    (keepAlive : Bool) : r.LeavesConnection keepAlive := by
  have hlines : terminatedLines r.headerBytes = r.customFields.map fieldLine := by
    rw [headerBytes_eq, terminatedLines_fieldBytes hclean]
  -- None of the lines is empty.
  have hends : ¬ r.EndsHead := by
    rw [EndsHead, hlines]
    intro hmem
    obtain ⟨f, hf, hempty⟩ := List.mem_map.mp hmem
    exact (hclean f hf).isLine.1 hempty
  have hseen : r.seenConnection = [] := by
    have htake := takeWhile_fieldLines hclean []
    rw [List.append_nil, List.takeWhile_nil, List.append_nil] at htake
    rw [seenConnection, seenFields, hlines, htake, filterMap_fieldOf hclean, connectionValues,
      valuesOf_map_stripped, valuesOf_eq_nil hnames]
    rfl
  have hconn : r.hasConnection = false := hasConnection_eq_false hnames
  rw [LeavesConnection, if_neg hends, if_neg (by simp [hconn])]
  exact hseen

end Response

/-! ### Streaming responses -/

/-- The fields of the head of a streaming response. -/
def streamFields (date contentType : Bytes) : List (Bytes × Bytes) :=
  [(ascii "Server", ascii "Lundi"), (ascii "Date", date),
    (ascii "Transfer-Encoding", ascii "chunked"), (ascii "Content-Type", contentType),
    (ascii "Connection", ascii "keep-alive")]

theorem chunkedInitialHeaders_eq (date contentType : Bytes) :
    chunkedInitialHeaders date contentType =
      headOf (ascii "HTTP/1.1 200 OK" :: (streamFields date contentType).map fieldLine) := by
  have hserver : ascii "Server: Lundi\r\nDate: " =
      fieldLine (ascii "Server", ascii "Lundi") ++ crlf ++ (ascii "Date" ++ ascii ": ") := by
    decide
  have hcoding : ascii "Transfer-Encoding: chunked\r\n" =
      fieldLine (ascii "Transfer-Encoding", ascii "chunked") ++ crlf := by decide
  have htype : ascii "Content-Type: " = ascii "Content-Type" ++ ascii ": " := by decide
  have hconnection : ascii "Connection: keep-alive\r\n" =
      fieldLine (ascii "Connection", ascii "keep-alive") ++ crlf := by decide
  have hstatus : ascii "HTTP/1.1 200 OK\r\n" = ascii "HTTP/1.1 200 OK" ++ crlf := by decide
  have hcrlf : ascii "\r\n" = crlf := by decide
  rw [Response.headOf_map_fieldLine]
  simp only [chunkedInitialHeaders, WriteBuffer.contents_append, WriteBuffer.contents_init,
    hserver, hcoding, htype, hconnection, hstatus, hcrlf, streamFields, Response.fieldBytes,
    List.flatMap_cons, List.flatMap_nil, fieldLine, List.append_assoc, List.nil_append,
    List.append_nil]

/-- The head of a streaming response says that the connection stays open, but no further request is
read: whatever its content type is, as long as that is one line. -/
theorem not_truthful_chunkedInitialHeaders {date contentType : Bytes} (hdate : Unbroken date)
    (htype : Unbroken contentType) :
    ¬ Response.Truthful (chunkedInitialHeaders date contentType) False := by
  have hclean : ∀ f ∈ streamFields date contentType, CleanField f := by
    simp only [streamFields, List.forall_mem_cons]
    refine ⟨⟨by decide, by decide, by decide⟩, ⟨?_, ?_, hdate⟩, ⟨by decide, by decide, by decide⟩,
      ⟨?_, ?_, htype⟩, ⟨by decide, by decide, by decide⟩, by simp⟩
    · exact (show colon ∉ ascii "Date" by decide)
    · exact (show Unbroken (ascii "Date") by decide)
    · exact (show colon ∉ ascii "Content-Type" by decide)
    · exact (show Unbroken (ascii "Content-Type") by decide)
  have hvalues : Response.connectionValues (fields (chunkedInitialHeaders date contentType)) =
      [ascii "keep-alive"] := by
    rw [chunkedInitialHeaders_eq, fields_headOf_of_clean (by decide) hclean,
      Response.connectionValues, valuesOf_map_stripped]
    rfl
  rintro ⟨value, hvalue, htruth⟩
  rw [hvalues] at hvalue
  obtain rfl := List.head_eq_of_cons_eq hvalue
  exact htruth.mpr (by decide)

/-! ### The heads of an iteration -/

/-- What a write puts on the connection. -/
def ConnEvent.head? : ConnEvent → Option Bytes
  | .wrote bytes => some bytes
  | _ => none

/-- The response heads, with what is written together with them, of a request for an ordinary or a
streaming route. -/
def Exchange.heads (x : Exchange) : List Bytes :=
  match x.events with
  | .wrote _ :: .during (.startHandler .webSocket) :: _ => []
  | .wrote _ :: .during (.startHandler .sse) :: _ => []
  | events => events.filterMap ConnEvent.head?

variable {σ : Type}

/-- The server goes on to read another request. -/
def Step.ReadsOn : Step σ → Prop
  | .next c _ => c.keepAlive = true
  | .stop _ _ _ => False

instance : (st : Step σ) → Decidable st.ReadsOn
  | .next c _ => inferInstanceAs (Decidable (c.keepAlive = true))
  | .stop _ _ _ => inferInstanceAs (Decidable False)

/-- A streaming route answers this request. -/
def App.streams (app : App σ) (req : Request) : Bool :=
  !(isWsUpgrade req && (app.wsRoutes.lookup req.path).isSome) &&
    !(req.method.bytes == ascii "GET" && (app.sseRoutes.lookup req.path).isSome) &&
      (app.streamRoutes.lookup req.path).isSome

variable {env : Env} {opts : ServerOptions} {app : App σ}

theorem App.endpoint_of_takeover {net : Network} {date : Bytes} {c : Call σ} {t : Takeover}
    (h : app.takeover net date c = some t) :
    t.endpoint = .webSocket ∨ t.endpoint = .sse ∨ app.streams c.req = true := by
  rw [App.streams, ← App.isSome_wsTakeover net, ← App.isSome_sseTakeover net date,
    ← App.isSome_streamTakeover net date]
  unfold App.takeover at h
  split at h
  next t' hws =>
    obtain rfl := Option.some_inj.mp h
    unfold App.wsTakeover at hws
    split at hws
    · obtain ⟨_, -, rfl⟩ := Option.map_eq_some_iff.mp hws
      exact Or.inl rfl
    · exact absurd hws (by simp)
  next hws =>
    split at h
    next t' hsse =>
      obtain rfl := Option.some_inj.mp h
      unfold App.sseTakeover at hsse
      split at hsse
      · obtain ⟨_, -, rfl⟩ := Option.map_eq_some_iff.mp hsse
        exact Or.inr (Or.inl rfl)
      · exact absurd hsse (by simp)
    -- Where neither of the first two branches is taken, it is the third.
    next hsse => simp [hws, hsse, h]

/-- The heads of a request that is not dispatched: it is answered by a streaming route, or refused.
-/
def RefusesOrStreams (env : Env) (app : App σ) : Phase σ → Prop
  | .dispatch _ => True
  | .stop _ x _ => ∀ y ∈ x, app.streams y.request = true ∨ ∀ bytes ∈ y.heads,
      ∃ now body status, bytes = errorData (env.date now) body status

theorem refusesOrStreams_refuse (env : Env) (app : App σ) (head : Bytes) (req : Request)
    (body : Bytes) (status : ℤ) (s : Socket) :
    RefusesOrStreams env app (refuse env head req body status s) := by
  unfold refuse
  simp only
  split
  · -- The refusal has been written.
    intro y hy
    obtain rfl := Option.some_inj.mp hy
    refine Or.inr fun bytes hbytes => ⟨s.now, body, status, ?_⟩
    exact List.mem_singleton.mp hbytes
  all_goals
    intro y hy
    obtain rfl := Option.some_inj.mp hy
    exact Or.inr fun bytes hbytes => absurd hbytes List.not_mem_nil

theorem refusesOrStreams_handOver {net : Network} {date : Bytes} {c : Call σ} {t : Takeover}
    (ht : app.takeover net date c = some t) (head : Bytes) (s : Socket) :
    RefusesOrStreams env app (handOver env head c.req t s) := by
  -- No head of an upgraded request counts.
  have hstarted : ∀ (ends : List ConnEvent) (exit : Exit) (s : Socket),
      RefusesOrStreams env app (.stop exit (some ⟨head, c.req,
        .wrote t.preamble :: .during (.startHandler t.endpoint) :: ends⟩) s) := by
    intro ends exit s y hy
    obtain rfl := Option.some_inj.mp hy
    rcases App.endpoint_of_takeover ht with hws | hsse | hstreams
    · refine Or.inr fun bytes hbytes => absurd hbytes ?_
      simp [Exchange.heads, hws]
    · refine Or.inr fun bytes hbytes => absurd hbytes ?_
      simp [Exchange.heads, hsse]
    · exact Or.inl hstreams
  have hfailed : ∀ (exit : Exit) (s : Socket),
      RefusesOrStreams env app (.stop exit (some ⟨head, c.req, [.writeFailed]⟩) s) := by
    intro exit s y hy
    obtain rfl := Option.some_inj.mp hy
    exact Or.inr fun bytes hbytes => absurd hbytes List.not_mem_nil
  unfold handOver
  simp only
  split
  · split
    all_goals exact hstarted _ _ _
  · exact hfailed _ _
  · exact hfailed _ _

theorem refusesOrStreams_receiveBody (c : ConnState σ) (headerEnd : ℕ) (head : Bytes)
    (req : Request) : RefusesOrStreams env app (receiveBody env opts c headerEnd head req) := by
  have hquiet : ∀ exit s, RefusesOrStreams env app (.stop exit (some ⟨head, req, []⟩) s) := by
    intro exit s y hy
    obtain rfl := Option.some_inj.mp hy
    exact Or.inr fun bytes hbytes => absurd hbytes List.not_mem_nil
  unfold receiveBody
  simp only
  split
  · exact refusesOrStreams_refuse env app head req _ _ _
  · trivial
  · split
    · trivial
    · exact refusesOrStreams_refuse env app head req _ _ _
    · exact hquiet _ _
    · exact hquiet _ _

theorem refusesOrStreams_receive (env : Env) (opts : ServerOptions) (app : App σ)
    (c : ConnState σ) : RefusesOrStreams env app (receive env opts app c) := by
  have hsilent : ∀ exit s, RefusesOrStreams env app (.stop exit none s) :=
    fun exit s y hy => absurd hy (by simp)
  unfold receive
  split
  · split
    · exact hsilent _ _
    · unfold receiveRequest
      simp only
      split
      · exact hsilent _ _
      · split
        next t ht => exact refusesOrStreams_handOver ht _ _
        next => exact refusesOrStreams_receiveBody _ _ _ _
  · exact hsilent _ _
  · exact hsilent _ _

/-- Nothing is written while a request is processed. -/
theorem heads_events (d : Dispatch σ) (writes : List ConnEvent) :
    Exchange.heads ⟨d.head, d.request, d.events env app ++ writes⟩ =
      writes.filterMap ConnEvent.head? := by
  -- The events of the processing are no writes.
  have hduring : ∀ events : List Event,
      (events.map ConnEvent.during).filterMap ConnEvent.head? = [] := by
    intro events
    rw [List.filterMap_eq_nil_iff]
    intro e he
    obtain ⟨event, -, rfl⟩ := List.mem_map.mp he
    rfl
  have hevents : (d.events env app).filterMap ConnEvent.head? = [] := hduring _
  change (d.events env app ++ writes).filterMap ConnEvent.head? = _
  rw [List.filterMap_append, hevents, List.nil_append]

/-! ### A run -/

/-- The bytes that answer a request tell the truth exactly if the custom headers of the response
leave the `Connection` field to the server. -/
theorem truthful_answer_iff (hdate : ∀ t, Unbroken (env.date t)) (d : Dispatch σ) {res : Response}
    (hcounted : res.Counted) :
    Response.Truthful (d.answerBytes env res) (d.conn.keepAlive = true) ↔
      res.LeavesConnection d.conn.keepAlive := by
  unfold Dispatch.answerBytes
  cases d.conn.keepAlive with
  | true =>
    rw [if_pos rfl, eq_self]
    exact Response.truthful_open_iff (hdate _) res
  | false =>
    rw [if_neg Bool.false_ne_true, eq_false Bool.false_ne_true]
    exact Response.truthful_closing_iff (hdate _) hcounted

/-- The condition on the state at the top of the loop: if the next request is dispatched, the
headers of the response that it is given were set by `set_header` and leave the `Connection` field
to the server; if it is not, no streaming route answers it. -/
def HonestAt (env : Env) (opts : ServerOptions) (app : App σ) (c : ConnState σ) : Prop :=
  match receive env opts app c with
  | .dispatch d => ∀ res, HasResponse (d.invocation env app) res →
      res.Counted ∧ res.LeavesConnection d.conn.keepAlive
  | .stop _ x _ => ∀ y ∈ x, app.streams y.request = false

/-- A refusal tells the truth: it has no custom headers but the one that closes. -/
theorem truthful_errorData {date : Bytes} (hdate : Unbroken date) (body : Bytes) (status : ℤ) :
    Response.Truthful (errorData date body status) False := by
  apply (Response.truthful_closing_iff hdate (r := .text body status) rfl).mpr
  apply Response.leavesConnection_of_clean
  all_goals
    intro f hf
    exact absurd hf List.not_mem_nil

/-- An iteration from such a state writes a head that tells the truth. -/
theorem truthful_step (hdate : ∀ t, Unbroken (env.date t)) {c : ConnState σ}
    (h : HonestAt env opts app c) :
    ∀ x ∈ (step env opts app c).entry, ∀ bytes ∈ x.heads,
      Response.Truthful bytes (step env opts app c).ReadsOn := by
  have hrefuses := refusesOrStreams_receive env opts app c
  unfold HonestAt at h
  rw [step]
  cases hreceive : receive env opts app c with
  | stop exit y s =>
    -- The connection ends.
    rw [hreceive] at h hrefuses
    intro x hx bytes hbytes
    rcases hrefuses x hx with hstreams | hheads
    · rw [h x hx] at hstreams
      exact absurd hstreams Bool.false_ne_true
    · obtain ⟨now, body, status, rfl⟩ := hheads bytes hbytes
      exact truthful_errorData (hdate now) body status
  | dispatch d =>
    rw [hreceive] at h
    have hresponds := responds_respond env app d
    simp only
    generalize respond env app d = st at hresponds
    cases hresponds with
    | @next res c' hres _ hkeep _ =>
      -- The response is the only head, and the next state knows what it says.
      intro x hx bytes hbytes
      obtain rfl := Option.some_inj.mp hx
      rw [heads_events] at hbytes
      obtain rfl := List.mem_singleton.mp hbytes
      obtain ⟨hcounted, hleaves⟩ := h res hres
      rw [Step.ReadsOn, hkeep]
      exact (truthful_answer_iff hdate d hcounted).mpr hleaves
    | unanswered _ =>
      intro x hx bytes hbytes
      obtain rfl := Option.some_inj.mp hx
      rw [← List.append_nil (d.events env app), heads_events] at hbytes
      exact absurd hbytes List.not_mem_nil
    | unwritten _ =>
      intro x hx bytes hbytes
      obtain rfl := Option.some_inj.mp hx
      rw [heads_events] at hbytes
      exact absurd hbytes List.not_mem_nil

/-- On a connection on which the condition holds at the top of every iteration, every response head
has exactly one `Connection` field, which says whether another request is read; and every head on
the connection is one of these. -/
theorem truthful_handleConnection (hdate : ∀ t, Unbroken (env.date t)) (user : σ)
    (incoming : Bytes)
    (hhonest : ∀ c, Relation.ReflTransGen (Goes env opts app) (.init user incoming) c →
      c.keepAlive = true → HonestAt env opts app c) :
    (∀ c, Relation.ReflTransGen (Goes env opts app) (.init user incoming) c →
        c.keepAlive = true → ∀ x ∈ (step env opts app c).entry, ∀ bytes ∈ x.heads,
          Response.Truthful bytes (step env opts app c).ReadsOn) ∧
      ∀ x ∈ (handleConnection env opts app user incoming).log,
        ∃ c, Relation.ReflTransGen (Goes env opts app) (.init user incoming) c ∧
          c.keepAlive = true ∧ x ∈ (step env opts app c).entry := by
  constructor
  · intro c hreaches hkeep
    exact truthful_step hdate (hhonest c hreaches hkeep)
  · exact forall_mem_log_of_reaches (fun c hreaches hkeep x hx => ⟨c, hreaches, hkeep, hx⟩) _

/-! ### Concrete connections -/

/-- An application that answers every request with this header. -/
def answering (name value : Bytes) : App Unit :=
  App.empty.use fun c =>
    .finish ⟨c.user, c.req, .ok ((Response.text (ascii "hello")).setHeader name value)⟩

theorem honestAt_answering (env : Env) (c : ConnState Unit) :
    HonestAt env {} (answering (ascii "X-Frame-Options") (ascii "DENY")) c := by
  unfold HonestAt
  split
  next d _ =>
    rintro res ⟨a, ha, hok⟩
    -- The middleware answers, whatever the request is.
    obtain rfl := Option.some_inj.mp ha
    obtain rfl := Except.ok.inj hok
    refine ⟨rfl, Response.leavesConnection_of_clean ?_ ?_ _⟩
    · intro f hf
      obtain rfl := List.mem_singleton.mp hf
      exact ⟨by decide, by decide, by decide⟩
    · intro f hf
      obtain rfl := List.mem_singleton.mp hf
      decide
  next => exact fun y _ => by simp [App.streams, answering, App.use, App.empty]

theorem unbroken_sampleEnv (t : ℕ) : Unbroken ((sampleEnv sampleFiles).date t) :=
  show Unbroken (ascii "Sun, 06 Nov 1994 08:49:37 GMT") by decide

/-- Two requests, the second of which closes the connection. -/
def twoRequests : Bytes :=
  ascii "GET /a HTTP/1.1\r\n\r\nGET /b HTTP/1.1\r\nConnection: close\r\n\r\n"

theorem truthful_handleConnection_twoRequests :
    let env := sampleEnv sampleFiles
    let app := answering (ascii "X-Frame-Options") (ascii "DENY")
    (∀ c, Relation.ReflTransGen (Goes env {} app) (.init () twoRequests) c →
        c.keepAlive = true → ∀ x ∈ (step env {} app c).entry, ∀ bytes ∈ x.heads,
          Response.Truthful bytes (step env {} app c).ReadsOn) ∧
      ∀ x ∈ (handleConnection env {} app () twoRequests).log,
        ∃ c, Relation.ReflTransGen (Goes env {} app) (.init () twoRequests) c ∧
          c.keepAlive = true ∧ x ∈ (step env {} app c).entry :=
  truthful_handleConnection unbroken_sampleEnv () twoRequests
    fun c _ _ => honestAt_answering _ c

/-- Connections on which a streaming route answers, on which the custom header closes a connection
that stays open, on which it keeps one that is closed, and on which it is spelled in another case.
-/
def untruthfulSamples : List (App Unit × Bytes) :=
  [(App.empty.stream (ascii "/s") fun _ _ => pure (), ascii "GET /s HTTP/1.1\r\n\r\n"),
    (answering (ascii "Connection") (ascii "close"), ascii "GET / HTTP/1.1\r\n\r\n"),
    (answering (ascii "Connection") (ascii "keep-alive"),
      ascii "GET / HTTP/1.1\r\nConnection: close\r\n\r\n"),
    (answering (ascii "CONNECTION") (ascii "keep-alive"), ascii "GET / HTTP/1.1\r\n\r\n")]

/-- The first head on each of these connections does not tell the truth. -/
theorem not_truthful_samples :
    (¬ ∀ (env : Env) (opts : ServerOptions) (app : App Unit) (incoming : Bytes), env.net.Calm →
        (∀ t, Unbroken (env.date t)) →
        ∀ c, Relation.ReflTransGen (Goes env opts app) (.init () incoming) c →
          c.keepAlive = true → ∀ x ∈ (step env opts app c).entry, ∀ bytes ∈ x.heads,
            Response.Truthful bytes (step env opts app c).ReadsOn) ∧
      ∀ sample ∈ untruthfulSamples,
        ∃ x ∈ (step (sampleEnv sampleFiles) {} sample.1 (.init () sample.2)).entry,
          ∃ bytes ∈ x.heads, ¬ Response.Truthful bytes
            (step (sampleEnv sampleFiles) {} sample.1 (.init () sample.2)).ReadsOn := by
  have hsamples : ∀ sample ∈ untruthfulSamples,
      ∃ x ∈ (step (sampleEnv sampleFiles) {} sample.1 (.init () sample.2)).entry,
        ∃ bytes ∈ x.heads, ¬ Response.Truthful bytes
          (step (sampleEnv sampleFiles) {} sample.1 (.init () sample.2)).ReadsOn := by
    have hrun : untruthfulSamples.all (fun sample =>
        (step (sampleEnv sampleFiles) {} sample.1 (.init () sample.2)).entry.any fun x =>
          x.heads.any fun bytes => !decide (Response.Truthful bytes
            (step (sampleEnv sampleFiles) {} sample.1 (.init () sample.2)).ReadsOn)) = true := by
      decide +kernel
    intro sample hsample
    have hany := List.all_eq_true.mp hrun sample hsample
    obtain ⟨x, hx, hheads⟩ := Option.any_eq_true _ _ |>.mp hany
    obtain ⟨bytes, hbytes, hno⟩ := List.any_eq_true.mp hheads
    exact ⟨x, hx, bytes, hbytes, by simpa using hno⟩
  refine ⟨fun h => ?_, hsamples⟩
  -- The handler of the second sample is the simplest.
  obtain ⟨x, hx, bytes, hbytes, hno⟩ := hsamples (answering (ascii "Connection") (ascii "close"),
    ascii "GET / HTTP/1.1\r\n\r\n") (by simp [untruthfulSamples])
  exact hno (h (sampleEnv sampleFiles) {} _ _ (fun _ => ⟨_, rfl⟩) unbroken_sampleEnv _ .refl rfl
    x hx bytes hbytes)

end Lundi
