import Lundi.Server.Framing

/-!
# The lifetime of the views of a request

The request that is handed to the handlers holds views of the read buffer and of a temporary
string. `memoryOf` is the memory while a request is processed: the current storage of the buffer,
and no temporary. Nothing between the dispatch and the end of the write changes the buffer, so a
view denotes all that time if it denotes at the dispatch.

* `headViews_denote_iff`: the views of the head survive exactly when the rest of the body fits into
  the storage they point into;
* `not_denotes_bodyView`: the view of the body never denotes;
* `viewsValid_iff`: all views of a request are good exactly when it has no `Content-Length` field.
-/

namespace Lundi

/-- What is alive while the read buffer is in this state and no temporary exists. -/
def memoryOf (buffer : ReadBuffer) : Memory
  | .readBuffer generation => if generation = buffer.generation then some buffer.data else none
  | .null => none
  | .temporary => none

/-- All views of a request. -/
def Request.views (req : Request) : List StringView := req.headViews ++ [req.body]

/-- The request and the buffer at the dispatch, when the head ends at `headerEnd` in `buffer`. -/
inductive AtDispatch (net : Network) (opts : ServerOptions) (buffer : ReadBuffer) (s : Socket)
    (headerEnd : ℕ) : Request → ReadBuffer → Socket → Prop
  | absent (h : declared opts (parseHeaders (headView buffer headerEnd)) = .absent) :
      AtDispatch net opts buffer s headerEnd (parseHeaders (headView buffer headerEnd)) buffer s
  | length {n : ℕ} {buffer' : ReadBuffer} {s' : Socket}
      (h : declared opts (parseHeaders (headView buffer headerEnd)) = .length n)
      (hread : (readBody net buffer headerEnd n).run s = (.done (some buffer'), s')) :
      AtDispatch net opts buffer s headerEnd
        { parseHeaders (headView buffer headerEnd) with body := bodyView buffer' headerEnd n }
        buffer' s'

/-- What is promised of the views: those of the head denote when the head has been parsed, and at
the dispatch and until the response has been written all views denote, the body view the
`contentLength` bytes behind the head. -/
def ViewsValid (buffer : ReadBuffer) (headerEnd contentLength : ℕ) (req : Request)
    (buffer' : ReadBuffer) : Prop :=
  (∀ v ∈ (parseHeaders (headView buffer headerEnd)).headViews, v.Denotes (memoryOf buffer)) ∧
    (∀ v ∈ req.views, v.Denotes (memoryOf buffer')) ∧
    req.body.bytes = (buffer'.contents.drop headerEnd).take contentLength

variable {net : Network} {opts : ServerOptions} {buffer buffer' : ReadBuffer} {s s' : Socket}
  {headerEnd : ℕ} {req : Request}

/-- The request at the dispatch is the one that is received. -/
theorem receiveBody_eq_dispatch {σ : Type} {env : Env} {c : ConnState σ} {head : Bytes}
    (h : AtDispatch env.net opts c.buffer c.socket headerEnd req buffer' s') :
    ∃ keepAlive contentLength,
      receiveBody env opts c headerEnd head (parseHeaders (headView c.buffer headerEnd)) =
        .dispatch ⟨{ c with keepAlive := keepAlive, buffer := buffer', socket := s' }, head, req,
          headerEnd, contentLength⟩ := by
  refine ⟨c.keepAlive && !closing env opts c (parseHeaders (headView c.buffer headerEnd)), ?_⟩
  cases h with
  | absent hdecl =>
    refine ⟨0, ?_⟩
    rw [receiveBody, hdecl]
  | @length n _ _ hdecl hread =>
    refine ⟨n, ?_⟩
    rw [receiveBody, hdecl]
    simp only [hread]

/-- A view of the head denotes while the storage of the buffer stays. -/
theorem headView_denotes (hle : headerEnd ≤ buffer.size)
    (hcontents : buffer.contents <+: buffer'.contents)
    (hgen : buffer'.generation = buffer.generation) :
    (headView buffer headerEnd).Denotes (memoryOf buffer') := by
  have hbytes : buffer.contents.take headerEnd = buffer'.contents.take headerEnd := by
    obtain ⟨more, hmore⟩ := hcontents
    rw [← hmore, List.take_append_of_le_length (by rwa [ReadBuffer.length_contents])]
  have hsize : buffer.size ≤ buffer'.size := by
    rw [← ReadBuffer.length_contents, ← buffer'.length_contents]
    exact hcontents.length_le
  have hlen : (buffer.contents.take headerEnd).length = headerEnd := by
    rw [List.length_take_of_le (by rwa [ReadBuffer.length_contents])]
  refine Or.inr ⟨buffer'.data, ?_, ?_, ?_⟩
  · simp only [headView, memoryOf, hgen, if_true]
  · have := buffer'.size_le
    change 0 + (buffer.contents.take headerEnd).length ≤ _
    omega
  · change (buffer'.data.drop 0).take (buffer.contents.take headerEnd).length = _
    rw [hlen, ReadBuffer.take_drop_data _ (by omega), List.drop_zero]
    exact hbytes.symm

/-- The view of a body points to a temporary string that is gone. -/
theorem not_denotes_bodyView (n : ℕ) : ¬ (bodyView buffer headerEnd n).Denotes (memoryOf buffer') :=
  StringView.not_denotes_of_freed (by simp [bodyView]) rfl

/-- The views of the head survive the reading of the body exactly when the rest of the body fits
into the storage they point into. -/
theorem headViews_denote_iff (hle : headerEnd ≤ buffer.size) {n : ℕ}
    (hmethod : (parseHeaders (headView buffer headerEnd)).method.bytes ≠ [])
    (hbody : BodyRead buffer s headerEnd n buffer' s') :
    (∀ v ∈ (parseHeaders (headView buffer headerEnd)).headViews, v.Denotes (memoryOf buffer')) ↔
      n - (buffer.size - headerEnd) ≤ buffer.writeCapacity := by
  rw [← hbody.generation_eq]
  constructor
  · intro h
    by_contra hgen
    -- The method is not empty, so its view points into the storage that is gone.
    have hstorage := storage_method_parseHeaders hmethod
    refine StringView.not_denotes_of_freed ?_ ?_ (h _ List.mem_cons_self)
    · rw [hstorage]
      simp [headView]
    · rw [hstorage]
      exact if_neg (Ne.symm hgen)
  · intro hgen
    exact headViews_parseHeaders_denote (headView_denotes hle hbody.contents_prefix hgen)

/-- A body is read for every head with a `Content-Length` field. -/
theorem declared_eq_absent_iff (opts : ServerOptions) {data : StringView} :
    declared opts (parseHeaders data) = .absent ↔ firstContentLength data.bytes = none := by
  rw [← findHeader_contentLength, declared]
  cases (parseHeaders data).findHeader (ascii "content-length") with
  | none => simp
  | some val =>
    simp only [Option.map_some]
    split
    · split <;> simp
    · simp

/-- The views of a request are valid exactly when it has no stored `Content-Length` field; and when
it has one, those of its head are valid exactly when the missing part of the body fits behind the
bytes in the buffer. -/
theorem viewsValid_iff (hle : headerEnd ≤ buffer.size)
    (hmethod : (parseHeaders (headView buffer headerEnd)).method.bytes ≠ [])
    (h : AtDispatch net opts buffer s headerEnd req buffer' s') :
    (∃ contentLength, framing opts.maxBodySize (headView buffer headerEnd).bytes =
        some contentLength ∧
      (ViewsValid buffer headerEnd contentLength req buffer' ↔
        firstContentLength (headView buffer headerEnd).bytes = none) ∧
      ((∀ v ∈ req.headViews, v.Denotes (memoryOf buffer')) ↔
        contentLength - (buffer.size - headerEnd) ≤ buffer.writeCapacity)) := by
  have hparsed : ∀ v ∈ (parseHeaders (headView buffer headerEnd)).headViews,
      v.Denotes (memoryOf buffer) :=
    headViews_parseHeaders_denote (headView_denotes hle List.prefix_rfl rfl)
  have hframing := declared_parseHeaders opts (headView buffer headerEnd)
  cases h with
  | absent hdecl =>
    -- No body is read, and the buffer is still the one that was parsed.
    rw [hdecl] at hframing
    refine ⟨0, hframing, ?_, ?_⟩
    · refine iff_of_true ⟨hparsed, fun v hv => ?_, ?_⟩
        (by rwa [← declared_eq_absent_iff opts])
      · rcases List.mem_append.mp hv with hhead | hbody
        · exact hparsed v hhead
        · rw [List.mem_singleton.mp hbody, body_parseHeaders]
          exact StringView.denotes_empty _
      · rw [body_parseHeaders, List.take_zero]
        rfl
    · exact iff_of_true hparsed (by omega)
  | @length n _ _ hdecl hread =>
    rw [hdecl] at hframing
    refine ⟨n, hframing, ?_, ?_⟩
    · -- The view of the body is bad whether or not the buffer has moved.
      refine iff_of_false (fun hvalid => ?_) (by rw [← declared_eq_absent_iff opts, hdecl]; simp)
      exact not_denotes_bodyView n (hvalid.2.1 _ (List.mem_append_right _ List.mem_cons_self))
    · rcases readBody_sound net s n hle with
        ⟨s₀, hnone, -⟩ | ⟨buffer₀, s₀, hsome, hbody⟩
      · rw [hnone] at hread
        exact absurd hread (by simp)
      · obtain ⟨rfl, rfl⟩ : buffer₀ = buffer' ∧ s₀ = s' := by
          rw [hsome] at hread
          simpa using hread
        exact headViews_denote_iff hle hmethod hbody

/-! ### A concrete request -/

/-- A request whose body arrives together with its head. -/
def sampleUpload : Bytes := ascii "POST / HTTP/1.1\r\nContent-Length: 1\r\n\r\nx"

/-- The read buffer of a fresh connection that has received it. -/
def sampleUploadBuffer : ReadBuffer := (ReadBuffer.init 8192).receive sampleUpload

/-- The request as the handlers get it. -/
def sampleUploadRequest : Request :=
  { parseHeaders (headView sampleUploadBuffer 38) with body := bodyView sampleUploadBuffer 38 1 }

theorem headView_sampleUpload :
    sampleUploadBuffer.size = 39 ∧
      (parseHeaders (headView sampleUploadBuffer 38)).method.bytes = ascii "POST" ∧
      declared {} (parseHeaders (headView sampleUploadBuffer 38)) = .length 1 := by
  decide +kernel

theorem le_size_sampleUpload : 38 ≤ sampleUploadBuffer.size := by
  rw [headView_sampleUpload.1]
  decide

theorem method_sampleUpload :
    (parseHeaders (headView sampleUploadBuffer 38)).method.bytes ≠ [] := by
  rw [headView_sampleUpload.2.1]
  decide

theorem atDispatch_sampleUpload (s : Socket) :
    AtDispatch (fun _ => .silent) {} sampleUploadBuffer s 38 sampleUploadRequest
      sampleUploadBuffer s := by
  obtain ⟨hsize, -, hdecl⟩ := headView_sampleUpload
  refine .length hdecl ?_
  -- Nothing is missing, so that nothing is read.
  rw [readBody, hsize]
  rfl

theorem viewsValid_iff_sampleUpload :
    ∃ contentLength, framing ({} : ServerOptions).maxBodySize
        (headView sampleUploadBuffer 38).bytes = some contentLength ∧
      (ViewsValid sampleUploadBuffer 38 contentLength sampleUploadRequest sampleUploadBuffer ↔
        firstContentLength (headView sampleUploadBuffer 38).bytes = none) ∧
      ((∀ v ∈ sampleUploadRequest.headViews, v.Denotes (memoryOf sampleUploadBuffer)) ↔
        contentLength - (sampleUploadBuffer.size - 38) ≤ sampleUploadBuffer.writeCapacity) :=
  viewsValid_iff le_size_sampleUpload method_sampleUpload (atDispatch_sampleUpload ⟨[], [], 0⟩)

/-- The body of an upload is a view of a string that is gone. -/
theorem not_viewsValid_sampleUpload :
    ¬ ∀ (net : Network) (opts : ServerOptions) (buffer buffer' : ReadBuffer) (s s' : Socket)
        (headerEnd : ℕ) (req : Request), headerEnd ≤ buffer.size →
      (parseHeaders (headView buffer headerEnd)).method.bytes ≠ [] →
      AtDispatch net opts buffer s headerEnd req buffer' s' →
      ∃ contentLength, framing opts.maxBodySize (headView buffer headerEnd).bytes =
          some contentLength ∧ ViewsValid buffer headerEnd contentLength req buffer' := by
  intro h
  obtain ⟨n, -, -, hviews, -⟩ := h _ _ _ _ _ _ _ _ le_size_sampleUpload method_sampleUpload
    (atDispatch_sampleUpload ⟨[], [], 0⟩)
  exact not_denotes_bodyView 1 (hviews _ (List.mem_append_right _ List.mem_cons_self))

end Lundi
