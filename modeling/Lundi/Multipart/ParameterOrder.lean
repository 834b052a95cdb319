import Lundi.Multipart.RoundTrip
import Mathlib.Data.List.Nodup
import Mathlib.Data.List.Perm.Subperm

/-!
# The order of parameters

The file name of a part may stand in front of its name. The key of the name is also the end of the
key of the file name, so that the parser takes the file name for the name of such a part.

* `readReordered_eq_iff`: when a file whose parameters change places is read as before;
* `perm_of_files_eq`: two lists of parts that are stored as the same files;
* `parseMultipart_renderReordered_iff`: the forms for which the order does not matter.
-/

namespace Lundi

open Search

/-! ### Parts with their parameters the other way round -/

namespace FormPart

/-- The `Content-Disposition` line with the file name in front of the name. -/
def reorderedLine (p : FormPart) (u : Upload) : Bytes :=
  ascii "Content-Disposition: form-data; filename=" ++ quoted u.filename ++
    (ascii "; name=" ++ quoted p.name)

/-- The `Content-Disposition` line, in one order or the other. A text field has one parameter. -/
def lineIn (reordered : Bool) (p : FormPart) : Bytes :=
  match p.upload with
  | none => p.dispositionLine
  | some u => if reordered then p.reorderedLine u else p.dispositionLine

/-- The part behind its delimiter. -/
def renderedIn (reordered : Bool) (p : FormPart) : Bytes :=
  headOf (p.lineIn reordered :: typeLines p.upload) ++ (p.content ++ crlf)

/-- The part as it stands in the body. -/
def rawIn (reordered : Bool) (p : FormPart) : RawPart :=
  ⟨p.lineIn reordered ++ (typeLines p.upload).flatMap (crlf ++ ·), p.content⟩

/-- A file with its parameters the other way round as it is read: by its file name. -/
def readReordered (p : FormPart) (u : Upload) : FormPart :=
  ⟨u.filename, some ⟨u.filename, (typeInside (p.reorderedLine u)).getD u.contentType⟩, p.content⟩

/-- The part as it is read. -/
def readIn (reordered : Bool) (p : FormPart) : FormPart :=
  match p.upload with
  | none => p
  | some u => if reordered then p.readReordered u else p.readBack

variable {boundary : Bytes} {p : FormPart} {u : Upload}

theorem isLine_reorderedLine (hp : p.Sendable boundary) (hu : p.upload = some u) :
    IsLine (p.reorderedLine u) := by
  refine ⟨by simp [reorderedLine, quoted], ?_⟩
  exact unbroken_append.mpr
    ⟨unbroken_append.mpr ⟨by decide, unbroken_quoted (hp.filename u hu).2⟩,
      unbroken_append.mpr ⟨by decide, unbroken_quoted hp.quotable_name⟩⟩

theorem fits_rawIn (hp : p.Sendable boundary) (reordered : Bool) :
    (p.rawIn reordered).Fits boundary := by
  refine ⟨find_headerTerminator_lines (List.forall_mem_cons.mpr ⟨?_, isLine_typeLines hp⟩),
    hp.not_infix_content⟩
  have hline := isLine_headers hp _ List.mem_cons_self
  unfold lineIn
  split
  · exact hline
  next u hu =>
    split
    · exact isLine_reorderedLine hp hu
    · exact hline

/-- The first mark in the headers is the one in front of the file name. -/
theorem reorderedHeaders_eq (p : FormPart) (u : Upload) (rest : Bytes) :
    p.reorderedLine u ++ rest =
      ascii "Content-Disposition: form-data; filename=" ++ 34 :: (u.filename ++ 34 ::
        (ascii "; name=" ++ 34 :: (p.name ++ 34 :: rest))) := by
  simp [reorderedLine, quoted]

/-- Both keys end at this mark. -/
theorem quotedText_reordered (hp : p.Sendable boundary) (hu : p.upload = some u) {w : Bytes}
    (hw : 34 ∉ w) (h : w <:+ ascii "Content-Disposition: form-data; filename=") (rest : Bytes) :
    quotedText (p.reorderedLine u ++ rest) (w ++ [34]) = u.filename := by
  rw [reorderedHeaders_eq]
  exact quotedText_of_suffix hw (by decide) (hp.filename u hu).2.1 h

/-- The end of a turn stores the file under its file name. -/
theorem storePart_reordered (hp : p.Sendable boundary) (hu : p.upload = some u)
    (result : FormData) :
    storePart (p.reorderedLine u ++ (typeLines p.upload).flatMap (crlf ++ ·)) p.content result =
      (p.readReordered u).store result := by
  have hname : partName (p.reorderedLine u ++ (typeLines p.upload).flatMap (crlf ++ ·)) =
      u.filename := quotedText_reordered hp hu (w := ascii "name=") (by decide) (by decide) _
  have hfilename : partFilename (p.reorderedLine u ++ (typeLines p.upload).flatMap (crlf ++ ·)) =
      u.filename := quotedText_reordered hp hu (w := ascii "filename=") (by decide) (by decide) _
  have htype : partContentType (p.reorderedLine u ++ (typeLines p.upload).flatMap (crlf ++ ·)) =
      (typeInside (p.reorderedLine u)).getD u.contentType := by
    have hlines : (typeLines p.upload).flatMap (crlf ++ ·) =
        cr :: lf :: (ascii "Content-Type: " ++ u.contentType) := by simp [typeLines, hu]
    rw [hlines]
    exact partContentType_lines (isLine_reorderedLine hp hu).2.1 (hp.contentType u hu).2
  -- A type is found, so that the default does not apply.
  have hnonempty : (typeInside (p.reorderedLine u)).getD u.contentType ≠ [] := by
    have hline : p.reorderedLine u = (ascii "Content-Disposition: form-data; filename=" ++
        quoted u.filename ++ (ascii "; name=" ++ 34 :: p.name)) ++ [34] := by
      simp [reorderedLine, quoted]
    rw [hline]
    exact getD_typeInside_ne_nil (hp.contentType u hu).1 _
  rw [storePart, hname, hfilename, htype, if_neg (hp.filename u hu).1,
    if_pos (hp.filename u hu).1, if_neg hnonempty]
  rfl

theorem storePart_rawIn (hp : p.Sendable boundary) (reordered : Bool) (result : FormData) :
    storePart (p.rawIn reordered).headers (p.rawIn reordered).content result =
      (p.readIn reordered).store result := by
  have hstandard := storePart_headers hp result
  unfold rawIn lineIn readIn
  cases hu : p.upload with
  | none =>
    rw [readBack_of_text hu, headers, hu] at hstandard
    exact hstandard
  | some u =>
    cases reordered with
    | true =>
      have hswapped := storePart_reordered hp hu result
      rw [hu] at hswapped
      exact hswapped
    | false =>
      rw [headers, hu] at hstandard
      exact hstandard

/-! ### A part that is read as before -/

/-- A content type that is found in the first of two quoted texts: from there to the end. -/
theorem typeInside_quoted {s : Bytes} (hs : ascii "Content-Type: " <:+: s) :
    ∃ back, ∀ a rest, ¬ ascii "Content-Type: " <:+: a →
      typeInside (a ++ 34 :: (s ++ 34 :: rest)) = some (back ++ 34 :: rest) := by
  obtain ⟨k, hk⟩ := Option.ne_none_iff_exists'.mp
    (fun hnone => find_eq_none_iff_not_isInfix.mp hnone hs)
  have hbound := length_le_of_find_eq_some hk
  have hascii : (ascii "Content-Type: ").length = 14 := by decide
  rw [hascii] at hbound
  refine ⟨s.drop (k + 14), fun a rest ha => ?_⟩
  have hdrop : (a ++ 34 :: (s ++ 34 :: rest)).drop (k + (a.length + 1) + 14) =
      s.drop (k + 14) ++ 34 :: rest := by
    have hsum : k + (a.length + 1) + 14 = a.length + 1 + (k + 14) := by omega
    rw [hsum, ← List.drop_drop, List.drop_length_add_append, List.drop_succ_cons, List.drop_zero,
      List.drop_append_of_le_length hbound]
  rw [typeInside, find_append_cons_of_notMem (by decide) ha, find_append_of_eq_some hk,
    Option.map_some, Option.map_some, hdrop]

theorem dispositionLine_eq (hu : p.upload = some u) : p.dispositionLine =
    ascii "Content-Disposition: form-data; name=" ++ 34 :: (p.name ++ 34 ::
      (ascii "; filename=" ++ quoted u.filename)) := by
  simp [dispositionLine, filenameAttribute, quoted, hu]

theorem reorderedLine_eq (p : FormPart) (u : Upload) : p.reorderedLine u =
    ascii "Content-Disposition: form-data; filename=" ++ 34 :: (u.filename ++ 34 ::
      (ascii "; name=" ++ quoted p.name)) := by
  simp [reorderedLine, quoted]

/-- No content type is found in a line of two quoted texts without one. -/
theorem typeInside_eq_none {a b s s' : Bytes} (ha : ¬ ascii "Content-Type: " <:+: a)
    (hb : ¬ ascii "Content-Type: " <:+: b) (hs : ¬ ascii "Content-Type: " <:+: s)
    (hs' : ¬ ascii "Content-Type: " <:+: s') :
    typeInside (a ++ 34 :: (s ++ 34 :: (b ++ quoted s'))) = none := by
  have hmark : 34 ∉ ascii "Content-Type: " := by decide
  have hnil : ¬ ascii "Content-Type: " <:+: [] := by decide
  have hnone : ¬ ascii "Content-Type: " <:+: a ++ 34 :: (s ++ 34 :: (b ++ quoted s')) := by
    rw [quoted, infix_append_cons_iff hmark, infix_append_cons_iff hmark,
      infix_append_cons_iff hmark, infix_append_cons_iff hmark]
    simp only [ha, hb, hs, hs', hnil, or_self, not_false_eq_true]
  rw [typeInside, find_eq_none_iff_not_isInfix.mpr hnone, Option.map_none]

/-- A file that is sent under its own file name: the content types that are read differ when there
is one inside the name, because what is behind it in the line has another length. -/
theorem getD_typeInside_eq_iff (hu : p.upload = some u) (hsame : u.filename = p.name) :
    (typeInside (p.reorderedLine u)).getD u.contentType = p.readContentType u ↔
      ¬ ascii "Content-Type: " <:+: p.name := by
  have hname : ¬ ascii "Content-Type: " <:+: ascii "Content-Disposition: form-data; name=" := by
    decide
  have hfilename :
      ¬ ascii "Content-Type: " <:+: ascii "Content-Disposition: form-data; filename=" := by
    decide
  have htype : p.readContentType u = (typeInside p.dispositionLine).getD u.contentType := rfl
  rw [htype, dispositionLine_eq hu, reorderedLine_eq, hsame]
  by_cases hinside : ascii "Content-Type: " <:+: p.name
  · obtain ⟨back, hback⟩ := typeInside_quoted hinside
    refine iff_of_false (fun heq => ?_) (not_not.mpr hinside)
    rw [hback _ _ hname, hback _ _ hfilename, Option.getD_some, Option.getD_some,
      List.append_cancel_left_eq, List.cons.injEq, List.append_cancel_right_eq] at heq
    exact absurd heq.2 (by decide)
  · rw [typeInside_eq_none hname (by decide) hinside hinside,
      typeInside_eq_none hfilename (by decide) hinside hinside]
    exact iff_of_true rfl hinside

theorem readBack_eq_mk (hu : p.upload = some u) :
    p.readBack = ⟨p.name, some ⟨p.readFilename u, p.readContentType u⟩, p.content⟩ := by
  rw [readBack, hu]
  rfl

/-- The parameters of a file may change places: it is sent under its own file name, in which there
is no content type, and which does not end like the key of file names unless what is then read is
the name itself. -/
structure Interchangeable (p : FormPart) (u : Upload) : Prop where
  filename : u.filename = p.name
  contentType : ¬ ascii "Content-Type: " <:+: p.name
  key : ascii "filename=" <:+ p.name → p.name = ascii "; filename="

theorem readReordered_eq_iff (hu : p.upload = some u) :
    p.readReordered u = p.readBack ↔ p.Interchangeable u := by
  rw [readBack_eq_mk hu, readReordered, FormPart.mk.injEq, Option.some.injEq, Upload.mk.injEq]
  constructor
  · rintro ⟨hsame, ⟨hfilename, htype⟩, -⟩
    have hread := (readFilename_eq_iff p u).mp hfilename.symm
    rw [hsame] at hread
    exact ⟨hsame, (getD_typeInside_eq_iff hu hsame).mp htype, hread⟩
  · rintro ⟨hsame, htype, hkey⟩
    refine ⟨hsame, ⟨?_, (getD_typeInside_eq_iff hu hsame).mpr htype⟩, rfl⟩
    apply Eq.symm
    rw [readFilename_eq_iff, hsame]
    exact hkey

theorem readIn_of_upload (hu : p.upload = some u) (reordered : Bool) :
    p.readIn reordered = if reordered then p.readReordered u else p.readBack := by
  rw [readIn, hu]

theorem isSome_upload_readBack (p : FormPart) : p.readBack.upload.isSome = p.upload.isSome :=
  Option.isSome_map

theorem isSome_upload_readIn (reordered : Bool) (p : FormPart) :
    (p.readIn reordered).upload.isSome = p.upload.isSome := by
  cases hu : p.upload with
  | none =>
    have hread : p.readIn reordered = p := by rw [readIn, hu]
    rw [hread, hu]
  | some u =>
    rw [readIn_of_upload hu]
    cases reordered with
    | true => rfl
    | false => exact (isSome_upload_readBack p).trans (by rw [hu])

/-- A part that is read as this file is read by its file name: it has the same file name, or one of
which only the text in front of it is read. -/
theorem cases_of_readBack_eq {q : FormPart} (h : q.readBack = p.readReordered u) :
    q.name = u.filename ∧ ∃ v, q.upload = some v ∧
      (v.filename = u.filename ∨ q.name = ascii "; filename=") := by
  cases hv : q.upload with
  | none =>
    rw [readBack_of_text hv] at h
    rw [h] at hv
    exact absurd hv (by simp [readReordered])
  | some v =>
    rw [readBack_eq_mk hv, readReordered, FormPart.mk.injEq, Option.some.injEq,
      Upload.mk.injEq] at h
    obtain ⟨hname, ⟨hfilename, -⟩, -⟩ := h
    refine ⟨hname, v, rfl, ?_⟩
    rw [readFilename] at hfilename
    split at hfilename
    · exact Or.inr (hname.trans hfilename.symm)
    · exact Or.inl hfilename

end FormPart

/-! ### Lists of parts that are stored as the same files -/

/-- The files of a list of parts that are stored one by one. -/
def storedFiles (parts : List FormPart) : Bytes → Option FormFile :=
  (parts.foldl (fun form p => p.store form) FormData.empty).files

theorem storedFiles_concat_of_text {p : FormPart} (hu : p.upload = none) (parts : List FormPart) :
    storedFiles (parts ++ [p]) = storedFiles parts := by
  rw [storedFiles, List.foldl_append, List.foldl_cons, List.foldl_nil, FormPart.store, hu]
  rfl

theorem storedFiles_concat_of_upload {p : FormPart} {u : Upload} (hu : p.upload = some u)
    (parts : List FormPart) :
    storedFiles (parts ++ [p]) = Function.update (storedFiles parts) p.name
      (some ⟨u.filename, u.contentType, p.content⟩) := by
  rw [storedFiles, List.foldl_append, List.foldl_cons, List.foldl_nil, FormPart.store, hu]
  rfl

/-- A file is stored from a part. -/
theorem exists_of_storedFiles {parts : List FormPart} {name : Bytes} {file : FormFile}
    (h : storedFiles parts name = some file) : ∃ p ∈ parts, p.name = name := by
  induction parts using List.reverseRecOn with
  | nil => exact absurd h (by simp [storedFiles, FormData.empty])
  | append_singleton parts p ih =>
    by_cases hname : p.name = name
    · exact ⟨p, by simp, hname⟩
    · -- The last part has no part in it.
      have hbefore : storedFiles parts name = some file := by
        cases hu : p.upload with
        | none => rwa [storedFiles_concat_of_text hu] at h
        | some u =>
          rwa [storedFiles_concat_of_upload hu, Function.update_of_ne (Ne.symm hname)] at h
      obtain ⟨q, hq, hqname⟩ := ih hbefore
      exact ⟨q, List.mem_append_left _ hq, hqname⟩

/-- Text fields have no part in the files. -/
theorem storedFiles_map {read : FormPart → FormPart}
    (hread : ∀ p, (read p).upload.isSome = p.upload.isSome) (parts : List FormPart) :
    storedFiles (parts.map read) =
      storedFiles ((parts.filter fun p => p.upload.isSome).map read) := by
  induction parts using List.reverseRecOn with
  | nil => rfl
  | append_singleton parts p ih =>
    rw [List.filter_append, List.map_append, List.map_append, List.map_singleton]
    cases hu : (read p).upload with
    | none =>
      have htext : p.upload.isSome = false := by rw [← hread, hu, Option.isSome_none]
      have hdropped : [p].filter (fun p => p.upload.isSome) = [] := by simp [htext]
      rw [hdropped, List.map_nil, List.append_nil, storedFiles_concat_of_text hu, ih]
    | some u =>
      have hfile : p.upload.isSome = true := by rw [← hread, hu, Option.isSome_some]
      have hkept : [p].filter (fun p => p.upload.isSome) = [p] := by simp [hfile]
      rw [hkept, List.map_singleton, storedFiles_concat_of_upload hu,
        storedFiles_concat_of_upload hu, ih]

/-- Files with distinct names, and no more other files that are stored as the same ones: they are
the same. -/
theorem perm_of_storedFiles_eq {ps qs : List FormPart} (hps : ∀ p ∈ ps, p.upload.isSome)
    (hqs : ∀ q ∈ qs, q.upload.isSome) (hnodup : (ps.map FormPart.name).Nodup)
    (hlength : qs.length ≤ ps.length) (h : storedFiles qs = storedFiles ps) : qs.Perm ps := by
  have hholds := holds_foldl hnodup
  -- Every name is one of the other names too, so that these are the same.
  have hsubset : ps.map FormPart.name ⊆ qs.map FormPart.name := by
    intro name hname
    obtain ⟨p, hp, rfl⟩ := List.mem_map.mp hname
    obtain ⟨u, hu⟩ := Option.isSome_iff_exists.mp (hps p hp)
    have hstored : storedFiles ps p.name = some ⟨u.filename, u.contentType, p.content⟩ :=
      (hholds.files _ _).mpr ⟨p, hp, u, rfl, hu, rfl⟩
    obtain ⟨q, hq, hqname⟩ := exists_of_storedFiles (h ▸ hstored)
    exact List.mem_map.mpr ⟨q, hq, hqname⟩
  have hnames : (ps.map FormPart.name).Perm (qs.map FormPart.name) := by
    apply (List.subperm_of_subset hnodup hsubset).perm_of_length_le
    rwa [List.length_map, List.length_map]
  have hnodup' : (qs.map FormPart.name).Nodup := hnames.nodup_iff.mp hnodup
  -- The entry of a name determines the part.
  have hmem : qs ⊆ ps := by
    intro q hq
    obtain ⟨v, hv⟩ := Option.isSome_iff_exists.mp (hqs q hq)
    have hstored : storedFiles qs q.name = some ⟨v.filename, v.contentType, q.content⟩ :=
      ((holds_foldl hnodup').files _ _).mpr ⟨q, hq, v, rfl, hv, rfl⟩
    obtain ⟨p, hp, u, hname, hu, hfile⟩ := (hholds.files _ _).mp (h ▸ hstored)
    obtain ⟨hfilename, htype, hcontent⟩ := FormFile.mk.inj hfile
    have hsame : q = p := by
      obtain ⟨name, upload, content⟩ := q
      obtain ⟨name', upload', content'⟩ := p
      obtain ⟨filename, type⟩ := u
      obtain ⟨filename', type'⟩ := v
      simp_all
    exact hsame ▸ hp
  have hdistinct : qs.Nodup := List.Nodup.of_map FormPart.name hnodup'
  apply (List.subperm_of_subset hdistinct hmem).perm_of_length_le
  have hlen := hnames.length_eq
  rw [List.length_map, List.length_map] at hlen
  exact hlen.le

/-! ### Forms -/

/-- The body of a request with the parameters of some files the other way round. -/
def Form.renderReordered {boundary : Bytes} (f : Form boundary) (reordered : FormPart → Bool)
    (epilogue : Bytes) : Bytes :=
  (f.parts.flatMap fun p => delimiter boundary ++ (crlf ++ p.renderedIn (reordered p))) ++
    (delimiter boundary ++ (ascii "--" ++ epilogue))

variable {boundary : Bytes}

theorem Form.renderReordered_eq (f : Form boundary) (reordered : FormPart → Bool)
    (epilogue : Bytes) :
    f.renderReordered reordered epilogue =
      (f.parts.map fun p => p.rawIn (reordered p)).flatMap (RawPart.bytes boundary) ++
        (delimiter boundary ++ (ascii "--" ++ epilogue)) := by
  rw [Form.renderReordered, List.flatMap_map]
  congr 2
  funext p
  simp only [RawPart.bytes, FormPart.rawIn, FormPart.renderedIn, headOf_eq_append,
    List.append_assoc]

/-- The parser reads the parts of a form whose files have their parameters in any order. -/
theorem parseMultipart_renderReordered (hb : IsBoundary boundary) (f : Form boundary)
    (reordered : FormPart → Bool) (epilogue : Bytes) :
    parseMultipart (f.renderReordered reordered epilogue) boundary =
      (f.parts.map fun p => p.readIn (reordered p)).foldl (fun form p => p.store form) .empty := by
  have hfits : ∀ q ∈ f.parts.map fun p => p.rawIn (reordered p), q.Fits boundary :=
    List.forall_mem_map.mpr fun p hp => FormPart.fits_rawIn (f.sendable p hp) _
  rw [f.renderReordered_eq, parseMultipart_bytes hb hfits]
  exact foldl_storePart (fun p hp => FormPart.storePart_rawIn (f.sendable p hp) _) _

/-- If the same files are stored, the same ones are read in another order. -/
theorem perm_of_files_eq {parts : List FormPart} {reordered : FormPart → Bool}
    (hnodup : (parts.map FormPart.name).Nodup)
    (h : storedFiles (parts.map fun p => p.readIn (reordered p)) =
      storedFiles (parts.map FormPart.readBack)) :
    ((parts.filter fun p => p.upload.isSome).map fun p => p.readIn (reordered p)).Perm
      ((parts.filter fun p => p.upload.isSome).map FormPart.readBack) := by
  have hfile : ∀ p ∈ parts.filter fun p => p.upload.isSome, p.upload.isSome = true :=
    fun p hp => (List.mem_filter.mp hp).2
  apply perm_of_storedFiles_eq
  · intro q hq
    obtain ⟨p, hp, rfl⟩ := List.mem_map.mp hq
    exact (FormPart.isSome_upload_readBack p).trans (hfile p hp)
  · intro q hq
    obtain ⟨p, hp, rfl⟩ := List.mem_map.mp hq
    exact (FormPart.isSome_upload_readIn _ p).trans (hfile p hp)
  · rw [List.map_map]
    exact hnodup.sublist (List.filter_sublist.map FormPart.name)
  · rw [List.length_map, List.length_map]
  · rwa [← storedFiles_map (fun p => FormPart.isSome_upload_readIn _ p),
      ← storedFiles_map FormPart.isSome_upload_readBack]

/-- The names under which files are stored, if the same files are read in another order. -/
theorem injOn_name_readIn {files : List FormPart} {reordered : FormPart → Bool}
    (hnodup : (files.map FormPart.name).Nodup)
    (hperm : (files.map fun p => p.readIn (reordered p)).Perm (files.map FormPart.readBack)) :
    ∀ p ∈ files, ∀ q ∈ files,
      (p.readIn (reordered p)).name = (q.readIn (reordered q)).name → p = q := by
  have hread : ((files.map fun p => p.readIn (reordered p)).map FormPart.name).Nodup := by
    rw [(hperm.map FormPart.name).nodup_iff, List.map_map]
    exact hnodup
  rw [List.map_map] at hread
  exact fun p hp q hq => List.inj_on_of_nodup_map hread hp hq

/-- A reordered file is read as some file is read: this one, or one with an odd name. -/
theorem exists_readBack_eq {files : List FormPart} {reordered : FormPart → Bool}
    (hnodup : (files.map FormPart.name).Nodup)
    (hperm : (files.map fun p => p.readIn (reordered p)).Perm (files.map FormPart.readBack))
    {p : FormPart} (hp : p ∈ files) (hswap : reordered p = true) {u : Upload}
    (hu : p.upload = some u) :
    ∃ q ∈ files, q.readBack = p.readReordered u ∧ (q = p ∨ q.name = ascii "; filename=") := by
  have hreadIn : p.readIn (reordered p) = p.readReordered u := by
    rw [FormPart.readIn_of_upload hu, if_pos hswap]
  obtain ⟨q, hq, hback⟩ := List.mem_map.mp (hperm.subset (List.mem_map.mpr ⟨p, hp, rfl⟩))
  rw [hreadIn] at hback
  refine ⟨q, hq, hback, ?_⟩
  obtain ⟨hname, v, hv, hfilename | hodd⟩ := FormPart.cases_of_readBack_eq hback
  · -- It is stored under this file name in either order.
    have hkey : (q.readIn (reordered q)).name = u.filename := by
      rw [FormPart.readIn_of_upload hv]
      split
      · exact hfilename
      · exact hname
    refine Or.inl (injOn_name_readIn hnodup hperm q hq p hp ?_)
    exact hkey.trans (congrArg FormPart.name hreadIn).symm
  · exact Or.inr hodd

/-- If the same files are read in another order, each of them is read as before. -/
theorem readReordered_eq_of_perm {files : List FormPart} {reordered : FormPart → Bool}
    (hnodup : (files.map FormPart.name).Nodup)
    (hperm : (files.map fun p => p.readIn (reordered p)).Perm (files.map FormPart.readBack))
    {p : FormPart} (hp : p ∈ files) (hswap : reordered p = true) {u : Upload}
    (hu : p.upload = some u) : p.readReordered u = p.readBack := by
  obtain ⟨q, hq, hback, rfl | hodd⟩ := exists_readBack_eq hnodup hperm hp hswap hu
  · exact hback.symm
  · -- The file with the odd name is stored under it, in either order.
    obtain ⟨hname, v, hv, -⟩ := FormPart.cases_of_readBack_eq hback
    have hkey : (q.readIn (reordered q)).name = q.name := by
      cases hswapq : reordered q with
      | false =>
        rw [FormPart.readIn_of_upload hv, if_neg Bool.false_ne_true]
        rfl
      | true =>
        obtain ⟨q', hq', hback', hcases⟩ := exists_readBack_eq hnodup hperm hq hswapq hv
        have hsame : q' = q := by
          rcases hcases with hsame | hodd'
          · exact hsame
          · exact List.inj_on_of_nodup_map hnodup hq' hq (hodd'.trans hodd.symm)
        obtain ⟨hname', -⟩ := FormPart.cases_of_readBack_eq hback'
        rw [FormPart.readIn_of_upload hv, if_pos rfl]
        exact hname'.symm.trans (congrArg FormPart.name hsame)
    have hreadIn : (p.readIn (reordered p)).name = u.filename := by
      rw [FormPart.readIn_of_upload hu, if_pos hswap]
      rfl
    have hsame : q = p := injOn_name_readIn hnodup hperm q hq p hp
      (hkey.trans (hname.trans hreadIn.symm))
    rw [← hsame]
    rw [← hsame] at hback
    exact hback.symm

/-- Exactly when the order of the parameters of some files does not matter: each of these files may
have them in either order. -/
theorem parseMultipart_renderReordered_iff (hb : IsBoundary boundary) (f : Form boundary)
    (reordered : FormPart → Bool) (epilogue : Bytes) :
    parseMultipart (f.renderReordered reordered epilogue) boundary =
        parseMultipart (f.render epilogue) boundary ↔
      ∀ p ∈ f.parts, reordered p = true → ∀ u ∈ p.upload, p.Interchangeable u := by
  rw [parseMultipart_renderReordered hb, parseMultipart_render hb]
  constructor
  · intro h p hp hswap u hu
    have hfiles : storedFiles (f.parts.map fun p => p.readIn (reordered p)) =
        storedFiles (f.parts.map FormPart.readBack) := congrArg FormData.files h
    have hnodup : ((f.parts.filter fun p => p.upload.isSome).map FormPart.name).Nodup :=
      f.nodup_names.sublist (List.filter_sublist.map FormPart.name)
    have hmem : p ∈ f.parts.filter fun p => p.upload.isSome :=
      List.mem_filter.mpr ⟨hp, by rw [hu]; rfl⟩
    -- The files are the same ones, possibly in another order, but their names single them out.
    apply (FormPart.readReordered_eq_iff hu).mp
    exact readReordered_eq_of_perm hnodup (perm_of_files_eq f.nodup_names hfiles) hmem hswap hu
  · intro h
    congr 1
    apply List.map_congr_left
    intro p hp
    cases hu : p.upload with
    | none => rw [readBack_of_text hu, FormPart.readIn, hu]
    | some u =>
      rw [FormPart.readIn_of_upload hu]
      split
      next hswap => exact (FormPart.readReordered_eq_iff hu).mpr (h p hp hswap u hu)
      next => rfl

/-! ### Concrete forms -/

/-- A file that is sent under its own file name. -/
def sameNameParts : List FormPart :=
  [⟨ascii "a.txt", some ⟨ascii "a.txt", ascii "text/plain"⟩, ascii "hello"⟩]

theorem sendable_sameNameParts : ∀ p ∈ sameNameParts, p.Sendable (ascii "B") := by decide +kernel

/-- The form with this file. -/
def sameNameForm : Form (ascii "B") :=
  ⟨sameNameParts, sendable_sameNameParts, List.nodup_singleton _⟩

/-- The order of its parameters does not matter. -/
theorem parseMultipart_renderReordered_sameNameForm :
    parseMultipart (sameNameForm.renderReordered (fun _ => true) crlf) (ascii "B") =
      parseMultipart (sameNameForm.render crlf) (ascii "B") := by
  apply (parseMultipart_renderReordered_iff isBoundary_B sameNameForm (fun _ => true) crlf).mpr
  intro p hp _ u hu
  obtain rfl := List.mem_singleton.mp hp
  obtain rfl := Option.some_inj.mp hu
  exact ⟨rfl, by decide, fun h => absurd h (by decide)⟩

/-- Where the file name stands in front of the name, the file is stored under the file name. -/
theorem not_parseMultipart_renderReordered_sampleForm :
    ¬ ∀ (boundary : Bytes) (f : Form boundary) (reordered : FormPart → Bool) (epilogue : Bytes),
      IsBoundary boundary →
        parseMultipart (f.renderReordered reordered epilogue) boundary =
          parseMultipart (f.render epilogue) boundary := by
  intro h
  have hsame := h (ascii "B") sampleForm (fun _ => true) crlf isBoundary_B
  have hstandard : (parseMultipart (sampleForm.render crlf) (ascii "B")).files (ascii "doc") =
      some ⟨ascii "a.txt", ascii "text/plain", ascii "hello"⟩ := by
    decide +kernel
  have hswapped : (parseMultipart (sampleForm.renderReordered (fun _ => true) crlf)
      (ascii "B")).files (ascii "doc") = none := by
    decide +kernel
  rw [← hsame, hswapped] at hstandard
  exact absurd hstandard (by simp)

end Lundi
