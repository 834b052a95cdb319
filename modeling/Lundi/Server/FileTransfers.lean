import Lundi.Router.TypedRoutes
import Lundi.Server.Services
import Lundi.StaticFiles.Completeness
import Lundi.StaticFiles.Revalidation

/-!
# Files over a connection

A client that asks for files by requests, one behind the other on a connection, while the files may
change at any time. Some of the requests carry the validators of files that the client has kept.

* `presentable_answerOf`: every answer for a file is one that a client can read;
* `exists_answer_process`: a request for a file is answered for the file as it is then;
* `readAnswers_handleConnection_files`: what the client reads, file by file.
-/

namespace Lundi

open Search Decimal Hexadecimal

variable {σ : Type} {env : Env} {opts : ServerOptions}

/-! ### The answers for a file -/

/-- A text that is read as it is written: one line without blanks around it. -/
structure IsPlainText (s : Bytes) : Prop where
  ne_nil : s ≠ []
  unbroken : Unbroken s
  trim_eq : trim s = s

/-- A line whose ends are no blanks. -/
theorem isPlainText_of_ends {s : Bytes} {a b : UInt8} (hunbroken : Unbroken s)
    (hhead : s.head? = some a) (ha : isBlank a = false) (hlast : s.getLast? = some b)
    (hb : isBlank b = false) : IsPlainText s where
  ne_nil := by
    rintro rfl
    exact absurd hhead (by simp)
  unbroken := hunbroken
  trim_eq := by
    apply trim_eq_self
    · intro c hc
      rw [hhead, Option.mem_some] at hc
      rwa [← hc]
    · intro c hc
      rw [hlast, Option.mem_some] at hc
      rwa [← hc]

/-- The names of the headers of static files. -/
def staticNames : List Bytes :=
  [ascii "Content-Type", ascii "ETag", ascii "Last-Modified", ascii "Cache-Control"]

theorem presentable_setStatic {res : Response} (h : res.Presentable) {name value : Bytes}
    (hname : name ∈ staticNames) (hvalue : Unbroken value) :
    (res.setHeader name value).Presentable := by
  have hall : ∀ n ∈ staticNames,
      colon ∉ n ∧ Unbroken n ∧ ∀ f ∈ Response.framingNames, equalsIgnoreCase n f = false := by
    decide
  obtain ⟨hcolon, hunbroken, hframing⟩ := hall name hname
  exact h.setHeader ⟨hcolon, hunbroken, hvalue⟩ hframing

theorem presentable_setUnlessEmpty {res : Response} (h : res.Presentable) {name value : Bytes}
    (hname : name ∈ staticNames) (hvalue : Unbroken value) :
    (setUnlessEmpty res name value).Presentable := by
  unfold setUnlessEmpty
  split
  · exact h
  · exact presentable_setStatic h hname hvalue

theorem unbroken_decimal (n : ℕ) : Unbroken (decimal n) :=
  ⟨fun h => absurd (isDigit_of_mem_decimal h) (by decide),
    fun h => absurd (isDigit_of_mem_decimal h) (by decide)⟩

theorem presentable_setMaxAge {res : Response} (h : res.Presentable) (options : StaticOptions) :
    (setMaxAge res options).Presentable := by
  unfold setMaxAge
  split
  · exact presentable_setStatic h (by decide)
      (unbroken_append.mpr ⟨by decide, unbroken_decimal _⟩)
  · exact h

/-- A type of the table, or the one of all other files. -/
theorem isPlainText_mimeForExtension (ext : Bytes) : IsPlainText (mimeForExtension ext) := by
  have hall : ∀ entry ∈ mimeTypes,
      ascii entry.2 ≠ [] ∧ Unbroken (ascii entry.2) ∧ trim (ascii entry.2) = ascii entry.2 := by
    decide +kernel
  unfold mimeForExtension
  split
  next entry hfound =>
    obtain ⟨hne, hunbroken, htrim⟩ := hall entry (List.mem_of_find?_eq_some hfound)
    exact ⟨hne, hunbroken, htrim⟩
  · exact ⟨by decide, by decide, by decide +kernel⟩

/-- A date begins with the name of a day and ends with the zone. -/
theorem isPlainText_httpDate (t : ℤ) : IsPlainText (httpDate t) := by
  obtain ⟨-, -, -, -, -, -, hwday⟩ := gmtime_bounds t
  have hday : ∀ i < 7, (abbreviation dayNames i).head?.map isBlank = some false := by
    decide +kernel
  obtain ⟨a, hfirst, ha⟩ := Option.map_eq_some_iff.mp (hday _ hwday)
  have hhead : (httpDate t).head? = some a := by
    simp only [httpDate, strftime, List.append_assoc]
    rw [List.head?_append, hfirst]
    rfl
  have hzone : (httpDate t).getLast? = some 84 := by
    rw [httpDate, strftime, show ascii " GMT" = ascii " GM" ++ [84] by decide, ← List.append_assoc,
      List.getLast?_concat]
  exact isPlainText_of_ends (unbroken_httpDate t) hhead ha hzone (by decide)

namespace FileState

variable (f : FileState)

/-- An entity tag is a quoted text. -/
theorem isPlainText_etag : IsPlainText f.etag := by
  have hhex : ∀ n, Unbroken (hex n) := fun n =>
    ⟨fun h => forall_mem_hex (p := (· ≠ cr)) (by decide) n cr h rfl,
      fun h => forall_mem_hex (p := (· ≠ lf)) (by decide) n lf h rfl⟩
  have hunbroken : Unbroken f.etag := by
    have hdash : ∀ s, (45 : UInt8) :: s = [45] ++ s := fun s => rfl
    rw [etag_eq, hdash]
    simp only [unbroken_append, hhex, true_and]
    decide
  have hhead : f.etag.head? = some 87 := by
    rw [etag_eq]
    rfl
  have hlast : f.etag.getLast? = some 34 := by
    rw [etag_eq, ← List.cons_append, ← List.append_assoc, ← List.append_assoc,
      show ascii "\"" = [34] by decide, List.getLast?_concat]
  exact isPlainText_of_ends hunbroken hhead (by decide) hlast (by decide)

end FileState

theorem etagOf_eq (options : StaticOptions) (f : FileState) :
    etagOf options f.data.length f.mtime = if options.etag then f.etag else [] := rfl

theorem presentable_notModified : ({ status := 304 } : Response).Presentable := by
  have hnone : ({ status := 304 } : Response).HasNoBodyStatus := by decide
  refine ⟨⟨by decide, by decide, ?_, ?_⟩, by decide, rfl⟩
  · simp [Response.customFields, Response.writtenHeaders]
  · rw [if_pos hnone]

theorem presentable_body (f : FileState) :
    ({ status := 200, body := f.data } : Response).Presentable := by
  have hnone : ({ status := 200, body := f.data } : Response).customFields = [] := rfl
  refine Response.HasBodyStatus.presentable ⟨by simp, by simp, by simp, by simp⟩ ?_
    (Response.framed_of_forall_ne ?_) f.length_lt rfl
  · simp [hnone]
  · simp [hnone]

/-- Whatever the validators say, the answer is one that a client can read. -/
theorem presentable_answerOf (toTimeT : ℤ → ℤ) (options : StaticOptions) (canonical : Bytes)
    (f : FileState) (req : Request) :
    (answerOf (libraryClock toTimeT) options canonical f req).Presentable := by
  have hetag : Unbroken (etagOf options f.data.length f.mtime) := by
    rw [etagOf_eq]
    exact Unbroken.ite f.isPlainText_etag.unbroken (by decide)
  have hlastMod : Unbroken (lastModOf (libraryClock toTimeT) options f.mtime) :=
    Unbroken.ite (unbroken_httpDate _) (by decide)
  unfold answerOf
  dsimp only
  split
  · -- The tag is confirmed.
    apply presentable_setMaxAge
    exact presentable_setStatic presentable_notModified (by decide) hetag
  split
  · -- The date is confirmed.
    apply presentable_setMaxAge
    exact presentable_setUnlessEmpty
      (presentable_setUnlessEmpty presentable_notModified (by decide) hlastMod) (by decide) hetag
  · have htype := presentable_setStatic (presentable_body f)
      (show ascii "Content-Type" ∈ staticNames by decide)
      (isPlainText_mimeForExtension (extensionLower canonical)).unbroken
    have htag := presentable_setUnlessEmpty htype (show ascii "ETag" ∈ staticNames by decide) hetag
    have hdate := presentable_setUnlessEmpty htag
      (show ascii "Last-Modified" ∈ staticNames by decide) hlastMod
    unfold fileResponse
    dsimp only
    split
    · exact presentable_setMaxAge hdate _
    · exact presentable_setStatic hdate (by decide) (by decide)

/-! ### What a client reads of an answer -/

/-- The fields of a name that is none of the generated ones are the custom fields with the name. -/
theorem valuesOf_headFields {res : Response} (hpreset : res.presetCt = .none) {name : Bytes}
    (hname : ∀ n ∈ [ascii "Server", ascii "Date", ascii "Content-Length", ascii "Connection"],
      equalsIgnoreCase n name = false) (date : Bytes) :
    valuesOf name (res.headFields date) = valuesOf name res.customFields := by
  -- In front stand the server and the date, behind them the length and the connection.
  have hleading : valuesOf name (res.leadingFields date) = [] := by
    apply valuesOf_eq_nil
    intro field hfield
    rw [Response.leadingFields, Response.presetFields, hpreset] at hfield
    simp only [List.mem_cons, List.not_mem_nil, or_false] at hfield
    rcases hfield with rfl | rfl
    · exact hname _ (by simp)
    · exact hname _ (by simp)
  have htrailing : valuesOf name res.trailingFields = [] := by
    apply valuesOf_eq_nil
    intro field hfield
    rw [Response.trailingFields, Response.lengthFields, Response.connectionFields,
      List.mem_append] at hfield
    rcases hfield with hfield | hfield
    · split at hfield
      · exact absurd hfield List.not_mem_nil
      · obtain rfl := List.mem_singleton.mp hfield
        exact hname _ (by simp)
    · split at hfield
      · exact absurd hfield List.not_mem_nil
      · obtain rfl := List.mem_singleton.mp hfield
        exact hname _ (by simp)
  rw [Response.headFields, valuesOf_append, valuesOf_append, hleading, htrailing, List.nil_append,
    List.append_nil]

/-- What a client reads of a file that is sent. -/
structure Message.Shows (message : Message) (toTimeT : ℤ → ℤ) (options : StaticOptions)
    (place : List Bytes) (f : FileState) : Prop where
  status : message.status = 200
  body : message.body = f.data
  contentType : valuesOf (ascii "content-type") message.fields =
    [mimeForExtension (extensionLower (pathString place))]
  etag : valuesOf (ascii "etag") message.fields = if options.etag then [f.etag] else []
  lastModified : valuesOf (ascii "last-modified") message.fields =
    if options.lastModified then [httpDate (toTimeT f.mtime)] else []

/-- The custom fields of a file that is sent. -/
theorem customFields_fileResponse (options : StaticOptions) (canonical body etag lastMod : Bytes) :
    ∃ caching, (fileResponse options canonical body etag lastMod).customFields =
      (ascii "Content-Type", mimeForExtension (extensionLower canonical)) ::
        ((if etag = [] then [] else [(ascii "ETag", etag)]) ++
          ((if lastMod = [] then [] else [(ascii "Last-Modified", lastMod)]) ++
            [(ascii "Cache-Control", caching)])) := by
  unfold fileResponse setMaxAge setUnlessEmpty
  by_cases hage : options.maxAge > 0 <;> by_cases htag : etag = [] <;>
    by_cases hmod : lastMod = [] <;>
    simp [hage, htag, hmod, Response.customFields, Response.writtenHeaders, Response.setHeader]

/-- The names of these fields are told apart. -/
theorem valuesOf_staticFields (contentType etag lastMod caching : Bytes) :
    let fs := (ascii "Content-Type", contentType) ::
      ((if etag = [] then [] else [(ascii "ETag", etag)]) ++
        ((if lastMod = [] then [] else [(ascii "Last-Modified", lastMod)]) ++
          [(ascii "Cache-Control", caching)]))
    valuesOf (ascii "content-type") fs = [contentType] ∧
      valuesOf (ascii "etag") fs = (if etag = [] then [] else [etag]) ∧
      valuesOf (ascii "last-modified") fs = if lastMod = [] then [] else [lastMod] := by
  have htype : (staticNames.map fun n => equalsIgnoreCase n (ascii "content-type")) =
      [true, false, false, false] := by decide
  have htag : (staticNames.map fun n => equalsIgnoreCase n (ascii "etag")) =
      [false, true, false, false] := by decide
  have hdate : (staticNames.map fun n => equalsIgnoreCase n (ascii "last-modified")) =
      [false, false, true, false] := by decide
  simp only [staticNames, List.map_cons, List.map_nil, List.cons.injEq, and_true]
    at htype htag hdate
  by_cases hetag : etag = [] <;> by_cases hmod : lastMod = [] <;>
    simp [valuesOf, hetag, hmod, htype, htag, hdate]

theorem presetCt_fileResponse (options : StaticOptions) (canonical body etag lastMod : Bytes) :
    (fileResponse options canonical body etag lastMod).presetCt = .none := by
  unfold fileResponse setMaxAge setUnlessEmpty
  by_cases hage : options.maxAge > 0 <;> by_cases htag : etag = [] <;>
    by_cases hmod : lastMod = [] <;>
    simp [hage, htag, hmod, Response.setHeader]

/-- The client reads the file, its type and its validators. -/
theorem shows_seen_fileResponse (toTimeT : ℤ → ℤ) (options : StaticOptions) (place : List Bytes)
    (f : FileState) (date : Bytes) :
    ((fileResponse options (pathString place) f.data (etagOf options f.data.length f.mtime)
      (lastModOf (libraryClock toTimeT) options f.mtime)).seen date).Shows toTimeT options place
        f := by
  generalize hres : fileResponse options (pathString place) f.data
    (etagOf options f.data.length f.mtime) (lastModOf (libraryClock toTimeT) options f.mtime) = res
  obtain ⟨caching, hfields⟩ := customFields_fileResponse options (pathString place) f.data
    (etagOf options f.data.length f.mtime) (lastModOf (libraryClock toTimeT) options f.mtime)
  have hpreset := presetCt_fileResponse options (pathString place) f.data
    (etagOf options f.data.length f.mtime) (lastModOf (libraryClock toTimeT) options f.mtime)
  rw [hres] at hfields hpreset
  -- The values come from the custom fields, without the blanks around them.
  have hread : ∀ {name}, (∀ n ∈ [ascii "Server", ascii "Date", ascii "Content-Length",
      ascii "Connection"], equalsIgnoreCase n name = false) →
      valuesOf name (res.seen date).fields = (valuesOf name res.customFields).map trim := by
    intro name hname
    rw [Response.seen, valuesOf_map_trimmed, valuesOf_headFields hpreset hname]
  obtain ⟨htype, htag, hdate⟩ := valuesOf_staticFields
    (mimeForExtension (extensionLower (pathString place))) (etagOf options f.data.length f.mtime)
    (lastModOf (libraryClock toTimeT) options f.mtime) caching
  refine ⟨?_, ?_, ?_, ?_, ?_⟩
  · rw [Response.seen, ← hres, status_fileResponse]
    rfl
  · rw [Response.seen, ← hres, body_fileResponse]
  · rw [hread (by decide), hfields, htype, List.map_singleton,
      (isPlainText_mimeForExtension _).trim_eq]
  · rw [hread (by decide), hfields, htag, etagOf_eq]
    cases options.etag with
    | true => simp [f.etag_ne_nil, f.isPlainText_etag.trim_eq]
    | false => rfl
  · rw [hread (by decide), hfields, hdate, lastModOf, formatHttpDate]
    have htime := isPlainText_httpDate (toTimeT f.mtime)
    cases options.lastModified with
    | true => simp [libraryClock, htime.ne_nil, htime.trim_eq]
    | false => rfl

/-! ### Requests for files -/

/-- The first value of a field of the request. -/
def RawRequest.firstValue (r : RawRequest opts) (name : Bytes) : Option Bytes :=
  (valuesOf name (r.fieldLines.filterMap fieldOf)).head?

/-- A request for a file below the directory of a mount. -/
structure FileCall (opts : ServerOptions) (m : StaticMount) where
  request : RawRequest opts
  names : List Bytes
  entries : List QueryEntry
  method_eq : request.method = ascii "GET"
  names_ne_nil : names ≠ []
  undotted : ∀ name ∈ names, ¬ ascii ".." <:+: name
  target : EncodesTarget (m.urlPrefix ++ [slash].intercalate names) entries request.target

variable {m : StaticMount} {app : App σ}

namespace FileCall

variable (call : FileCall opts m)

/-- The path, as it is decoded. -/
def path : Bytes := m.urlPrefix ++ [slash].intercalate call.names

theorem expectsBody_method : ExpectsBody call.request.method := by
  rw [call.method_eq]
  decide

/-- The place of the file. -/
def place : List Bytes := m.root ++ call.names

/-- The file is there, in this state, and not too large. -/
structure Finds (fs : FileSystem) (f : FileState) : Prop where
  entry_eq : fs.entry call.place = some (.file f.data f.mtime true)
  small : f.data.length ≤ m.options.maxFileSize

/-- No route takes the request, and the mount is the first with a prefix of the path. -/
structure GoesTo (app : App σ) : Prop where
  leaves : app.router.Leaves (ascii "GET") call.path
  first : ∃ before after, app.staticFiles.mounts = before ++ m :: after ∧
    ∀ m' ∈ before, m'.matchesPath call.path = false

/-- The request confirms this state of the file: its entity tag is the one given, or it is not later
than the date given. -/
def Confirms (toTimeT : ℤ → ℤ) (f : FileState) : Prop :=
  m.options.etag = true ∧ call.request.firstValue (ascii "if-none-match") = some f.etag ∨
    m.options.lastModified = true ∧ ∃ since t,
      call.request.firstValue (ascii "if-modified-since") = some since ∧
        readHttpDate since = some t ∧ t ≠ -1 ∧ toTimeT f.mtime ≤ t

/-- What the client reads for a state of the file: a confirmation without a body, or the file. -/
def Shows (toTimeT : ℤ → ℤ) (f : FileState) (message : Message) : Prop :=
  (call.Confirms toTimeT f → message.status = 304 ∧ message.body = []) ∧
    (¬ call.Confirms toTimeT f → message.Shows toTimeT m.options call.place f)

variable {call} {fs : FileSystem} {f : FileState} {toTimeT : ℤ → ℤ} {req : Request}

/-- The checks of the mount look at what the client has sent. -/
theorem confirms_iff (hreq : call.request.Presents req) :
    call.Confirms toTimeT f ↔
      etagMatches m.options (etagOf m.options f.data.length f.mtime) req = true ∨
        notModifiedSince (libraryClock toTimeT) m.options f.mtime req = true := by
  have htag := hreq.findHeaderCi_eq (ascii "if-none-match")
  have hdate := hreq.findHeaderCi_eq (ascii "if-modified-since")
  rw [Confirms]
  apply or_congr
  · rw [etagMatches, RawRequest.firstValue, ← htag, Bool.and_eq_true]
    apply and_congr_right
    intro hoption
    rw [etagOf_eq, if_pos hoption]
    cases req.findHeaderCi (ascii "if-none-match") <;> simp
  · rw [notModifiedSince, RawRequest.firstValue, ← hdate, Bool.and_eq_true]
    apply and_congr_right
    intro _
    cases req.findHeaderCi (ascii "if-modified-since") with
    | none => simp
    | some ims =>
      -- A date that is not read counts as the mark of a failure.
      have hparse : parseHttpDate (libraryClock toTimeT) ims.bytes =
          (readHttpDate ims.bytes).getD (-1) := rfl
      have htime : (libraryClock toTimeT).toTimeT f.mtime = toTimeT f.mtime := rfl
      simp only [hparse, htime, Option.map_some, Option.some.injEq]
      cases hread : readHttpDate ims.bytes with
      | none => simp [hread]
      | some t => simp [hread]

/-- The mount serves the file. -/
theorem servedBy (hgoes : call.GoesTo app) (hfinds : call.Finds fs f) (clock : Clock)
    (req : Request) :
    ServedBy app.staticFiles m fs clock call.path req (pathString call.place) f := by
  have hasks : AsksFor fs m call.names f.data call.path .empty :=
    ⟨call.names_ne_nil, ⟨f.mtime, hfinds.entry_eq⟩, hfinds.small, rfl, rfl, rfl⟩
  have hdots : ¬ (find (ascii "..") ([slash].intercalate call.names) ≠ none) :=
    not_not.mpr (find_dots_iff.mpr call.undotted)
  obtain ⟨before, after, hmounts, hbefore⟩ := hgoes.first
  refine ⟨⟨before, after, hmounts, ?_⟩, m.matchesPath_append _, ⟨_, ?_, hasks.locate_eq⟩, ?_,
    hfinds.small⟩
  · intro m' hm'
    rw [tryMount, hbefore m' hm', if_neg Bool.false_ne_true]
  · rw [path, m.fileName_append hasks.isRelative, if_neg hdots]
  · exact (FileSystem.status_pathString ⟨_, hfinds.entry_eq, rfl⟩).trans hfinds.entry_eq

/-- A request for a file is answered for the file as it is then. -/
theorem exists_answer_process (hmiddleware : app.hasMiddleware = false) (hgoes : call.GoesTo app)
    {w : World} (hfinds : call.Finds w.fs f) (hreq : call.request.Presents req) (user : σ) :
    ∃ a, (app.process w ⟨user, req⟩).outcome = some a ∧ a.user = user ∧
      a.result = .ok (answerOf w.clock m.options (pathString call.place) f req) := by
  obtain ⟨hmethod, hpath, -, -⟩ := hreq.line_eq call.target
  rw [call.method_eq] at hmethod
  have hleaves := hgoes.leaves
  -- The lookup of a route may leave parameters in the request that is served.
  have hserve := fun params =>
    (servedBy hgoes hfinds w.clock { req with params := params }).tryServe_eq
  rw [← show req.path = call.path from hpath] at hleaves hserve
  have hroute := hleaves.resolve_eq req.params
  have hne : ascii "GET" ≠ ascii "HEAD" := by decide
  obtain ⟨before, after, hmounts, -⟩ := hgoes.first
  have hsome : app.staticFiles.hasMounts = true := by simp [StaticFileHandler.hasMounts, hmounts]
  rw [App.process, hmiddleware, if_neg Bool.false_ne_true, App.dispatch, hmethod]
  generalize app.router.resolve (ascii "GET") req.path req.params = resolved at hroute
  obtain ⟨found, params⟩ := resolved
  obtain rfl : found = none := hroute
  simp only [App.dispatchHead, hmethod, if_neg hne, App.dispatchStatic, true_or, true_and, hsome,
    if_true, hserve]
  -- The parameters of a route play no part in the answer.
  exact ⟨_, rfl, rfl, rfl⟩

/-- The contract of a request for a file: it is answered for the file as it is at some time, and
changes nothing. -/
def contract (env : Env) (call : FileCall opts m) : Contract σ := fun user user' res =>
  user' = user ∧ ∃ now f req, call.Finds (env.world now).fs f ∧ call.request.Presents req ∧
    res = answerOf (env.world now).clock m.options (pathString call.place) f req

/-- What a client reads of a response that keeps the contract. -/
theorem shows_of_contract {toTimeT : ℕ → ℤ → ℤ}
    (hclock : ∀ t, (env.world t).clock = libraryClock (toTimeT t)) {user user' : σ}
    {res : Response} (h : contract env call user user' res) (date : Bytes) :
    ∃ now f, call.Finds (env.world now).fs f ∧ call.Shows (toTimeT now) f (res.seen date) := by
  obtain ⟨-, now, f, req, hfinds, hreq, rfl⟩ := h
  refine ⟨now, f, hfinds, ?_⟩
  rw [hclock, Shows, confirms_iff hreq]
  have hanswer := answerOf_confirmed_or_sent (libraryClock (toTimeT now)) m.options
    (pathString call.place) f req
  constructor
  · intro hchecks
    rw [if_pos hchecks] at hanswer
    rw [Response.seen, hanswer.1, hanswer.2]
    exact ⟨rfl, rfl⟩
  · intro hno
    rw [if_neg hno] at hanswer
    rw [answerOf_eq_of_status hanswer.1]
    exact shows_seen_fileResponse _ _ _ _ _

end FileCall

/-- A client that asks for files by requests, one behind the other on a connection, reads a message
for each of them, in order: a confirmation if the request confirms the file, and otherwise the file
with its type and its validators, as the file is at some time while the connection lasts. -/
theorem readAnswers_handleConnection_files (hcalm : env.net.Calm)
    (hrunning : ∀ t, env.shuttingDown t = false) (hdate : ∀ t, Unbroken (env.date t))
    {toTimeT : ℕ → ℤ → ℤ} (hclock : ∀ t, (env.world t).clock = libraryClock (toTimeT t))
    (hmiddleware : app.hasMiddleware = false) {calls : List (FileCall opts m)}
    (hordinary : ∀ call ∈ calls, call.request.Ordinary app)
    (hgoes : ∀ call ∈ calls, call.GoesTo app)
    (hfinds : ∀ call ∈ calls, ∀ t, ∃ f, call.Finds (env.world t).fs f)
    (hcloses : ∀ call ∈ calls, call.request.asksToClose = false)
    (hlimit : opts.maxKeepaliveRequests ≤ 0 ∨ (calls.length : ℤ) < opts.maxKeepaliveRequests)
    (user : σ) :
    ∃ messages, readAnswers (methodsOf (calls.map FileCall.request))
        (handleConnection env opts app user
          ((calls.map FileCall.request).flatMap RawRequest.bytes)).socket.outgoing =
            some messages ∧
      List.Forall₂ (fun call message => ∃ now f, call.Finds (env.world now).fs f ∧
        call.Shows (toTimeT now) f message) calls messages := by
  have hkeeps : ∀ call ∈ calls, app.Keeps env call.request (call.contract env) := by
    intro call hcall now user' req hreq
    obtain ⟨f, hf⟩ := hfinds call hcall now
    obtain ⟨a, houtcome, huser, hok⟩ :=
      FileCall.exists_answer_process hmiddleware (hgoes call hcall) hf hreq user'
    refine ⟨a, _, houtcome, hok, ?_, huser, now, f, req, hf, hreq, rfl⟩
    rw [hclock]
    exact presentable_answerOf _ _ _ _ _
  obtain ⟨dates, responses, -, hlength, hfulfilled, hread⟩ :=
    exists_fulfilled_readAnswers hcalm hrunning hdate hordinary
      (fun call _ => call.expectsBody_method) hkeeps hcloses hlimit user
  exact ⟨_, hread, hfulfilled.forall₂_seen hlength
    fun call user user' res date h => FileCall.shows_of_contract hclock h date⟩

/-! ### A concrete site -/

/-- The file of the site is replaced again and again. -/
def changingEnv : Env :=
  { bytewiseEnv with
    world := fun t =>
      let f := helloAt (Fin.ofNat 3 t)
      ⟨sampleSite.replaceFile wwwPlace f.data f.mtime, libraryClock systemTime⟩ }

/-- An application that serves the site. -/
def wwwApp : App Unit := { App.empty with staticFiles := ⟨[wwwMount]⟩ }

theorem encodesTarget_helloFile :
    EncodesTarget (wwwMount.urlPrefix ++ [slash].intercalate [ascii "a.txt"]) []
      (pathOf ([ascii "a.txt"].map percentEncode)) :=
  encodesTarget_percentEncode [ascii "a.txt"]

/-- A request for the file, with these fields. -/
def helloCall (fieldLines : List Bytes) (hlines : ∀ l ∈ fieldLines, IsLine l)
    (hcount : fieldLines.length ≤ maxHeaders) (hannounces : Announces fieldLines none)
    (hlength : (headOf (requestLine (ascii "GET") (pathOf ([ascii "a.txt"].map percentEncode))
      (ascii "HTTP/1.1") :: fieldLines)).length ≤ defaultOptions.maxHeaderSize) :
    FileCall defaultOptions wwwMount where
  request := sampleGetWith (pathOf ([ascii "a.txt"].map percentEncode)) fieldLines (by decide)
    hlines hcount hannounces hlength
  names := [ascii "a.txt"]
  entries := []
  method_eq := rfl
  names_ne_nil := by simp
  undotted := by decide
  target := encodesTarget_helloFile

/-- The file is asked for, and asked for again with the entity tag of one of its states. -/
def helloCalls : List (FileCall defaultOptions wwwMount) :=
  [helloCall [ascii "Host: localhost"] (by decide) (by decide)
      (show valuesOf _ _ = [] by decide) (by decide),
    helloCall [ascii "If-None-Match: W/\"fffffffeaf05a3a1-5\""] (by decide) (by decide)
      (show valuesOf _ _ = [] by decide) (by decide)]

theorem names_of_mem_helloCalls {call : FileCall defaultOptions wwwMount}
    (h : call ∈ helloCalls) : call.names = [ascii "a.txt"] := by
  simp only [helloCalls, List.mem_cons, List.not_mem_nil, or_false] at h
  rcases h with rfl | rfl <;> rfl

theorem finds_helloCalls : ∀ call ∈ helloCalls, ∀ t,
    ∃ f, call.Finds (changingEnv.world t).fs f := by
  intro call hcall t
  have hplace : call.place = wwwPlace := by
    rw [FileCall.place, names_of_mem_helloCalls hcall]
    rfl
  exact ⟨helloAt (Fin.ofNat 3 t), by rw [hplace]; exact entry_wwwPlace _, length_helloAt _⟩

/-- Two requests for a file that keeps changing. -/
theorem readAnswers_handleConnection_files_hello :
    ∃ messages, readAnswers (methodsOf (helloCalls.map FileCall.request))
        (handleConnection changingEnv defaultOptions wwwApp ()
          ((helloCalls.map FileCall.request).flatMap RawRequest.bytes)).socket.outgoing =
            some messages ∧
      List.Forall₂ (fun call message => ∃ now f, call.Finds (changingEnv.world now).fs f ∧
        call.Shows systemTime f message) helloCalls messages := by
  have hclock : ∀ t, (changingEnv.world t).clock = libraryClock ((fun _ => systemTime) t) :=
    fun _ => rfl
  exact readAnswers_handleConnection_files (fun _ => ⟨1, rfl⟩) (fun _ => rfl)
    (fun _ => show Unbroken (ascii "Sun, 06 Nov 1994 08:49:37 GMT") by decide) hclock rfl
    (fun _ _ _ _ => by simp [App.takesOver, wwwApp, App.empty])
    (fun _ _ => ⟨fun _ he => absurd he List.not_mem_nil, [], [], rfl, by simp⟩)
    finds_helloCalls (by decide) (by decide) ()

end Lundi
