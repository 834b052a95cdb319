import Lundi.Core.ParseHeaders
import Lundi.Lib.Hexadecimal
import Lundi.StaticFiles.Containment

/-!
# Conditional requests

A client that asks for a file with the validators of an earlier answer. `try_mount` compares the
entity tag first and the date next, also when the tag has been given and differs.

* `etag_inj`: the tag tells the size and the modification second of a file;
* `changed_file_sent_iff`: exactly when a file that has changed is sent instead of being confirmed.
-/

namespace Lundi

open Search Hexadecimal

/-- A file as the server sees it: a size of type `uintmax_t`, and a time in nanoseconds of 64
bits. -/
structure FileState where
  data : Bytes
  mtime : ℤ
  length_lt : data.length < 2 ^ 64
  mtime_ge : -2 ^ 63 ≤ mtime
  mtime_lt : mtime < 2 ^ 63

namespace FileState

/-- The modification time in whole seconds. -/
def seconds (f : FileState) : ℤ := f.mtime.tdiv 1000000000

/-- The size and the modification second. -/
def version (f : FileState) : ℕ × ℤ := (f.data.length, f.seconds)

/-- Whole seconds have 64 bits as well. -/
theorem seconds_range (f : FileState) : -2 ^ 63 ≤ f.seconds ∧ f.seconds < 2 ^ 63 := by
  have hge := f.mtime_ge
  have hlt := f.mtime_lt
  rw [seconds]
  rcases Int.le_total 0 f.mtime with hpos | hneg
  · rw [Int.tdiv_eq_ediv_of_nonneg hpos]
    omega
  · have hswap : f.mtime.tdiv 1000000000 = -((-f.mtime).tdiv 1000000000) := by
      rw [Int.neg_tdiv, Int.neg_neg]
    rw [hswap, Int.tdiv_eq_ediv_of_nonneg (by omega)]
    omega

/-- The entity tag of the file. -/
def etag (f : FileState) : Bytes := makeEtag f.data.length f.mtime

theorem etag_eq (f : FileState) :
    f.etag = ascii "W/\"" ++ (hex (f.seconds % 2 ^ 64).toNat ++ 45 ::
      (hex (f.data.length % 2 ^ 64) ++ ascii "\"")) := by
  rw [etag, makeEtag]
  simp only [List.append_assoc]
  rfl

theorem etag_ne_nil (f : FileState) : f.etag ≠ [] := by
  rw [etag_eq]
  simp [ascii]

/-- The tag tells the size and the second. -/
theorem etag_inj {f g : FileState} : f.etag = g.etag ↔ f.version = g.version := by
  constructor
  · intro h
    rw [etag_eq, etag_eq] at h
    have htail := List.append_cancel_left h
    -- The first dash stands behind the seconds.
    have hdash : ∀ n, 45 ∉ hex n := by
      intro n hmem
      have hall : ∀ b ∈ hex n, b ≠ 45 := forall_mem_hex (by decide) n
      exact hall 45 hmem rfl
    have hlen : (hex (f.seconds % 2 ^ 64).toNat).length =
        (hex (g.seconds % 2 ^ 64).toNat).length := by
      have hf := find_singleton_append (hdash (f.seconds % 2 ^ 64).toNat)
        (hex (f.data.length % 2 ^ 64) ++ ascii "\"")
      rw [htail, find_singleton_append (hdash _)] at hf
      exact (Option.some_inj.mp hf).symm
    obtain ⟨hseconds, hrest⟩ := List.append_inj htail hlen
    have hsize := hex_injective (List.append_cancel_right (List.cons.inj hrest).2)
    have hseconds := hex_injective hseconds
    have hfs := f.seconds_range
    have hgs := g.seconds_range
    have hfl := f.length_lt
    have hgl := g.length_lt
    rw [version, version, Prod.mk.injEq]
    constructor
    · rwa [Nat.mod_eq_of_lt hfl, Nat.mod_eq_of_lt hgl] at hsize
    · omega
  · intro h
    obtain ⟨hlength, hseconds⟩ := Prod.mk.inj h
    rw [etag_eq, etag_eq, hlength, hseconds]

end FileState

/-! ### A served file -/

/-- A mount serves a file for a path: no mount before it answers, it locates the file, and the file
can be read and is not too large. -/
structure ServedBy (h : StaticFileHandler) (m : StaticMount) (fs : FileSystem) (clock : Clock)
    (path : Bytes) (req : Request) (canonical : Bytes) (f : FileState) : Prop where
  first : ∃ before after, h.mounts = before ++ m :: after ∧
    ∀ m' ∈ before, tryMount fs clock m' path req = .ok none
  matched : m.matchesPath path = true
  located : ∃ rel, m.fileName path = .ok (some rel) ∧ m.locate fs rel = some canonical
  status_eq : fs.status canonical = some (.file f.data f.mtime true)
  small : f.data.length ≤ m.options.maxFileSize

/-- The answer for a file that can be read. -/
def answerOf (clock : Clock) (options : StaticOptions) (canonical : Bytes) (f : FileState)
    (req : Request) : Response :=
  let etag := etagOf options f.data.length f.mtime
  let lastMod := lastModOf clock options f.mtime
  if etagMatches options etag req then etagResponse options etag
  else if notModifiedSince clock options f.mtime req then
    notModifiedResponse options etag lastMod
  else fileResponse options canonical f.data etag lastMod

theorem serveCanonical_eq {fs : FileSystem} {clock : Clock} {options : StaticOptions}
    {canonical : Bytes} {f : FileState} {req : Request}
    (hstatus : fs.status canonical = some (.file f.data f.mtime true))
    (hsmall : f.data.length ≤ options.maxFileSize) :
    serveCanonical fs clock options canonical req =
      some (answerOf clock options canonical f req) := by
  obtain ⟨hsize, htime, hread⟩ := FileSystem.file_of_status hstatus
  have hlarge : ¬ f.data.length > options.maxFileSize := by omega
  simp only [serveCanonical, hsize, if_neg hlarge, htime, hread, answerOf]
  split
  · rfl
  · split <;> rfl

/-- A mount behind mounts that do not answer is asked. -/
theorem tryMounts_append {fs : FileSystem} {clock : Clock} {path : Bytes} {req : Request}
    {before mounts : List StaticMount}
    (h : ∀ m ∈ before, tryMount fs clock m path req = .ok none) :
    tryMounts fs clock path req (before ++ mounts) = tryMounts fs clock path req mounts := by
  induction before with
  | nil => rfl
  | cons m before ih =>
    obtain ⟨hm, hbefore⟩ := List.forall_mem_cons.mp h
    rw [List.cons_append, tryMounts, hm]
    exact ih hbefore

theorem ServedBy.tryServe_eq {h : StaticFileHandler} {m : StaticMount} {fs : FileSystem}
    {clock : Clock} {path : Bytes} {req : Request} {canonical : Bytes} {f : FileState}
    (hserved : ServedBy h m fs clock path req canonical f) :
    h.tryServe fs clock path req = .ok (some (answerOf clock m.options canonical f req)) := by
  obtain ⟨before, after, hmounts, hnone⟩ := hserved.first
  obtain ⟨rel, hname, hlocate⟩ := hserved.located
  have hm : tryMount fs clock m path req =
      .ok (some (answerOf clock m.options canonical f req)) := by
    rw [tryMount, hserved.matched, if_pos rfl, hname]
    simp only [hlocate, serveCanonical_eq hserved.status_eq hserved.small]
  rw [StaticFileHandler.tryServe, hmounts, tryMounts_append hnone, tryMounts, hm]

/-! ### The validators of an answer -/

/-- The value of a header as it is sent. -/
def Response.sent (res : Response) (name : Bytes) : Option Bytes :=
  (res.writtenHeaders.find? fun header => header.name == name).map ResponseHeader.value

/-- The request gives no validators back but those of an answer: both of them, one, or none. -/
structure GivesBack (req : Request) (res : Response) : Prop where
  ifNoneMatch : ∀ inm, req.findHeaderCi (ascii "if-none-match") = some inm →
    res.sent (ascii "ETag") = some inm.bytes
  ifModifiedSince : ∀ ims, req.findHeaderCi (ascii "if-modified-since") = some ims →
    res.sent (ascii "Last-Modified") = some ims.bytes

/-- The request gives all validators of an answer back. -/
structure Echoes (req : Request) (res : Response) : Prop where
  ifNoneMatch : (req.findHeaderCi (ascii "if-none-match")).map StringView.bytes =
    res.sent (ascii "ETag")
  ifModifiedSince : (req.findHeaderCi (ascii "if-modified-since")).map StringView.bytes =
    res.sent (ascii "Last-Modified")

theorem Echoes.givesBack {req : Request} {res : Response} (h : Echoes req res) :
    GivesBack req res where
  ifNoneMatch inm hinm := by rw [← h.ifNoneMatch, hinm, Option.map_some]
  ifModifiedSince ims hims := by rw [← h.ifModifiedSince, hims, Option.map_some]

/-- The validators of an answer, with or without an entity tag. -/
theorem sent_fileResponse (options : StaticOptions) (canonical body etag lastMod : Bytes) :
    (fileResponse options canonical body etag lastMod).sent (ascii "ETag") =
        (if etag = [] then none else some etag) ∧
      (fileResponse options canonical body etag lastMod).sent (ascii "Last-Modified") =
        if lastMod = [] then none else some lastMod := by
  have hnames : (ascii "Content-Type" == ascii "ETag") = false ∧
      (ascii "Content-Type" == ascii "Last-Modified") = false ∧
      (ascii "Last-Modified" == ascii "ETag") = false ∧
      (ascii "ETag" == ascii "Last-Modified") = false ∧
      (ascii "Cache-Control" == ascii "ETag") = false ∧
      (ascii "Cache-Control" == ascii "Last-Modified") = false := by decide
  obtain ⟨htype, htype', hmod', htag', hcache, hcache'⟩ := hnames
  unfold fileResponse setMaxAge setUnlessEmpty
  -- The names are told apart; the last header may be one of two.
  by_cases hage : options.maxAge > 0 <;> by_cases htag : etag = [] <;>
    by_cases hmod : lastMod = [] <;>
    simp [hage, htag, hmod, Response.sent, Response.writtenHeaders, Response.setHeader, htype,
      htype', hmod', htag', hcache, hcache']

/-- A file is sent exactly when neither check succeeds. -/
theorem answerOf_cases (clock : Clock) (options : StaticOptions) (canonical : Bytes)
    (f : FileState) (req : Request) :
    (answerOf clock options canonical f req).status = 304 ∧
        (etagMatches options (etagOf options f.data.length f.mtime) req = true ∨
          notModifiedSince clock options f.mtime req = true) ∨
      answerOf clock options canonical f req =
          fileResponse options canonical f.data (etagOf options f.data.length f.mtime)
            (lastModOf clock options f.mtime) ∧
        etagMatches options (etagOf options f.data.length f.mtime) req = false ∧
        notModifiedSince clock options f.mtime req = false := by
  unfold answerOf
  by_cases htag : etagMatches options (etagOf options f.data.length f.mtime) req = true
  · left
    simp [htag, etagResponse, status_setMaxAge]
  · by_cases hdate : notModifiedSince clock options f.mtime req = true
    · left
      simp [htag, hdate, notModifiedResponse, status_setMaxAge, status_setUnlessEmpty]
    · right
      simp [htag, hdate]

theorem answerOf_eq_of_status {clock : Clock} {options : StaticOptions} {canonical : Bytes}
    {f : FileState} {req : Request}
    (h : (answerOf clock options canonical f req).status = 200) :
    answerOf clock options canonical f req =
      fileResponse options canonical f.data (etagOf options f.data.length f.mtime)
        (lastModOf clock options f.mtime) := by
  rcases answerOf_cases clock options canonical f req with ⟨hstatus, -⟩ | ⟨hfile, -⟩
  · omega
  · exact hfile

/-- The answer is a 200 with the bytes of the file exactly when neither check succeeds. -/
theorem answerOf_sent_iff (clock : Clock) (options : StaticOptions) (canonical : Bytes)
    (f : FileState) (req : Request) :
    (answerOf clock options canonical f req).status = 200 ∧
        (answerOf clock options canonical f req).body = f.data ↔
      etagMatches options (etagOf options f.data.length f.mtime) req = false ∧
        notModifiedSince clock options f.mtime req = false := by
  rcases answerOf_cases clock options canonical f req with ⟨hstatus, hmatch⟩ | ⟨hfile, hfresh⟩
  · refine iff_of_false (fun h => ?_) fun h => ?_
    · omega
    · rcases hmatch with hmatch | hmatch
      · exact absurd (h.1.symm.trans hmatch) (by simp)
      · exact absurd (h.2.symm.trans hmatch) (by simp)
  · refine iff_of_true ⟨?_, ?_⟩ hfresh
    · rw [hfile, status_fileResponse]
    · rw [hfile, body_fileResponse]

/-- The clocks agree on a date: it is formatted to some text, and parsed from it. -/
structure DateInverse (formatter parser : Clock) (t : ℤ) : Prop where
  strptime_strftime : parser.strptime (formatter.strftime t) = some t
  strftime_ne_nil : formatter.strftime t ≠ []

variable {m : StaticMount} {fs₁ fs₂ : FileSystem} {clock₁ clock₂ : Clock}
variable {path canonical : Bytes} {req₁ req₂ : Request} {f₁ f₂ : FileState}

variable (f₂) in
/-- The date check, when the only date that a request may give back is the one of an answer. -/
theorem notModifiedSince_iff {options : StaticOptions} {res : Response}
    (hdate : (req₂.findHeaderCi (ascii "if-modified-since")).isSome = true →
      DateInverse clock₁ clock₂ (clock₁.toTimeT f₁.mtime))
    (hback : GivesBack req₂ res)
    (hres : res.sent (ascii "Last-Modified") =
      if lastModOf clock₁ options f₁.mtime = [] then none
      else some (lastModOf clock₁ options f₁.mtime)) :
    notModifiedSince clock₂ options f₂.mtime req₂ = true ↔
      (req₂.findHeaderCi (ascii "if-modified-since")).isSome = true ∧
        clock₁.toTimeT f₁.mtime ≠ -1 ∧ clock₂.toTimeT f₂.mtime ≤ clock₁.toTimeT f₁.mtime := by
  cases hims : req₂.findHeaderCi (ascii "if-modified-since") with
  | none => simp [notModifiedSince, hims]
  | some ims =>
    have hinverse := hdate (by rw [hims]; rfl)
    have hsent := hback.ifModifiedSince ims hims
    -- A mount that compares no dates sends none.
    cases hoption : options.lastModified with
    | false => simp [hsent, lastModOf, hoption] at hres
    | true =>
      have hlast : lastModOf clock₁ options f₁.mtime =
          clock₁.strftime (clock₁.toTimeT f₁.mtime) := by
        rw [lastModOf, hoption, if_pos rfl, formatHttpDate]
      rw [hlast, if_neg hinverse.strftime_ne_nil, hsent, Option.some_inj] at hres
      have hparse : parseHttpDate clock₂ ims.bytes = clock₁.toTimeT f₁.mtime := by
        rw [parseHttpDate, hres, hinverse.strptime_strftime, Option.getD_some]
      simp [notModifiedSince, hoption, hims, hparse]

variable (f₂) in
/-- The tag check, when the only tag that a request may give back is the one of an answer. -/
theorem etagMatches_iff {options : StaticOptions} {res : Response} (hback : GivesBack req₂ res)
    (hres : res.sent (ascii "ETag") = if etagOf options f₁.data.length f₁.mtime = [] then none
      else some (etagOf options f₁.data.length f₁.mtime)) :
    etagMatches options (etagOf options f₂.data.length f₂.mtime) req₂ = true ↔
      (req₂.findHeaderCi (ascii "if-none-match")).isSome = true ∧ f₁.version = f₂.version := by
  cases hinm : req₂.findHeaderCi (ascii "if-none-match") with
  | none => simp [etagMatches, hinm]
  | some inm =>
    have hsent := hback.ifNoneMatch inm hinm
    -- A mount without entity tags sends none.
    cases hoption : options.etag with
    | false => simp [hsent, etagOf, hoption] at hres
    | true =>
      have hof : ∀ f : FileState, etagOf options f.data.length f.mtime = f.etag := by
        intro f
        rw [etagOf, hoption, if_pos rfl, FileState.etag]
      rw [hof, if_neg f₁.etag_ne_nil, hsent, Option.some_inj] at hres
      rw [hof, ← FileState.etag_inj]
      simp [etagMatches, hoption, hinm, hres]

/-- Exactly when a changed file is sent: a file is answered with its bytes, the file changes in size
or modification second, and a request gives back all validators of the answer. The new bytes are
sent if and only if the mount compares no dates, the old date is the one that stands for a failure,
or the new date is later. -/
theorem changed_file_sent_iff {h : StaticFileHandler} {res₁ : Response}
    (hserved₁ : ServedBy h m fs₁ clock₁ path req₁ canonical f₁)
    (hserved₂ : ServedBy h m fs₂ clock₂ path req₂ canonical f₂)
    (hversion : f₁.version ≠ f₂.version)
    (hres₁ : h.tryServe fs₁ clock₁ path req₁ = .ok (some res₁)) (hstatus₁ : res₁.status = 200)
    (hecho : Echoes req₂ res₁)
    (hdate : DateInverse clock₁ clock₂ (clock₁.toTimeT f₁.mtime)) :
    (∃ res₂, h.tryServe fs₂ clock₂ path req₂ = .ok (some res₂) ∧ res₂.status = 200 ∧
        res₂.body = f₂.data) ↔
      m.options.lastModified = false ∨ clock₁.toTimeT f₁.mtime = -1 ∨
        clock₁.toTimeT f₁.mtime < clock₂.toTimeT f₂.mtime := by
  -- The first answer is the file with both validators.
  rw [hserved₁.tryServe_eq] at hres₁
  obtain rfl : answerOf clock₁ m.options canonical f₁ req₁ = res₁ := by simpa using hres₁
  rw [answerOf_eq_of_status hstatus₁] at hecho
  obtain ⟨hsent, hsent'⟩ := sent_fileResponse m.options canonical f₁.data
    (etagOf m.options f₁.data.length f₁.mtime) (lastModOf clock₁ m.options f₁.mtime)
  -- The tags differ, so the date decides.
  have htag : etagMatches m.options (etagOf m.options f₂.data.length f₂.mtime) req₂ = false := by
    rw [← Bool.not_eq_true, etagMatches_iff f₂ hecho.givesBack hsent]
    exact fun hboth => hversion hboth.2
  have hsince := notModifiedSince_iff f₂ (fun _ => hdate) hecho.givesBack hsent'
  -- A date is given back when the mount sends one.
  have hgiven : (req₂.findHeaderCi (ascii "if-modified-since")).isSome = true ↔
      m.options.lastModified = true := by
    rw [← Option.isSome_map, hecho.ifModifiedSince, hsent', lastModOf]
    cases m.options.lastModified with
    | false => simp
    | true => simp [formatHttpDate, hdate.strftime_ne_nil]
  rw [hgiven] at hsince
  have hanswer : (∃ res₂, h.tryServe fs₂ clock₂ path req₂ = .ok (some res₂) ∧
      res₂.status = 200 ∧ res₂.body = f₂.data) ↔
        (answerOf clock₂ m.options canonical f₂ req₂).status = 200 ∧
          (answerOf clock₂ m.options canonical f₂ req₂).body = f₂.data := by
    rw [hserved₂.tryServe_eq]
    simp
  rw [hanswer, answerOf_sent_iff, and_iff_right htag, ← Bool.not_eq_true, hsince]
  simp only [not_and_or, not_le, ne_eq, not_not, Bool.not_eq_true]

/-! ### A file that is replaced -/

/-- A file is located when its string begins with the directory. -/
theorem locate_eq {fs : FileSystem} {rel data : Bytes} {place : List Bytes} {mtime : ℤ}
    {readable : Bool} (hfull : joinPath m.directory rel = pathString place)
    (hbelow : find m.directory (pathString place) = some 0)
    (hentry : fs.entry place = some (.file data mtime readable)) :
    m.locate fs rel = some (pathString place) := by
  have hresolved : fs.Resolved place := ⟨_, hentry, rfl⟩
  have hregular : fs.isRegularFile (pathString place) = true := by
    rw [FileSystem.isRegularFile, FileSystem.status_pathString hresolved, hentry]
  have hcanonical : fs.canonical (pathString place) = .ok (pathString place) := by
    rw [FileSystem.canonical, FileSystem.resolve_pathString hresolved]
    rfl
  simp [StaticMount.locate, hfull, hregular, hcanonical, hbelow]

theorem directory_wwwMount :
    ascii "/srv/www/" = directoryString [ascii "srv", ascii "www"] := by decide

/-- The directory of the site, mounted at the root. -/
def wwwMount : StaticMount :=
  ⟨ascii "/", ascii "/srv/www/", {}, [ascii "srv", ascii "www"], directory_wwwMount,
    validName_www⟩

/-- The place of the file of the site. -/
def wwwPlace : List Bytes := [ascii "srv", ascii "www", ascii "a.txt"]

theorem entry_wwwPlace (f : FileState) :
    (sampleSite.replaceFile wwwPlace f.data f.mtime).entry wwwPlace =
      some (.file f.data f.mtime true) := by
  have hfile : sampleSite.entry wwwPlace = some (.file (ascii "hello") 0 true) :=
    FileSystem.entry_single
  simp [FileSystem.replaceFile, hfile]

/-- The mount serves the file in each state. -/
theorem servedBy_wwwMount (clock : Clock) (req : Request) {f : FileState}
    (hsmall : f.data.length ≤ wwwMount.options.maxFileSize) :
    ServedBy ⟨[wwwMount]⟩ wwwMount (sampleSite.replaceFile wwwPlace f.data f.mtime) clock
      (ascii "/a.txt") req (pathString wwwPlace) f where
  first := ⟨[], [], rfl, by simp⟩
  matched := by decide
  located := ⟨ascii "a.txt", by decide, locate_eq (by decide) (by decide) (entry_wwwPlace f)⟩
  status_eq := by
    rw [FileSystem.status_pathString ⟨_, entry_wwwPlace f, rfl⟩, entry_wwwPlace]
  small := hsmall

/-- Three dates, an hour apart. -/
def sampleDates : List (ℤ × String) :=
  [(784108177, "Sun, 06 Nov 1994 07:49:37 GMT"), (784111777, "Sun, 06 Nov 1994 08:49:37 GMT"),
    (784115377, "Sun, 06 Nov 1994 09:49:37 GMT")]

/-- File times counted from the year 2174, as the standard library has them. -/
def systemTime (ns : ℤ) : ℤ := ns / 1000000000 + 6437664000

/-- A calendar that knows these dates. -/
def calendar : Clock where
  toTimeT := systemTime
  strftime t := ((sampleDates.find? fun d => d.1 == t).map fun d => ascii d.2).getD []
  strptime text := (sampleDates.find? fun d => ascii d.2 == text).map Prod.fst

theorem fileState_hello (t : Fin 3) : (ascii "hello").length < 2 ^ 64 ∧
    -2 ^ 63 ≤ (-5653555823 + 3600 * (t : ℤ)) * 1000000000 ∧
    (-5653555823 + 3600 * (t : ℤ)) * 1000000000 < 2 ^ 63 := by
  revert t
  decide

/-- The file with the modification time of one of the dates. -/
def helloAt (t : Fin 3) : FileState :=
  ⟨ascii "hello", (-5653555823 + 3600 * (t : ℤ)) * 1000000000, (fileState_hello t).1,
    (fileState_hello t).2.1, (fileState_hello t).2.2⟩

/-- A request with the validators of the second date. -/
def echoRequest : Request :=
  parseHeaders ⟨.readBuffer 0, 0, ascii "GET /a.txt HTTP/1.1\r\n" ++
    ascii "If-None-Match: W/\"fffffffeaf05a3a1-5\"\r\n" ++
    ascii "If-Modified-Since: Sun, 06 Nov 1994 08:49:37 GMT\r\n\r\n"⟩

theorem helloAt_answers :
    (answerOf calendar wwwMount.options (pathString wwwPlace) (helloAt 1) .empty).status = 200 ∧
      (answerOf calendar wwwMount.options (pathString wwwPlace) (helloAt 0) echoRequest).status =
        304 := by
  decide +kernel

theorem echoes_echoRequest :
    Echoes echoRequest
      (answerOf calendar wwwMount.options (pathString wwwPlace) (helloAt 1) .empty) := by
  constructor <;> decide +kernel

theorem dateInverse_calendar :
    DateInverse calendar calendar (calendar.toTimeT (helloAt 1).mtime) := by
  constructor <;> decide +kernel

theorem length_helloAt (t : Fin 3) :
    (helloAt t).data.length ≤ wwwMount.options.maxFileSize := by
  decide +revert

/-- A file that is replaced by a later one is sent. -/
theorem changed_file_sent_later :
    ∃ res₂, StaticFileHandler.tryServe ⟨[wwwMount]⟩
        (sampleSite.replaceFile wwwPlace (helloAt 2).data (helloAt 2).mtime) calendar
        (ascii "/a.txt") echoRequest = .ok (some res₂) ∧
      res₂.status = 200 ∧ res₂.body = (helloAt 2).data := by
  have hserved₁ := servedBy_wwwMount calendar .empty (length_helloAt 1)
  have hserved₂ := servedBy_wwwMount calendar echoRequest (length_helloAt 2)
  refine (changed_file_sent_iff hserved₁ hserved₂ (by decide) hserved₁.tryServe_eq
    helloAt_answers.1 echoes_echoRequest dateInverse_calendar).mpr ?_
  exact Or.inr (Or.inr (by decide))

/-- A file that is replaced by an earlier one is confirmed. -/
theorem not_changed_file_sent_earlier :
    ¬ ∀ (h : StaticFileHandler) (m : StaticMount) (fs₁ fs₂ : FileSystem) (clock : Clock)
      (path canonical : Bytes) (req₁ req₂ : Request) (f₁ f₂ : FileState) (res₁ : Response),
      m.options.etag = true → ServedBy h m fs₁ clock path req₁ canonical f₁ →
      ServedBy h m fs₂ clock path req₂ canonical f₂ → f₁.version ≠ f₂.version →
      h.tryServe fs₁ clock path req₁ = .ok (some res₁) → res₁.status = 200 → Echoes req₂ res₁ →
      DateInverse clock clock (clock.toTimeT f₁.mtime) →
      ∃ res₂, h.tryServe fs₂ clock path req₂ = .ok (some res₂) ∧ res₂.status = 200 ∧
        res₂.body = f₂.data := by
  intro hall
  have hserved₁ := servedBy_wwwMount calendar .empty (length_helloAt 1)
  have hserved₂ := servedBy_wwwMount calendar echoRequest (length_helloAt 0)
  obtain ⟨res₂, hres₂, hstatus₂, -⟩ := hall _ _ _ _ _ _ _ _ _ _ _ _ rfl hserved₁ hserved₂
    (by decide) hserved₁.tryServe_eq helloAt_answers.1 echoes_echoRequest dateInverse_calendar
  rw [hserved₂.tryServe_eq] at hres₂
  have hanswer := Option.some_inj.mp (Except.ok.inj hres₂)
  have hconfirmed := helloAt_answers.2
  rw [hanswer, hstatus₂] at hconfirmed
  exact absurd hconfirmed (by decide)

end Lundi
