import Lundi.Core.Exception
import Lundi.Core.Request
import Lundi.Core.Response
import Lundi.Lib.Decimal
import Lundi.Lib.Search
import Lundi.StaticFiles.FileSystem

/-!
# Static files

`static_file_handler`: mounting directories and serving files from them, with entity tags,
modification dates and cache headers. The clock, the calendar and the date parser of the C library
are a parameter.

A `StaticMount` carries the place its directory leads to, so that every value of the type is one
that `mount` accepts.
-/

namespace Lundi

open Search Decimal

/-- `static_options`. -/
structure StaticOptions where
  /-- `Cache-Control` max-age in seconds, an `int`. -/
  maxAge : ℤ := 3600
  etag : Bool := true
  lastModified : Bool := true
  index : Bytes := ascii "index.html"
  maxFileSize : ℕ := 50 * 1024 * 1024

/-- The time functions of the C and C++ libraries. -/
structure Clock where
  /-- The `time_t` of a file time, by the two readings of the clocks at the time of the call. -/
  toTimeT : ℤ → ℤ
  /-- `gmtime_r` followed by `strftime` with the HTTP-date format. -/
  strftime : ℤ → Bytes
  /-- `strptime` with the HTTP-date format followed by `timegm`. -/
  strptime : Bytes → Option ℤ

/-- The extensions `mime_for_extension` knows, with their types. -/
def mimeTypes : List (List String × String) :=
  [([".html", ".htm"], "text/html; charset=utf-8"),
    ([".css"], "text/css; charset=utf-8"),
    ([".js", ".mjs"], "application/javascript; charset=utf-8"),
    ([".json"], "application/json; charset=utf-8"),
    ([".xml"], "application/xml; charset=utf-8"),
    ([".txt"], "text/plain; charset=utf-8"),
    ([".csv"], "text/csv; charset=utf-8"),
    ([".md"], "text/markdown; charset=utf-8"),
    ([".png"], "image/png"),
    ([".jpg", ".jpeg"], "image/jpeg"),
    ([".gif"], "image/gif"),
    ([".svg"], "image/svg+xml"),
    ([".ico"], "image/x-icon"),
    ([".webp"], "image/webp"),
    ([".avif"], "image/avif"),
    ([".woff2"], "font/woff2"),
    ([".woff"], "font/woff"),
    ([".ttf"], "font/ttf"),
    ([".otf"], "font/otf"),
    ([".eot"], "application/vnd.ms-fontobject"),
    ([".wasm"], "application/wasm"),
    ([".pdf"], "application/pdf"),
    ([".zip"], "application/zip"),
    ([".gz"], "application/gzip"),
    ([".mp4"], "video/mp4"),
    ([".webm"], "video/webm"),
    ([".mp3"], "audio/mpeg"),
    ([".ogg"], "audio/ogg"),
    ([".map"], "application/json")]

/-- `detail::mime_for_extension`. -/
def mimeForExtension (ext : Bytes) : Bytes :=
  match mimeTypes.find? fun entry => entry.1.any fun known => ascii known == ext with
  | some entry => ascii entry.2
  | none => ascii "application/octet-stream"

/-- `path::extension`: the last name from its last dot on, unless that dot is its first byte. -/
def extension (path : Bytes) : Bytes :=
  let filename := (components path).getLast?.getD []
  let stem := (filename.reverse.dropWhile (· ≠ 46)).drop 1
  if stem = [] ∨ filename = ascii ".." then [] else filename.drop stem.length

/-- `detail::extension_lower`. -/
def extensionLower (path : Bytes) : Bytes := (extension path).map toLower

/-- The `%lx` conversion of `printf`. -/
def formatHex (n : ℕ) : Bytes := (Nat.toDigits 16 n).map fun c => c.toNat.toUInt8

/-- `detail::make_etag`: whole seconds, truncated toward zero, and the size, as unsigned longs. -/
def makeEtag (size : ℕ) (mtime : ℤ) : Bytes :=
  let seconds := mtime.tdiv 1000000000
  ascii "W/\"" ++ formatHex (seconds % 2 ^ 64).toNat ++ ascii "-" ++ formatHex (size % 2 ^ 64) ++
    ascii "\""

/-- `detail::format_http_date`. -/
def formatHttpDate (clock : Clock) (ftime : ℤ) : Bytes := clock.strftime (clock.toTimeT ftime)

/-- `detail::parse_http_date`: `-1` on failure. -/
def parseHttpDate (clock : Clock) (date : Bytes) : ℤ := (clock.strptime date).getD (-1)

/-- The string of a directory with a trailing slash. -/
def directoryString (place : List Bytes) : Bytes :=
  slash :: place.flatMap fun name => name ++ [slash]

/-- `static_mount`. -/
structure StaticMount where
  /-- The URL prefix. -/
  urlPrefix : Bytes
  /-- The canonical directory, always with a trailing slash. -/
  directory : Bytes
  /-- Caching and serving options. -/
  options : StaticOptions
  /-- The place of the directory. -/
  root : List Bytes
  /-- The directory is the string of that place. -/
  directory_eq : directory = directoryString root
  /-- The names on the way to it are valid. -/
  validName : ∀ name ∈ root, ValidName name

/-- A trailing slash is added unless there is one. -/
def addTrailingSlash (s : Bytes) : Bytes := if s.getLast? ≠ some slash then s ++ [slash] else s

theorem intercalate_append_slash {place : List Bytes} (h : place ≠ []) :
    [slash].intercalate place ++ [slash] = place.flatMap fun name => name ++ [slash] := by
  induction place with
  | nil => exact absurd rfl h
  | cons name place ih =>
    rcases eq_or_ne place [] with rfl | hplace
    · simp
    · have hcons : [slash].intercalate (name :: place) =
          name ++ slash :: [slash].intercalate place := by
        rw [List.intercalate_cons_of_ne_nil hplace]
        simp
      rw [hcons, List.flatMap_cons, ← ih hplace]
      simp

/-- The string of a place with a trailing slash added. -/
theorem addTrailingSlash_pathString {place : List Bytes}
    (hvalid : ∀ name ∈ place, ValidName name) :
    addTrailingSlash (pathString place) = directoryString place := by
  rcases List.eq_nil_or_concat' place with rfl | ⟨parent, name, rfl⟩
  · rfl
  · have hname := hvalid name (by simp)
    have hcat : pathString (parent ++ [name]) =
        (slash :: parent.flatMap fun name => name ++ [slash]) ++ name := by
      have hne : parent ++ [name] ≠ [] := by simp
      have h := intercalate_append_slash hne
      rw [List.flatMap_append, List.flatMap_singleton, ← List.append_assoc] at h
      rw [pathString, List.append_cancel_right h, List.cons_append]
    -- The last byte belongs to the last name, and no name holds a slash.
    have hlast : (pathString (parent ++ [name])).getLast? ≠ some slash := by
      rw [hcat, List.getLast?_append_of_ne_nil _ hname.ne_nil]
      exact fun h => hname.slash_notMem (List.mem_of_getLast? h)
    rw [addTrailingSlash, if_pos hlast, pathString, directoryString, List.cons_append,
      intercalate_append_slash (by simp)]

/-- The mount that `static_file_handler::mount` appends, or a `std::runtime_error`. -/
def StaticMount.ofDirectory (fs : FileSystem) (urlPrefix directory : Bytes)
    (options : StaticOptions) : Except Exception StaticMount :=
  match h : fs.resolve directory with
  | .error ec =>
    .error (.standard (ascii "serve_static: cannot resolve directory '" ++ directory ++
      ascii "': " ++ ec.message))
  | .ok root =>
    let canonical := pathString root
    if fs.isDirectory canonical then
      .ok {
        -- An empty prefix stays empty.
        urlPrefix := if urlPrefix = [] then [] else addTrailingSlash urlPrefix
        directory := addTrailingSlash canonical
        options := options
        root := root
        directory_eq := addTrailingSlash_pathString (FileSystem.validName_of_resolve h)
        validName := FileSystem.validName_of_resolve h }
    else .error (.standard (ascii "serve_static: '" ++ directory ++ ascii "' is not a directory"))

/-- `static_file_handler`: the mounts in registration order. -/
structure StaticFileHandler where
  /-- `mounts_`. -/
  mounts : List StaticMount

namespace StaticMount

variable (m : StaticMount)

/-- The prefix test of `try_mount`. -/
def matchesPath (reqPath : Bytes) : Bool :=
  m.urlPrefix = [slash] ∨ find m.urlPrefix reqPath = some 0 ∨ reqPath ++ [slash] = m.urlPrefix

/-- The part of the path behind the prefix. `substr` throws when the path is the prefix without its
trailing slash, because then it is shorter than the prefix. -/
def relativePath (reqPath : Bytes) : Except Exception Bytes :=
  if m.urlPrefix = [slash] then .ok (if reqPath.length > 1 then reqPath.drop 1 else [])
  else if m.urlPrefix.length ≤ reqPath.length then .ok (reqPath.drop m.urlPrefix.length)
  else .error (.standard (ascii "basic_string::substr"))

/-- A directory request is completed with the index file, if there is one. -/
def completeIndex (rel : Bytes) : Option Bytes :=
  if rel = [] ∨ rel.getLast? = some slash then
    if m.options.index = [] then none else some (rel ++ m.options.index)
  else some rel

/-- One leading slash is erased. -/
def eraseLeadingSlash (rel : Bytes) : Bytes :=
  if rel.head? = some slash then rel.drop 1 else rel

/-- The relative name of the file a path asks for; nothing for a directory without an index and
for a name with two dots in a row. -/
def fileName (reqPath : Bytes) : Except Exception (Option Bytes) :=
  match m.relativePath reqPath with
  | .error e => .error e
  | .ok rel =>
    match m.completeIndex rel with
    | none => .ok none
    | some rel =>
      let rel := eraseLeadingSlash rel
      .ok (if find (ascii "..") rel ≠ none then none else some rel)

/-- The canonical path of the file, if it is a regular one and its string begins with the
directory. -/
def locate (fs : FileSystem) (rel : Bytes) : Option Bytes :=
  let full := joinPath m.directory rel
  if fs.isRegularFile full then
    match fs.canonical full with
    | .error _ => none
    | .ok canonical => if find m.directory canonical ≠ some 0 then none else some canonical
  else none

end StaticMount

/-- The `Cache-Control` header of a positive max-age. -/
def setMaxAge (res : Response) (options : StaticOptions) : Response :=
  if options.maxAge > 0 then
    res.setHeader (ascii "Cache-Control")
      (ascii "public, max-age=" ++ decimal options.maxAge.toNat)
  else res

/-- A header is set unless its value is empty. -/
def setUnlessEmpty (res : Response) (name value : Bytes) : Response :=
  if value = [] then res else res.setHeader name value

/-- The entity tag, empty when the mount sends none. -/
def etagOf (options : StaticOptions) (size : ℕ) (mtime : ℤ) : Bytes :=
  if options.etag then makeEtag size mtime else []

/-- The modification date, empty when the mount sends none. -/
def lastModOf (clock : Clock) (options : StaticOptions) (mtime : ℤ) : Bytes :=
  if options.lastModified then formatHttpDate clock mtime else []

/-- The `If-None-Match` check succeeds. -/
def etagMatches (options : StaticOptions) (etag : Bytes) (req : Request) : Bool :=
  options.etag &&
    match req.findHeaderCi (ascii "if-none-match") with
    | some inm => inm.bytes == etag
    | none => false

/-- The `If-Modified-Since` check succeeds. -/
def notModifiedSince (clock : Clock) (options : StaticOptions) (mtime : ℤ) (req : Request) :
    Bool :=
  options.lastModified &&
    match req.findHeaderCi (ascii "if-modified-since") with
    | some ims =>
      let clientTime := parseHttpDate clock ims.bytes
      clientTime ≠ -1 && clock.toTimeT mtime ≤ clientTime
    | none => false

/-- The 304 answer to a matching entity tag. -/
def etagResponse (options : StaticOptions) (etag : Bytes) : Response :=
  setMaxAge (({ status := 304 } : Response).setHeader (ascii "ETag") etag) options

/-- The 304 answer to a matching date. -/
def notModifiedResponse (options : StaticOptions) (etag lastMod : Bytes) : Response :=
  setMaxAge (setUnlessEmpty (setUnlessEmpty { status := 304 } (ascii "Last-Modified") lastMod)
    (ascii "ETag") etag) options

/-- The 200 answer. -/
def fileResponse (options : StaticOptions) (canonical body etag lastMod : Bytes) : Response :=
  let res := ({ status := 200, body := body } : Response).setHeader (ascii "Content-Type")
    (mimeForExtension (extensionLower canonical))
  let res := setUnlessEmpty (setUnlessEmpty res (ascii "ETag") etag)
    (ascii "Last-Modified") lastMod
  if options.maxAge > 0 then setMaxAge res options
  else res.setHeader (ascii "Cache-Control") (ascii "no-cache")

/-- The part of `try_mount` behind the path checks. -/
def serveCanonical (fs : FileSystem) (clock : Clock) (options : StaticOptions)
    (canonical : Bytes) (req : Request) : Option Response :=
  match fs.fileSize canonical with
  | none => none
  | some fileSize =>
    if fileSize > options.maxFileSize then none
    else
      match fs.lastWriteTime canonical with
      | none => none
      | some mtime =>
        let etag := etagOf options fileSize mtime
        let lastMod := lastModOf clock options mtime
        if etagMatches options etag req then some (etagResponse options etag)
        else if notModifiedSince clock options mtime req then
          some (notModifiedResponse options etag lastMod)
        else
          match fs.read canonical with
          | none => none
          | some body => some (fileResponse options canonical body etag lastMod)

/-- `static_file_handler::try_mount`. -/
def tryMount (fs : FileSystem) (clock : Clock) (m : StaticMount) (reqPath : Bytes)
    (req : Request) : Except Exception (Option Response) :=
  if m.matchesPath reqPath then
    match m.fileName reqPath with
    | .error e => .error e
    | .ok none => .ok none
    | .ok (some rel) =>
      match m.locate fs rel with
      | none => .ok none
      | some canonical => .ok (serveCanonical fs clock m.options canonical req)
  else .ok none

/-- The loop of `try_serve`. -/
def tryMounts (fs : FileSystem) (clock : Clock) (reqPath : Bytes) (req : Request) :
    List StaticMount → Except Exception (Option Response)
  | [] => .ok none
  | m :: mounts =>
    match tryMount fs clock m reqPath req with
    | .error e => .error e
    | .ok (some res) => .ok (some res)
    | .ok none => tryMounts fs clock reqPath req mounts

namespace StaticFileHandler

/-- No mounts. -/
def empty : StaticFileHandler := ⟨[]⟩

/-- `mount`. -/
def mount (h : StaticFileHandler) (fs : FileSystem) (urlPrefix directory : Bytes)
    (options : StaticOptions) : Except Exception StaticFileHandler :=
  match StaticMount.ofDirectory fs urlPrefix directory options with
  | .error e => .error e
  | .ok m => .ok ⟨h.mounts ++ [m]⟩

/-- `has_mounts`. -/
def hasMounts (h : StaticFileHandler) : Bool := !h.mounts.isEmpty

/-- `try_serve`. -/
def tryServe (h : StaticFileHandler) (fs : FileSystem) (clock : Clock) (reqPath : Bytes)
    (req : Request) : Except Exception (Option Response) :=
  tryMounts fs clock reqPath req h.mounts

end StaticFileHandler

end Lundi
