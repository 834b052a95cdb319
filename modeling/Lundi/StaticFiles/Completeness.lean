import Lundi.StaticFiles.Conditional

/-!
# Completeness of static serving

The other half of containment: a path that names a regular file below the directory of a mount gets
the file. The one exception is by design. The second of the three traversal checks looks for two
dots in a row anywhere in the relative path, so a name that holds them is refused as well.

* `fileName_append`: what the string operations of `try_mount` make of such a path;
* `tryServe_eq_of_asksFor`: the answer to a request for a file;
* `file_served_iff`: exactly which files are served.
-/

namespace Lundi

open Search

/-- An unconditional request for a regular file below the directory of a mount: its path is the
prefix, followed by the names on the way to the file. Only directories stand on this way. -/
structure AsksFor (fs : FileSystem) (m : StaticMount) (names : List Bytes) (data path : Bytes)
    (req : Request) : Prop where
  below : names ≠ []
  regular : ∃ mtime, fs.entry (m.root ++ names) = some (.file data mtime true)
  small : data.length ≤ m.options.maxFileSize
  path_eq : path = m.urlPrefix ++ [slash].intercalate names
  no_if_none_match : req.findHeaderCi (ascii "if-none-match") = none
  no_if_modified_since : req.findHeaderCi (ascii "if-modified-since") = none

/-! ### Relative paths -/

/-- A relative path that is neither empty nor begins or ends with a slash. -/
structure IsRelative (rel : Bytes) : Prop where
  ne_nil : rel ≠ []
  head_ne : rel.head? ≠ some slash
  last_ne : rel.getLast? ≠ some slash

/-- Valid names joined by slashes are a relative path. -/
theorem isRelative_intercalate {names : List Bytes} (hne : names ≠ [])
    (hvalid : ∀ name ∈ names, ValidName name) : IsRelative ([slash].intercalate names) := by
  induction names with
  | nil => exact absurd rfl hne
  | cons name names ih =>
    obtain ⟨hname, hnames⟩ := List.forall_mem_cons.mp hvalid
    have hhead : name.head? ≠ some slash :=
      fun h => hname.slash_notMem (List.mem_of_head? h)
    rcases eq_or_ne names [] with rfl | hrest
    · rw [List.intercalate_singleton]
      exact ⟨hname.ne_nil, hhead, fun h => hname.slash_notMem (List.mem_of_getLast? h)⟩
    · have hrel := ih hrest hnames
      rw [List.intercalate_cons_of_ne_nil hrest, List.append_assoc]
      refine ⟨?_, ?_, ?_⟩
      · exact List.append_ne_nil_of_left_ne_nil hname.ne_nil _
      · rwa [List.head?_append_of_ne_nil _ hname.ne_nil]
      · rw [← List.append_assoc, List.getLast?_append_of_ne_nil _ hrel.ne_nil]
        exact hrel.last_ne

namespace StaticMount

variable (m : StaticMount) {rel : Bytes}

theorem matchesPath_append (rel : Bytes) : m.matchesPath (m.urlPrefix ++ rel) = true := by
  have hfind : find m.urlPrefix (m.urlPrefix ++ rel) = some 0 :=
    find_eq_zero_iff.mpr (List.prefix_append _ _)
  simp [matchesPath, hfind]

/-- What stands behind the prefix is cut off, for the prefix `/` as for any other. -/
theorem relativePath_append (hrel : rel ≠ []) :
    m.relativePath (m.urlPrefix ++ rel) = .ok rel := by
  rw [relativePath]
  split
  next hslash =>
    have hlong : ([slash] ++ rel).length > 1 := by
      have := List.length_pos_of_ne_nil hrel
      rw [List.length_append, List.length_singleton]
      omega
    rw [hslash, if_pos hlong]
    rfl
  next =>
    rw [if_pos (by simp), List.drop_left]

/-- A relative path of a file goes through the string operations unchanged; it is refused exactly
for two dots in a row. -/
theorem fileName_append (hrel : IsRelative rel) :
    m.fileName (m.urlPrefix ++ rel) =
      .ok (if find (ascii "..") rel ≠ none then none else some rel) := by
  have hfile : ¬ (rel = [] ∨ rel.getLast? = some slash) := not_or.mpr ⟨hrel.ne_nil, hrel.last_ne⟩
  have herase : eraseLeadingSlash rel = rel := if_neg hrel.head_ne
  simp only [fileName, m.relativePath_append hrel.ne_nil, completeIndex, if_neg hfile, herase]

end StaticMount

/-! ### The file -/

/-- The check for two dots in a row, name by name. -/
theorem find_dots_iff {names : List Bytes} :
    find (ascii "..") ([slash].intercalate names) = none ↔
      ∀ name ∈ names, ¬ ascii ".." <:+: name := by
  have hslash : slash ∉ ascii ".." := by decide
  rw [find_eq_none_iff_not_isInfix, infix_intercalate_iff (by decide) hslash, not_exists]
  simp only [not_and]

theorem getLast?_directoryString (root : List Bytes) :
    (directoryString root).getLast? = some slash := by
  rcases List.eq_nil_or_concat' root with rfl | ⟨parent, name, rfl⟩
  · rfl
  · have hcat : directoryString (parent ++ [name]) = directoryString parent ++ name ++ [slash] := by
      simp [directoryString]
    rw [hcat, List.getLast?_concat]

/-- A relative path is looked for below the directory. -/
theorem StaticMount.joinPath_directory (m : StaticMount) {rel : Bytes}
    (h : rel.head? ≠ some slash) : joinPath m.directory rel = m.directory ++ rel := by
  have hrelative : ¬ isAbsolute rel = true := by simpa [isAbsolute] using h
  have hlast : m.directory.getLast? = some slash := by
    rw [m.directory_eq, getLast?_directoryString]
  rw [joinPath, if_neg hrelative, if_pos (Or.inr hlast)]

/-- The string of a directory, followed by the string of names below it. -/
theorem directoryString_append {names : List Bytes} (hne : names ≠ []) (root : List Bytes) :
    directoryString root ++ [slash].intercalate names = pathString (root ++ names) := by
  rw [directoryString, pathString, List.cons_append]
  congr 1
  induction root with
  | nil => rfl
  | cons name root ih =>
    have happend : root ++ names ≠ [] := List.append_ne_nil_of_right_ne_nil _ hne
    rw [List.cons_append, List.intercalate_cons_of_ne_nil happend, ← ih, List.flatMap_cons,
      List.append_assoc]

/-- An unconditional request for a file that is small enough gets its bytes. -/
theorem serveCanonical_of_unconditional {fs : FileSystem} (clock : Clock) {options : StaticOptions}
    {canonical data : Bytes} {mtime : ℤ} {req : Request}
    (hstatus : fs.status canonical = some (.file data mtime true))
    (hsmall : data.length ≤ options.maxFileSize)
    (hnone : req.findHeaderCi (ascii "if-none-match") = none)
    (hsince : req.findHeaderCi (ascii "if-modified-since") = none) :
    serveCanonical fs clock options canonical req =
      some (fileResponse options canonical data (etagOf options data.length mtime)
        (lastModOf clock options mtime)) := by
  obtain ⟨hsize, htime, hread⟩ := FileSystem.file_of_status hstatus
  have hetag : ∀ etag, etagMatches options etag req = false := by
    intro etag
    rw [etagMatches, hnone, Bool.and_false]
  have hdate : notModifiedSince clock options mtime req = false := by
    rw [notModifiedSince, hsince, Bool.and_false]
  simp only [serveCanonical, hsize, if_neg (Nat.not_lt.mpr hsmall), htime, hetag, hdate, hread,
    Bool.false_eq_true, if_false]

namespace AsksFor

variable {fs : FileSystem} {m : StaticMount} {names : List Bytes} {data path : Bytes}
variable {req : Request}

/-- The names on the way to the file are valid ones. -/
theorem validName (h : AsksFor fs m names data path req) : ∀ name ∈ names, ValidName name := by
  obtain ⟨mtime, hentry⟩ := h.regular
  intro name hmem
  exact FileSystem.validName_of_mem (by rw [hentry]; rfl) (List.mem_append_right _ hmem)

theorem isRelative (h : AsksFor fs m names data path req) :
    IsRelative ([slash].intercalate names) :=
  isRelative_intercalate h.below h.validName

/-- The file is found below the directory. -/
theorem locate_eq (h : AsksFor fs m names data path req) :
    m.locate fs ([slash].intercalate names) = some (pathString (m.root ++ names)) := by
  obtain ⟨mtime, hentry⟩ := h.regular
  have hstring : m.directory ++ [slash].intercalate names = pathString (m.root ++ names) := by
    rw [m.directory_eq, directoryString_append h.below]
  have hjoin : joinPath m.directory ([slash].intercalate names) =
      pathString (m.root ++ names) := by
    rw [m.joinPath_directory h.isRelative.head_ne, hstring]
  have hbelow : find m.directory (pathString (m.root ++ names)) = some 0 := by
    rw [← hstring, find_eq_zero_iff]
    exact List.prefix_append _ _
  exact Lundi.locate_eq hjoin hbelow hentry

/-- What the mount of the file answers, when it is the only one. -/
theorem tryServe_eq (h : AsksFor fs m names data path req) (clock : Clock) :
    ∃ res : Response, res.status = 200 ∧ res.body = data ∧
      StaticFileHandler.tryServe ⟨[m]⟩ fs clock path req =
        .ok (if find (ascii "..") ([slash].intercalate names) = none then some res else none) := by
  obtain ⟨mtime, hentry⟩ := h.regular
  have hstatus : fs.status (pathString (m.root ++ names)) = some (.file data mtime true) := by
    rw [FileSystem.status_pathString ⟨_, hentry, rfl⟩, hentry]
  refine ⟨fileResponse m.options (pathString (m.root ++ names)) data
    (etagOf m.options data.length mtime) (lastModOf clock m.options mtime),
    status_fileResponse .., body_fileResponse .., ?_⟩
  rw [StaticFileHandler.tryServe, tryMounts, tryMount, h.path_eq, m.matchesPath_append,
    if_pos rfl, m.fileName_append h.isRelative]
  by_cases hdots : find (ascii "..") ([slash].intercalate names) = none
  · rw [if_neg (not_not.mpr hdots), if_pos hdots]
    simp only [h.locate_eq, serveCanonical_of_unconditional clock hstatus h.small
      h.no_if_none_match h.no_if_modified_since]
  · rw [if_pos hdots, if_neg hdots]
    rfl

end AsksFor

/-! ### Mounting a directory -/

/-- A directory can be mounted by its own path. -/
theorem exists_mount_of_directory {fs : FileSystem} {root : List Bytes}
    (hroot : fs.entry root = some .directory) (urlPrefix : Bytes) (options : StaticOptions) :
    ∃ m, StaticMount.ofDirectory fs urlPrefix (pathString root) options = .ok m ∧
      m.root = root ∧ m.options = options ∧
      m.urlPrefix = if urlPrefix = [] then [] else addTrailingSlash urlPrefix := by
  have hresolved := FileSystem.resolved_of_directory hroot
  have hresolve := FileSystem.resolve_pathString hresolved
  unfold StaticMount.ofDirectory
  split
  next e herror => exact absurd (hresolve.symm.trans herror) (by simp)
  next place hplace =>
    obtain rfl : root = place := Except.ok.inj (hresolve.symm.trans hplace)
    have hdirectory : fs.isDirectory (pathString root) = true := by
      rw [FileSystem.isDirectory, FileSystem.status_pathString hresolved, hroot]
    simp only [hdirectory, if_true]
    exact ⟨_, rfl, rfl, rfl, rfl⟩

/-- The handler after a single call of `mount`. -/
theorem eq_of_mountAll_singleton {c : MountCall} {handler : StaticFileHandler}
    (h : mountAll .empty [c] = .ok handler) :
    ∃ m, StaticMount.ofDirectory c.fs c.urlPrefix c.directory c.options = .ok m ∧
      handler = ⟨[m]⟩ := by
  rw [mountAll, StaticFileHandler.mount] at h
  split at h
  · exact absurd h (by simp)
  next after hafter =>
    split at hafter
    · exact absurd hafter (by simp)
    next m hm =>
      obtain rfl := Except.ok.inj hafter
      exact ⟨m, hm, (Except.ok.inj h).symm⟩

/-- Which files a mount serves: where it is the only one, an unconditional request for a regular
file below its directory is answered with 200 and the bytes of the file, exactly if no name on the
way to the file holds two dots in a row. Names are otherwise arbitrary, with dots, blanks and bytes
of any kind. -/
theorem file_served_iff {c : MountCall} {handler : StaticFileHandler}
    (hmount : mountAll .empty [c] = .ok handler) {m : StaticMount} (hm : m ∈ handler.mounts)
    {fs : FileSystem} {clock : Clock} {names : List Bytes} {data path : Bytes} {req : Request}
    (h : AsksFor fs m names data path req) :
    c.fs.resolve c.directory = .ok m.root ∧
      ((∃ res, handler.tryServe fs clock path req = .ok (some res) ∧ res.status = 200 ∧
          res.body = data) ↔
        ∀ name ∈ names, ¬ ascii ".." <:+: name) := by
  obtain ⟨m', hmake, rfl⟩ := eq_of_mountAll_singleton hmount
  obtain rfl := List.mem_singleton.mp hm
  refine ⟨resolve_of_ofDirectory hmake, ?_⟩
  obtain ⟨res, hstatus, hbody, hserve⟩ := h.tryServe_eq clock
  rw [hserve, ← find_dots_iff]
  constructor
  · rintro ⟨res', hres', -⟩
    by_contra hdots
    rw [if_neg hdots] at hres'
    exact absurd (Except.ok.inj hres') (by simp)
  · intro hdots
    rw [if_pos hdots]
    exact ⟨res, rfl, hstatus, hbody⟩

/-- A site with a single file in `/srv/www`. -/
def siteWith (name : Bytes) (hname : ValidName name) : FileSystem :=
  .single [ascii "srv", ascii "www"] name (ascii "hello") validName_www hname

/-- A mount of the site. -/
def siteMount (name : Bytes) (hname : ValidName name) : MountCall :=
  ⟨siteWith name hname, ascii "/", ascii "/srv/www", {}⟩

/-- The mount is accepted, and the file can be asked for. -/
theorem exists_asksFor_siteWith {name : Bytes} (hname : ValidName name) :
    ∃ handler m, mountAll .empty [siteMount name hname] = .ok handler ∧ m ∈ handler.mounts ∧
      AsksFor (siteWith name hname) m [name] (ascii "hello") (slash :: name) .empty := by
  have hroot : (siteWith name hname).entry [ascii "srv", ascii "www"] = some .directory :=
    FileSystem.entry_single_parent
  obtain ⟨m, hmake, hplace, hoptions, hprefix⟩ := exists_mount_of_directory hroot (ascii "/") {}
  refine ⟨⟨[m]⟩, m, ?_, List.mem_singleton_self m, ?_⟩
  · have hpath : pathString [ascii "srv", ascii "www"] = ascii "/srv/www" := by decide
    rw [hpath] at hmake
    simp only [mountAll, siteMount, StaticFileHandler.mount, hmake]
    rfl
  · refine ⟨by simp, ⟨0, ?_⟩, ?_, ?_, rfl, rfl⟩
    · rw [hplace]
      exact FileSystem.entry_single
    · rw [hoptions]
      decide
    · have hslash : m.urlPrefix = [slash] := hprefix.trans (by decide)
      rw [hslash, List.intercalate_singleton]
      rfl

/-- A name with a blank and two single dots. -/
theorem validName_readme : ValidName (ascii ".read me.txt") := by constructor <;> decide

/-- The file is served. -/
theorem file_served_readme :
    ∃ handler res, mountAll .empty [siteMount _ validName_readme] = .ok handler ∧
      handler.tryServe (siteWith _ validName_readme) sampleClock (ascii "/.read me.txt") .empty =
        .ok (some res) ∧ res.status = 200 ∧ res.body = ascii "hello" := by
  obtain ⟨handler, m, hmount, hm, h⟩ := exists_asksFor_siteWith validName_readme
  have hdots : ∀ name ∈ [ascii ".read me.txt"], ¬ ascii ".." <:+: name := by decide
  obtain ⟨res, hserve⟩ := (file_served_iff hmount hm h).2.mpr hdots
  exact ⟨handler, res, hmount, hserve⟩

/-- A name with two dots in a row. -/
theorem validName_dotted : ValidName (ascii "a..b") := by constructor <;> decide

/-- Not every file is served: one whose name holds two dots in a row is not, although it is not a
way out of the directory. -/
theorem not_file_served_dotted :
    ¬ ∀ (c : MountCall) (handler : StaticFileHandler) (m : StaticMount) (fs : FileSystem)
      (clock : Clock) (names : List Bytes) (data path : Bytes) (req : Request),
      mountAll .empty [c] = .ok handler → m ∈ handler.mounts →
      AsksFor fs m names data path req →
      ∃ res, handler.tryServe fs clock path req = .ok (some res) ∧ res.status = 200 ∧
        res.body = data := by
  intro hall
  obtain ⟨handler, m, hmount, hm, h⟩ := exists_asksFor_siteWith validName_dotted
  obtain ⟨res, hserved, -⟩ := hall _ handler m _ sampleClock _ _ _ _ hmount hm h
  obtain ⟨m', -, rfl⟩ := eq_of_mountAll_singleton hmount
  obtain rfl := List.mem_singleton.mp hm
  obtain ⟨res', -, -, hserve⟩ := h.tryServe_eq sampleClock
  have hdots : find (ascii "..") ([slash].intercalate [ascii "a..b"]) = some 1 := by decide
  rw [hserve, hdots, if_neg (by simp)] at hserved
  exact absurd (Except.ok.inj hserved) (by simp)

end Lundi
