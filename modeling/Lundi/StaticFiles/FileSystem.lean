import Lundi.Core.Bytes
import Mathlib.Data.Int.Notation
import Mathlib.Data.List.Induction

/-!
# File systems

The part of POSIX path resolution and of `std::filesystem` that static serving relies on. A file
system is a tree of directories, files and symbolic links, addressed by the names on the way from
the root, with a working directory. `resolve` follows a path name by name, through links, dots
and repeated slashes; `canonical` writes the place it ends at as a string.

* `resolve_spec`: a path resolves to an existing place that is not a link;
* `resolve_pathString`: a place that is not a link is what its own string resolves to;
* `resolve_slash_cons`, `isRegularFile_of_stays`: what slashes in front of and behind a path do;
* `resolve_eq_steps`, `eq_of_walkNames_eq_ok`: without links, a path leads to the place it spells,
  and only there.
-/

namespace Lundi

/-- What stands at a place of the tree. -/
inductive Entry
  /-- A regular file: its bytes, its modification time in nanoseconds, whether it can be opened. -/
  | file (data : Bytes) (mtime : ℤ) (readable : Bool)
  | directory
  | symlink (target : Bytes)
  /-- A socket, a device and so on. -/
  | special

/-- The entry is a symbolic link. -/
def Entry.isSymlink : Entry → Bool
  | .symlink _ => true
  | _ => false

/-- A name that a directory can hold. -/
structure ValidName (c : Bytes) : Prop where
  ne_nil : c ≠ []
  slash_notMem : slash ∉ c
  ne_dot : c ≠ ascii "."
  ne_dot_dot : c ≠ ascii ".."

/-- A file system; a place is the list of names that leads to it from the root. -/
structure FileSystem where
  /-- What stands at a place. -/
  entry : List Bytes → Option Entry
  /-- The working directory. -/
  cwd : List Bytes
  /-- The root is a directory. -/
  entry_nil : entry [] = some .directory
  /-- Only directories hold entries. -/
  entry_parent : ∀ place name, (entry (place ++ [name])).isSome → entry place = some .directory
  /-- The names in a directory are valid. -/
  validName : ∀ place name, (entry (place ++ [name])).isSome → ValidName name
  /-- The working directory is a directory. -/
  entry_cwd : entry cwd = some .directory

/-- The names of a path; repeated and trailing slashes leave empty ones. -/
def components (path : Bytes) : List Bytes := path.splitOn slash

theorem components_ne_nil (path : Bytes) : components path ≠ [] := List.splitOn_ne_nil slash path

theorem components_slash_cons (path : Bytes) : components (slash :: path) = [] :: components path :=
  List.splitOn_append_cons_self [] path

/-- A name that leads nowhere. -/
def Stays (name : Bytes) : Prop := name = [] ∨ name = ascii "."

instance : DecidablePred Stays := fun _ => inferInstanceAs (Decidable (_ ∨ _))

/-- The names that lead on. -/
def steps (names : List Bytes) : List Bytes := names.filter fun name => ¬ Stays name

theorem steps_cons_of_stays {name : Bytes} (h : Stays name) (names : List Bytes) :
    steps (name :: names) = steps names := by
  simp [steps, h]

theorem steps_cons_of_not_stays {name : Bytes} (h : ¬ Stays name) (names : List Bytes) :
    steps (name :: names) = name :: steps names := by
  simp [steps, h]

theorem ValidName.not_stays {name : Bytes} (h : ValidName name) : ¬ Stays name :=
  not_or.mpr ⟨h.ne_nil, h.ne_dot⟩

theorem steps_eq_self {names : List Bytes} (h : ∀ name ∈ names, ValidName name) :
    steps names = names :=
  List.filter_eq_self.mpr fun name hname => by simpa using (h name hname).not_stays

theorem steps_ne_nil {names : List Bytes} (hne : names ≠ [])
    (hlast : ∀ c ∈ names.getLast?, ¬ Stays c) : steps names ≠ [] := by
  have hmem : names.getLast hne ∈ steps names := by
    rw [steps, List.mem_filter]
    exact ⟨List.getLast_mem hne, by simpa using hlast _ (List.getLast?_eq_some_getLast hne)⟩
  exact List.ne_nil_of_mem hmem

/-- `path::is_absolute`. -/
def isAbsolute (path : Bytes) : Bool := path.head? == some slash

/-- `path::operator/`: an absolute right side replaces the left side. -/
def joinPath (left right : Bytes) : Bytes :=
  if isAbsolute right then right
  else if left = [] ∨ left.getLast? = some slash then left ++ right
  else left ++ slash :: right

/-- The absolute path of a place. -/
def pathString (place : List Bytes) : Bytes := slash :: [slash].intercalate place

/-- The number of links the resolution of one path may follow. -/
def maxSymlinks : ℕ := 40

/-- Why a path leads nowhere. -/
inductive FsError
  | noSuchFile
  | notADirectory
  | tooManyLinks
  deriving DecidableEq

/-- `std::error_code::message`. -/
def FsError.message : FsError → Bytes
  | .noSuchFile => ascii "No such file or directory"
  | .notADirectory => ascii "Not a directory"
  | .tooManyLinks => ascii "Too many levels of symbolic links"

namespace FileSystem

variable (fs : FileSystem)

/-- Follow names from the directory `cur`; `follow` goes on behind a link. -/
def walkNames (follow : List Bytes → List Bytes → Except FsError (List Bytes)) :
    List Bytes → List Bytes → Except FsError (List Bytes)
  | cur, [] => .ok cur
  | cur, name :: rest =>
    if name = [] ∨ name = ascii "." then walkNames follow cur rest
    -- The parent of the root is the root.
    else if name = ascii ".." then walkNames follow cur.dropLast rest
    else
      match fs.entry (cur ++ [name]) with
      | none => .error .noSuchFile
      | some .directory => walkNames follow (cur ++ [name]) rest
      | some (.symlink target) =>
        follow (if isAbsolute target then [] else cur) (components target ++ rest)
      -- Nothing can be looked up in a file, not even a trailing slash.
      | some _ => if rest = [] then .ok (cur ++ [name]) else .error .notADirectory

/-- Follow names from a directory through at most `budget` links. -/
def walk : ℕ → List Bytes → List Bytes → Except FsError (List Bytes)
  | 0 => fs.walkNames fun _ _ => .error .tooManyLinks
  | budget + 1 => fs.walkNames (walk budget)

/-- The place a path leads to. -/
def resolve (path : Bytes) : Except FsError (List Bytes) :=
  if path = [] then .error .noSuchFile
  else fs.walk maxSymlinks (if isAbsolute path then [] else fs.cwd) (components path)

/-- The entry at the place a path leads to. -/
def status (path : Bytes) : Option Entry :=
  match fs.resolve path with
  | .ok place => fs.entry place
  | .error _ => none

/-- `std::filesystem::canonical`, with the error code in place of the output parameter. -/
def canonical (path : Bytes) : Except FsError Bytes := (fs.resolve path).map pathString

/-- `std::filesystem::is_regular_file`. -/
def isRegularFile (path : Bytes) : Bool :=
  match fs.status path with
  | some (.file ..) => true
  | _ => false

/-- `std::filesystem::is_directory`. -/
def isDirectory (path : Bytes) : Bool :=
  match fs.status path with
  | some .directory => true
  | _ => false

/-- `std::filesystem::file_size`; nothing stands for a set error code. -/
def fileSize (path : Bytes) : Option ℕ :=
  match fs.status path with
  | some (.file data _ _) => some data.length
  | _ => none

/-- `std::filesystem::last_write_time`. -/
def lastWriteTime (path : Bytes) : Option ℤ :=
  match fs.status path with
  | some (.file _ mtime _) => some mtime
  | _ => none

/-- The bytes an `std::ifstream` reads, when it can be opened. -/
def read (path : Bytes) : Option Bytes :=
  match fs.status path with
  | some (.file data _ true) => some data
  | _ => none

/-- A place that exists and is not a link. -/
def Resolved (place : List Bytes) : Prop :=
  ∃ e, fs.entry place = some e ∧ e.isSymlink = false

variable {fs}

theorem resolved_of_directory {place : List Bytes} (h : fs.entry place = some .directory) :
    fs.Resolved place := ⟨_, h, rfl⟩

/-- The parent of a directory is a directory. -/
theorem entry_dropLast {place : List Bytes} (h : fs.entry place = some .directory) :
    fs.entry place.dropLast = some .directory := by
  rcases List.eq_nil_or_concat' place with rfl | ⟨parent, name, rfl⟩
  · exact fs.entry_nil
  · rw [List.dropLast_concat]
    exact fs.entry_parent parent name (by rw [h]; rfl)

/-- Names followed from a directory lead to a place that exists and is not a link. -/
theorem walkNames_spec {follow : List Bytes → List Bytes → Except FsError (List Bytes)}
    (hfollow : ∀ cur rest place, fs.entry cur = some .directory →
      follow cur rest = .ok place → fs.Resolved place)
    {cur rest place : List Bytes} (hcur : fs.entry cur = some .directory)
    (h : fs.walkNames follow cur rest = .ok place) : fs.Resolved place := by
  induction rest generalizing cur with
  | nil =>
    obtain rfl : cur = place := by simpa [walkNames] using h
    exact resolved_of_directory hcur
  | cons name rest ih =>
    rw [walkNames] at h
    split at h
    · exact ih hcur h
    · split at h
      · exact ih (entry_dropLast hcur) h
      · split at h
        · exact absurd h (by simp)
        next hdir => exact ih hdir h
        next target hlink =>
          -- A link is followed from the root or from the directory that holds it.
          refine hfollow _ _ _ ?_ h
          split
          · exact fs.entry_nil
          · exact hcur
        next e hdir hlink hentry =>
          -- A file or a special entry ends the path.
          split at h
          · obtain rfl := Except.ok.inj h
            refine ⟨e, hentry, ?_⟩
            cases e with
            | symlink target => exact absurd rfl (hlink target)
            | _ => rfl
          · exact absurd h (by simp)

theorem walk_spec {budget : ℕ} {cur rest place : List Bytes}
    (hcur : fs.entry cur = some .directory) (h : fs.walk budget cur rest = .ok place) :
    fs.Resolved place := by
  induction budget generalizing cur rest place with
  | zero => exact walkNames_spec (fun _ _ _ _ hnone => by simp at hnone) hcur h
  | succ budget ih => exact walkNames_spec (fun _ _ _ hdir hwalk => ih hdir hwalk) hcur h

/-- A path resolves to an existing place that is not a link. -/
theorem resolve_spec {path : Bytes} {place : List Bytes} (h : fs.resolve path = .ok place) :
    fs.Resolved place := by
  unfold resolve at h
  split at h
  · exact absurd h (by simp)
  · refine walk_spec ?_ h
    split
    · exact fs.entry_nil
    · exact fs.entry_cwd

/-- Every proper initial part of an existing place is a directory. -/
theorem entry_of_append {front back : List Bytes} (hback : back ≠ [])
    (h : (fs.entry (front ++ back)).isSome) : fs.entry front = some .directory := by
  induction back using List.reverseRecOn with
  | nil => exact absurd rfl hback
  | append_singleton back name ih =>
    rw [← List.append_assoc] at h
    have hparent := fs.entry_parent _ _ h
    rcases back with _ | ⟨b, bs⟩
    · simpa using hparent
    · exact ih (by simp) (by rw [hparent]; rfl)

/-- All names on the way to an existing place are valid. -/
theorem validName_of_mem {place : List Bytes} (h : (fs.entry place).isSome) {name : Bytes}
    (hmem : name ∈ place) : ValidName name := by
  obtain ⟨front, back, rfl⟩ := List.append_of_mem hmem
  rcases eq_or_ne back [] with rfl | hback
  · exact fs.validName front name h
  · have hdir : fs.entry (front ++ [name]) = some .directory :=
      entry_of_append hback (by simpa using h)
    exact fs.validName front name (by rw [hdir]; rfl)

theorem validName_of_resolve {path : Bytes} {place : List Bytes}
    (h : fs.resolve path = .ok place) : ∀ name ∈ place, ValidName name := by
  obtain ⟨e, he, -⟩ := resolve_spec h
  exact fun name hmem => validName_of_mem (by rw [he]; rfl) hmem

theorem walkNames_cons_of_stays (follow : List Bytes → List Bytes → Except FsError (List Bytes))
    {name : Bytes} (h : Stays name) {cur rest : List Bytes} :
    fs.walkNames follow cur (name :: rest) = fs.walkNames follow cur rest := by
  rw [walkNames]
  exact if_pos h

/-- Names without links on the way are followed literally. -/
theorem walkNames_literal (follow : List Bytes → List Bytes → Except FsError (List Bytes))
    {cur rest : List Bytes} (hlast : ∀ c ∈ rest.getLast?, ¬ Stays c)
    (h : fs.Resolved (cur ++ steps rest)) :
    fs.walkNames follow cur rest = .ok (cur ++ steps rest) := by
  induction rest generalizing cur with
  | nil => simp [walkNames, steps]
  | cons name rest ih =>
    have hrestlast : ∀ c ∈ rest.getLast?, ¬ Stays c := by
      intro c hc
      exact hlast c (List.mem_getLast?_cons hc)
    by_cases hstays : Stays name
    · rw [steps_cons_of_stays hstays] at h ⊢
      rw [walkNames_cons_of_stays follow hstays]
      exact ih hrestlast h
    · rw [steps_cons_of_not_stays hstays] at h ⊢
      obtain ⟨e, he, hlink⟩ := h
      have hvalid : ValidName name := validName_of_mem (by rw [he]; rfl) (by simp)
      have hassoc : cur ++ name :: steps rest = cur ++ [name] ++ steps rest := by simp
      have hname : ¬ (name = [] ∨ name = ascii ".") := hstays
      rw [walkNames, if_neg hname, if_neg hvalid.ne_dot_dot]
      -- Only the last name can be something other than a directory.
      rcases eq_or_ne rest [] with rfl | hrest
      · have hentry : fs.entry (cur ++ [name]) = some e := he
        rw [hentry]
        cases e with
        | symlink target => exact absurd hlink (by simp [Entry.isSymlink])
        | directory => simp [walkNames, steps]
        | _ => simp [steps]
      · have hdir : fs.entry (cur ++ [name]) = some .directory :=
          entry_of_append (steps_ne_nil hrest hrestlast) (by rw [← hassoc, he]; rfl)
        rw [hdir, hassoc]
        exact ih hrestlast ⟨e, by rw [← hassoc]; exact he, hlink⟩

theorem walk_literal (budget : ℕ) {cur rest : List Bytes}
    (hlast : ∀ c ∈ rest.getLast?, ¬ Stays c) (h : fs.Resolved (cur ++ steps rest)) :
    fs.walk budget cur rest = .ok (cur ++ steps rest) := by
  cases budget <;> exact walkNames_literal _ hlast h

/-- The names of the path of a place: an empty one for the leading slash, then the place. -/
theorem components_pathString {place : List Bytes} (hplace : place ≠ [])
    (hvalid : ∀ c ∈ place, slash ∉ c) : components (pathString place) = [] :: place := by
  have hsplit : ([slash].intercalate place).splitOn slash = place :=
    List.splitOn_intercalate slash hvalid hplace
  rw [pathString, components_slash_cons, components, hsplit]

/-- A place that is not a link is what its own path resolves to. -/
theorem resolve_pathString {place : List Bytes} (h : fs.Resolved place) :
    fs.resolve (pathString place) = .ok place := by
  have habs : isAbsolute (pathString place) = true := by simp [isAbsolute, pathString]
  have hne : pathString place ≠ [] := by simp [pathString]
  rw [resolve, if_neg hne, habs, if_pos rfl]
  rcases eq_or_ne place [] with rfl | hplace
  · rfl
  · obtain ⟨e, he, -⟩ := id h
    have hvalid : ∀ c ∈ place, slash ∉ c :=
      fun c hc => (validName_of_mem (by rw [he]; rfl) hc).slash_notMem
    rw [components_pathString hplace hvalid]
    -- The empty name in front of the leading slash stays at the root.
    have hsteps : steps ([] :: place) = place := by
      rw [steps_cons_of_stays (Or.inl rfl)]
      exact steps_eq_self fun c hc => validName_of_mem (by rw [he]; rfl) hc
    have hlast : ∀ c ∈ ([] :: place).getLast?, ¬ Stays c := by
      intro c hc
      rw [List.getLast?_cons_of_ne_nil hplace] at hc
      exact (validName_of_mem (by rw [he]; rfl) (List.mem_of_getLast? hc)).not_stays
    have hwalk := walk_literal maxSymlinks hlast (show fs.Resolved ([] ++ steps ([] :: place)) by
      rw [hsteps]
      exact h)
    rw [hwalk, hsteps]
    rfl

/-- A slash in front of an absolute path changes nothing. -/
theorem resolve_slash_cons {path : Bytes} (h : isAbsolute path = true) :
    fs.resolve (slash :: path) = fs.resolve path := by
  have hne : path ≠ [] := by
    rintro rfl
    simp [isAbsolute] at h
  have habs : isAbsolute (slash :: path) = true := by simp [isAbsolute]
  rw [resolve, resolve, if_neg (List.cons_ne_nil _ _), if_neg hne, components_slash_cons, h, habs]
  exact walkNames_cons_of_stays _ (Or.inl rfl)

/-- Names that end in one that leads nowhere end at a directory. -/
theorem entry_of_walkNames_stays {follow : List Bytes → List Bytes → Except FsError (List Bytes)}
    (hfollow : ∀ cur rest place, fs.entry cur = some .directory →
      (∀ c ∈ rest.getLast?, Stays c) → follow cur rest = .ok place →
      fs.entry place = some .directory)
    {cur rest place : List Bytes} (hcur : fs.entry cur = some .directory)
    (hstays : ∀ c ∈ rest.getLast?, Stays c) (h : fs.walkNames follow cur rest = .ok place) :
    fs.entry place = some .directory := by
  induction rest generalizing cur with
  | nil =>
    obtain rfl : cur = place := by simpa [walkNames] using h
    exact hcur
  | cons name rest ih =>
    have hreststays : ∀ c ∈ rest.getLast?, Stays c := fun c hc =>
      hstays c (List.mem_getLast?_cons hc)
    rw [walkNames] at h
    split at h
    · exact ih hcur hreststays h
    next hname =>
      -- A name that leads on is not the last one.
      have hrest : rest ≠ [] := by
        rintro rfl
        exact hname (hstays name rfl)
      split at h
      · exact ih (entry_dropLast hcur) hreststays h
      · split at h
        · exact absurd h (by simp)
        next hdir => exact ih hdir hreststays h
        next target hlink =>
          refine hfollow _ _ _ ?_ ?_ h
          · split
            · exact fs.entry_nil
            · exact hcur
          · rwa [List.getLast?_append_of_ne_nil _ hrest]
        · exact absurd h (by simp)

theorem entry_of_walk_stays {budget : ℕ} {cur rest place : List Bytes}
    (hcur : fs.entry cur = some .directory) (hstays : ∀ c ∈ rest.getLast?, Stays c)
    (h : fs.walk budget cur rest = .ok place) : fs.entry place = some .directory := by
  induction budget generalizing cur rest place with
  | zero => exact entry_of_walkNames_stays (fun _ _ _ _ _ hnone => by simp at hnone) hcur hstays h
  | succ budget ih =>
    exact entry_of_walkNames_stays (fun _ _ _ hdir hlast hwalk => ih hdir hlast hwalk) hcur hstays h

/-- A path that ends in a slash or a dot does not lead to a file. -/
theorem isRegularFile_of_stays {path : Bytes} (hstays : ∀ c ∈ (components path).getLast?, Stays c) :
    fs.isRegularFile path = false := by
  rw [isRegularFile, status]
  cases hresolve : fs.resolve path with
  | error e => rfl
  | ok place =>
    rw [resolve] at hresolve
    split at hresolve
    · exact absurd hresolve (by simp)
    · have hdir : fs.entry place = some .directory := by
        refine entry_of_walk_stays ?_ hstays hresolve
        split
        · exact fs.entry_nil
        · exact fs.entry_cwd
      simp only [hdir]

/-- An absolute path without links leads to the place it spells. -/
theorem resolve_eq_steps {path : Bytes} (habs : isAbsolute path = true)
    (hlast : ∀ c ∈ (components path).getLast?, ¬ Stays c)
    (h : fs.Resolved (steps (components path))) :
    fs.resolve path = .ok (steps (components path)) := by
  have hne : path ≠ [] := by
    rintro rfl
    simp [isAbsolute] at habs
  rw [resolve, if_neg hne, habs, if_pos rfl]
  exact walk_literal maxSymlinks hlast (show fs.Resolved ([] ++ _) from h)

/-- Where there are no links, names that do not lead back spell the place they lead to. -/
theorem eq_of_walkNames_eq_ok (hlinks : ∀ place target, fs.entry place ≠ some (.symlink target))
    {follow : List Bytes → List Bytes → Except FsError (List Bytes)} {cur rest place : List Bytes}
    (hback : ascii ".." ∉ rest) (h : fs.walkNames follow cur rest = .ok place) :
    place = cur ++ steps rest := by
  induction rest generalizing cur with
  | nil => simpa [walkNames, steps, eq_comm] using h
  | cons name rest ih =>
    obtain ⟨hname, hrest⟩ := not_or.mp (List.mem_cons.not.mp hback)
    by_cases hstays : Stays name
    · rw [walkNames_cons_of_stays follow hstays] at h
      rw [steps_cons_of_stays hstays, ih hrest h]
    · have hon : ¬ (name = [] ∨ name = ascii ".") := hstays
      rw [walkNames, if_neg hon, if_neg (Ne.symm hname)] at h
      rw [steps_cons_of_not_stays hstays]
      split at h
      · exact absurd h (by simp)
      · simp [ih hrest h]
      next target hlink => exact absurd hlink (hlinks _ target)
      · split at h
        next hnil =>
          obtain rfl := Except.ok.inj h
          simp [hnil, steps]
        · exact absurd h (by simp)

/-- The canonical path of a path tells the place it leads to. -/
theorem resolve_of_canonical {path : Bytes} {place : List Bytes} (hplace : fs.Resolved place)
    (h : fs.canonical path = .ok (pathString place)) : fs.resolve path = .ok place := by
  rw [canonical] at h
  cases hresolve : fs.resolve path with
  | error e => simp [hresolve, Except.map] at h
  | ok place' =>
    rw [hresolve] at h
    have hstring : pathString place' = pathString place := Except.ok.inj h
    have hback := resolve_pathString (resolve_spec hresolve)
    rw [hstring, resolve_pathString hplace] at hback
    exact hback.symm

/-- What the path of a resolved place reads is what stands there. -/
theorem status_pathString {place : List Bytes} (h : fs.Resolved place) :
    fs.status (pathString place) = fs.entry place := by
  rw [status, resolve_pathString h]

/-- What the library functions say of a file that can be read. -/
theorem file_of_status {path data : Bytes} {mtime : ℤ}
    (h : fs.status path = some (.file data mtime true)) :
    fs.fileSize path = some data.length ∧ fs.lastWriteTime path = some mtime ∧
      fs.read path = some data := by
  refine ⟨?_, ?_, ?_⟩
  · rw [fileSize, h]
  · rw [lastWriteTime, h]
  · rw [read, h]

/-- A file system with a single file. -/
def single (parent : List Bytes) (name data : Bytes) (hparent : ∀ c ∈ parent, ValidName c)
    (hname : ValidName name) : FileSystem where
  entry place :=
    if place <+: parent then some .directory
    else if place = parent ++ [name] then some (.file data 0 true)
    else none
  cwd := []
  entry_nil := if_pos List.nil_prefix
  entry_parent place c h := by
    split at h
    next hpre => exact if_pos ((List.prefix_append place [c]).trans hpre)
    next =>
      split at h
      next heq =>
        obtain ⟨rfl, -⟩ := List.append_inj' heq rfl
        exact if_pos List.prefix_rfl
      next => exact absurd h (by simp)
  validName place c h := by
    split at h
    next hpre => exact hparent c (hpre.subset (by simp))
    next =>
      split at h
      next heq =>
        obtain ⟨-, hc⟩ := List.append_inj' heq rfl
        obtain rfl : c = name := by simpa using hc
        exact hname
      next => exact absurd h (by simp)
  entry_cwd := if_pos List.nil_prefix

section Single

variable {parent : List Bytes} {name data : Bytes} {hparent : ∀ c ∈ parent, ValidName c}
variable {hname : ValidName name}

theorem entry_single_parent :
    (single parent name data hparent hname).entry parent = some .directory :=
  if_pos List.prefix_rfl

theorem entry_single :
    (single parent name data hparent hname).entry (parent ++ [name]) =
      some (.file data 0 true) := by
  have hbelow : ¬ parent ++ [name] <+: parent := fun h => absurd h.length_le (by simp)
  exact (if_neg hbelow).trans (if_pos rfl)

/-- The path of a regular file spells its place, which is the only one there is. -/
theorem steps_of_isRegularFile_single {path : Bytes} (habs : isAbsolute path = true)
    (hback : ascii ".." ∉ components path)
    (h : (single parent name data hparent hname).isRegularFile path = true) :
    steps (components path) = parent ++ [name] := by
  have hlinks : ∀ place target,
      (single parent name data hparent hname).entry place ≠ some (.symlink target) := by
    intro place target
    simp only [single]
    split
    · simp
    · split <;> simp
  have hne : path ≠ [] := by
    rintro rfl
    simp [isAbsolute] at habs
  rw [isRegularFile, status] at h
  cases hresolve : (single parent name data hparent hname).resolve path with
  | error e => simp [hresolve] at h
  | ok place =>
    have hplace : place = steps (components path) := by
      rw [resolve, if_neg hne, habs, if_pos rfl] at hresolve
      exact eq_of_walkNames_eq_ok hlinks hback hresolve
    rw [hresolve, hplace] at h
    simp only [single] at h
    by_cases hbelow : steps (components path) <+: parent
    · simp [hbelow] at h
    · by_contra hother
      simp [hbelow, hother] at h

end Single

/-- The file system after a file has been replaced; what is not a file stays. -/
def replaceFile (fs : FileSystem) (place : List Bytes) (data : Bytes) (mtime : ℤ) :
    FileSystem where
  entry p :=
    match fs.entry p with
    | some (.file d t r) => some (if p = place then .file data mtime true else .file d t r)
    | e => e
  cwd := fs.cwd
  entry_nil := by rw [fs.entry_nil]
  entry_parent p name h := by
    have hsome : (fs.entry (p ++ [name])).isSome := by
      split at h
      next hfile => simp [hfile]
      next => exact h
    rw [fs.entry_parent p name hsome]
  validName p name h := by
    apply fs.validName p name
    split at h
    next hfile => simp [hfile]
    next => exact h
  entry_cwd := by rw [fs.entry_cwd]

/-- A file system that holds nothing but its root. -/
def bare : FileSystem where
  entry place := if place = [] then some .directory else none
  cwd := []
  entry_nil := if_pos rfl
  entry_parent place name h := absurd h (by simp)
  validName place name h := absurd h (by simp)
  entry_cwd := if_pos rfl

/-- It has no regular files. -/
theorem isRegularFile_bare (path : Bytes) : bare.isRegularFile path = false := by
  rw [isRegularFile, status]
  cases bare.resolve path with
  | error e => rfl
  | ok place =>
    by_cases hplace : place = []
    · simp [bare, hplace]
    · simp [bare, hplace]

end FileSystem

end Lundi
