import Lundi.Lib.Pieces
import Lundi.StaticFiles.Completeness
import Lundi.StaticFiles.Totality

/-!
# The empty path

The empty path is the prefix `/` without its slash. No mount throws for it, but it is not always
answered like the path `/`. A mount with the prefix `//` throws for the latter. A mount with the
empty prefix completes both with its index, and one leading slash is erased afterwards: behind the
empty path this is a slash of the index itself. An index such as `/x` is then looked for below the
directory, and behind the path `/` as an absolute path.

* `tryMount_nil_eq`: all other mounts answer the two paths alike;
* `total_nil`, `alikeAtRoot_of_total_nil`: which lookups of the empty path are total;
* `static_lookup_total_iff`: when static lookup is total.
-/

namespace Lundi

open Search Pieces

namespace StaticMount

/-- The index is a slash followed by `rest`, and the mount looks for it at two places: below the
directory for the empty path, below the root for the path `/`. These are one place if the directory
is the root or `rest` is an absolute path itself, and no file is found at either if `rest` holds
two dots in a row or ends in a slash or a dot. -/
structure TellsIndex (m : StaticMount) (rest : Bytes) : Prop where
  urlPrefix_eq : m.urlPrefix = []
  index_eq : m.options.index = slash :: rest
  root_ne : m.root ≠ []
  relative : rest.head? ≠ some slash
  no_dots : find (ascii "..") rest = none
  last : ∀ c ∈ (components rest).getLast?, ¬ Stays c

/-- The mount tells the empty path from the path of a single slash. -/
def TellsRoot (m : StaticMount) : Prop :=
  m.urlPrefix = [slash, slash] ∨ ∃ rest, m.TellsIndex rest

/-- The place a mount looks for its index at, for the empty path. -/
def indexPlace (m : StaticMount) (rest : Bytes) : List Bytes := m.root ++ steps (components rest)

/-- The mount looks for a file at the place, when it is asked for the path. -/
def Seeks (m : StaticMount) (reqPath : Bytes) (place : List Bytes) : Prop :=
  m.matchesPath reqPath = true ∧
    ∃ rel, m.fileName reqPath = .ok (some rel) ∧
      steps (components (joinPath m.directory rel)) = place

end StaticMount

/-- No mount is asked for what the prefix `/` stands for, or none tells the empty path from it. -/
def StaticFileHandler.AlikeAtRoot (h : StaticFileHandler) : Prop :=
  (∀ m ∈ h.mounts, m.urlPrefix ≠ [slash]) ∨ ∀ m ∈ h.mounts, ¬ m.TellsRoot

/-- No mount throws for the path `/`, and every index that is looked for below a directory for the
empty path, but elsewhere for the path `/`, is looked for below that directory by another mount for
the path `/` too. -/
def StaticFileHandler.SharesIndexes (h : StaticFileHandler) : Prop :=
  (∀ m ∈ h.mounts, m.urlPrefix ≠ [slash, slash]) ∧
    ∀ m ∈ h.mounts, ∀ rest, m.TellsIndex rest →
      ∃ m' ∈ h.mounts, m' ≠ m ∧ m'.Seeks [slash] (m.indexPlace rest)

variable {fs : FileSystem} {clock : Clock} {req : Request} {m : StaticMount} {rest : Bytes}

/-! ### Mounts that answer both paths alike -/

/-- The names of a path below a directory. -/
theorem components_directoryString_append {root : List Bytes}
    (hroot : ∀ name ∈ root, slash ∉ name) (rel : Bytes) :
    components (directoryString root ++ rel) = [] :: (root ++ components rel) := by
  have hnames : components (root.flatMap (fun name => name ++ [slash]) ++ rel) =
      root ++ components rel := by
    induction root with
    | nil => rfl
    | cons name root ih =>
      obtain ⟨hname, hnames⟩ := List.forall_mem_cons.mp hroot
      have hcat : (name :: root).flatMap (fun name => name ++ [slash]) ++ rel =
          name ++ slash :: (root.flatMap (fun name => name ++ [slash]) ++ rel) := by simp
      rw [hcat, components, List.splitOn_append_cons_self, List.splitOn_eq_singleton hname,
        List.singleton_append]
      exact congrArg _ (ih hnames)
  rw [directoryString, List.cons_append, components_slash_cons, hnames]

theorem components_directory_append (m : StaticMount) (rel : Bytes) :
    components (m.directory ++ rel) = [] :: (m.root ++ components rel) := by
  rw [m.directory_eq]
  exact components_directoryString_append
    (fun name hmem => (m.validName name hmem).slash_notMem) rel

/-- Two paths that lead to one place are located alike. -/
theorem locate_congr {rel rel' : Bytes}
    (h : fs.resolve (joinPath m.directory rel) = fs.resolve (joinPath m.directory rel')) :
    m.locate fs rel = m.locate fs rel' := by
  have hregular : fs.isRegularFile (joinPath m.directory rel) =
      fs.isRegularFile (joinPath m.directory rel') := by
    rw [FileSystem.isRegularFile, FileSystem.isRegularFile, FileSystem.status, FileSystem.status, h]
  have hcanonical : fs.canonical (joinPath m.directory rel) =
      fs.canonical (joinPath m.directory rel') := by
    rw [FileSystem.canonical, FileSystem.canonical, h]
  rw [StaticMount.locate, StaticMount.locate, hregular, hcanonical]

theorem locate_eq_none {rel : Bytes}
    (h : ∀ c ∈ (components (joinPath m.directory rel)).getLast?, Stays c) :
    m.locate fs rel = none := by
  simp [StaticMount.locate, FileSystem.isRegularFile_of_stays h]

theorem find_dots_slash_cons : find (ascii "..") (slash :: rest) = none ↔
    find (ascii "..") rest = none := by
  have hslash : slash ∉ ascii ".." := by decide
  have hnil : ¬ ascii ".." <:+: [] := by decide
  rw [find_eq_none_iff_not_isInfix, find_eq_none_iff_not_isInfix]
  have hcut := infix_append_cons_iff (a := []) (b := rest) hslash
  rw [List.nil_append] at hcut
  simp [hcut, hnil]

theorem joinPath_slash_cons (directory rel : Bytes) :
    joinPath directory (slash :: rel) = slash :: rel := by
  simp [joinPath, isAbsolute]

/-- For the empty path the slash of the index is the one that is erased. -/
theorem fileName_nil (hempty : m.urlPrefix = []) (hindex : m.options.index = slash :: rest) :
    m.fileName [] = .ok (if find (ascii "..") rest ≠ none then none else some rest) := by
  simp [StaticMount.fileName, StaticMount.relativePath, hempty, StaticMount.completeIndex, hindex,
    StaticMount.eraseLeadingSlash]

/-- For the path `/` it is the slash of the path. -/
theorem fileName_slash (hempty : m.urlPrefix = []) (hindex : m.options.index = slash :: rest) :
    m.fileName [slash] =
      .ok (if find (ascii "..") rest ≠ none then none else some (slash :: rest)) := by
  simp [StaticMount.fileName, StaticMount.relativePath, hempty, StaticMount.completeIndex, hindex,
    StaticMount.eraseLeadingSlash, find_dots_slash_cons]

/-- The slash in front of the index makes no difference. -/
theorem locate_slash_cons (hempty : m.urlPrefix = []) (hindex : m.options.index = slash :: rest)
    (hdots : find (ascii "..") rest = none) (h : ¬ m.TellsIndex rest) :
    m.locate fs rest = m.locate fs (slash :: rest) := by
  have habs := joinPath_slash_cons m.directory rest
  by_cases hhead : rest.head? = some slash
  · -- Two slashes in front of a path are one.
    have hrest : isAbsolute rest = true := by simp [isAbsolute, hhead]
    have hjoin : joinPath m.directory rest = rest := by rw [joinPath, if_pos hrest]
    refine locate_congr ?_
    rw [habs, hjoin, FileSystem.resolve_slash_cons hrest]
  · have hjoin := m.joinPath_directory hhead
    by_cases hroot : m.root = []
    · -- Below the root an index is the absolute path.
      refine locate_congr ?_
      rw [habs, hjoin, m.directory_eq, hroot]
      rfl
    · -- What is left of the condition is that the name of a file is missing.
      have hstays : ∃ c ∈ (components rest).getLast?, Stays c := by
        by_contra hlast
        push Not at hlast
        exact h ⟨hempty, hindex, hroot, hhead, hdots, hlast⟩
      obtain ⟨c, hc, hstays⟩ := hstays
      have hne := components_ne_nil rest
      rw [locate_eq_none, locate_eq_none]
      · rw [habs]
        intro c' hc'
        rw [components_slash_cons, List.getLast?_cons_of_ne_nil hne] at hc'
        exact Option.mem_unique hc hc' ▸ hstays
      · rw [hjoin, components_directory_append]
        intro c' hc'
        rw [← List.cons_append, List.getLast?_append_of_ne_nil _ hne] at hc'
        exact Option.mem_unique hc hc' ▸ hstays

/-- A mount with the empty prefix that does not look for its index at two places. -/
theorem tryMount_nil_eq_of_urlPrefix_nil (hempty : m.urlPrefix = [])
    (h : ∀ rest, ¬ m.TellsIndex rest) :
    tryMount fs clock m [] req = tryMount fs clock m [slash] req := by
  have hmatches : m.matchesPath [] = true ∧ m.matchesPath [slash] = true := by
    simp [StaticMount.matchesPath, hempty, find]
  rw [tryMount, tryMount, hmatches.1, hmatches.2]
  cases hindex : m.options.index with
  | nil =>
    simp [StaticMount.fileName, StaticMount.relativePath, hempty, StaticMount.completeIndex,
      hindex]
  | cons b rest =>
    by_cases hb : b = slash
    · subst hb
      rw [fileName_nil hempty hindex, fileName_slash hempty hindex]
      by_cases hdots : find (ascii "..") rest = none
      · have hlocate : m.locate fs rest = m.locate fs (slash :: rest) :=
          locate_slash_cons hempty hindex hdots (h rest)
        simp [hdots, hlocate]
      · simp [hdots]
    · -- Only the slash of the path can be erased.
      have hname : m.fileName [] = m.fileName [slash] := by
        simp [StaticMount.fileName, StaticMount.relativePath, hempty, StaticMount.completeIndex,
          hindex, StaticMount.eraseLeadingSlash, hb]
      rw [hname]

/-- All mounts but those that tell the two paths apart answer them alike. -/
theorem tryMount_nil_eq (h : ¬ m.TellsRoot) :
    tryMount fs clock m [] req = tryMount fs clock m [slash] req := by
  rw [StaticMount.TellsRoot] at h
  push Not at h
  obtain ⟨hdouble, hindex⟩ := h
  by_cases hroot : m.urlPrefix = [slash]
  · -- Nothing is behind the root prefix in either path.
    have hname : m.fileName [] = m.fileName [slash] := by
      simp [StaticMount.fileName, StaticMount.relativePath, hroot]
    simp [tryMount, StaticMount.matchesPath, hroot, hname]
  · by_cases hempty : m.urlPrefix = []
    · exact tryMount_nil_eq_of_urlPrefix_nil hempty hindex
    · -- The prefix stands in front of neither path.
      have hnil : m.matchesPath [] = false := by
        simp [StaticMount.matchesPath, find, hroot, hempty, Ne.symm hroot]
      have hslash : m.matchesPath [slash] = false := by
        have hpre : ¬ m.urlPrefix <+: [slash] := by
          intro hpre
          rcases List.prefix_cons_iff.mp hpre with hnil | ⟨t, ht, htnil⟩
          · exact hempty hnil
          · rw [List.prefix_nil.mp htnil] at ht
            exact hroot ht
        simp [StaticMount.matchesPath, find, hroot, hpre, hempty, Ne.symm hdouble]
      rw [tryMount, tryMount, hnil, hslash]
      rfl

/-- The empty path never throws. -/
theorem exists_tryServe_nil (h : StaticFileHandler) (fs : FileSystem) (clock : Clock)
    (req : Request) : ∃ res, h.tryServe fs clock [] req = .ok res :=
  exists_tryMounts_eq_ok_iff.mpr fun _ _ _ _ _ => Or.inl rfl

/-- The empty path is looked up totally where the path of a single slash is looked up alike. -/
theorem total_nil {h : StaticFileHandler} (halike : h.AlikeAtRoot) : Total h [] := by
  intro fs clock req
  refine ⟨exists_tryServe_nil h fs clock req, fun m hm hslash => ?_⟩
  rcases halike with hnone | hsame
  · exact absurd hslash (hnone m hm)
  · have hlookup : ∀ mounts : List StaticMount, (∀ m ∈ mounts, ¬ m.TellsRoot) →
        tryMounts fs clock [] req mounts = tryMounts fs clock [slash] req mounts := by
      intro mounts hmounts
      induction mounts with
      | nil => rfl
      | cons m mounts ih =>
        obtain ⟨hm, hrest⟩ := List.forall_mem_cons.mp hmounts
        rw [tryMounts, tryMounts, tryMount_nil_eq hm, ih hrest]
    exact hlookup h.mounts hsame

/-! ### Mounts that tell the two paths apart -/

/-- Behind a mount with the prefix `//`, the path `/` throws where there are no files. -/
theorem urlPrefix_ne_of_total_nil {h : StaticFileHandler} (htotal : Total h [])
    {root : StaticMount} (hroot : root ∈ h.mounts) (hslash : root.urlPrefix = [slash]) :
    ∀ m ∈ h.mounts, m.urlPrefix ≠ [slash, slash] := by
  intro m hm hdouble
  obtain ⟨⟨res, hres⟩, hsame⟩ := htotal .bare sampleClock .empty
  have hok : ∃ res, tryMounts .bare sampleClock [slash] .empty h.mounts = .ok res :=
    ⟨res, (hsame root hroot hslash).symm.trans hres⟩
  obtain ⟨before, after, hsplit⟩ := List.append_of_mem hm
  rcases exists_tryMounts_eq_ok_iff.mp hok before m after hsplit hdouble with
    hnil | ⟨m', -, res, hres⟩
  · exact absurd hnil (by simp)
  · exact tryMount_bare_ne_some m' res hres

/-- A name of two dots is refused with the path. -/
theorem dots_notMem_components {rel : Bytes} (h : find (ascii "..") rel = none) :
    ascii ".." ∉ components rel := by
  have hjoined : [slash].intercalate (components rel) = rel := List.intercalate_splitOn slash
  rw [← hjoined, find_dots_iff] at h
  exact fun hmem => h _ hmem (List.infix_refl _)

theorem find_dots_of_fileName {reqPath rel : Bytes} (h : m.fileName reqPath = .ok (some rel)) :
    find (ascii "..") rel = none := by
  rw [StaticMount.fileName] at h
  split at h
  · exact absurd h (by simp)
  · split at h
    · exact absurd h (by simp)
    · simp only [Except.ok.injEq, ite_not, Option.ite_none_right_eq_some, Option.some.injEq] at h
      exact h.2 ▸ h.1

/-- The path a mount looks for is absolute and does not lead back. -/
theorem joinPath_spec {reqPath rel : Bytes} (h : m.fileName reqPath = .ok (some rel)) :
    isAbsolute (joinPath m.directory rel) = true ∧
      ascii ".." ∉ components (joinPath m.directory rel) := by
  have hdots := dots_notMem_components (find_dots_of_fileName h)
  by_cases hhead : rel.head? = some slash
  · have habs : isAbsolute rel = true := by simp [isAbsolute, hhead]
    rw [joinPath, if_pos habs]
    exact ⟨habs, hdots⟩
  · rw [m.joinPath_directory hhead]
    constructor
    · rw [m.directory_eq]
      simp [directoryString, isAbsolute]
    · rw [components_directory_append, List.mem_cons, List.mem_append]
      rintro (hnil | hroot | hrel)
      · exact absurd hnil (by decide)
      · exact (m.validName _ hroot).ne_dot_dot rfl
      · exact hdots hrel

namespace StaticMount.TellsIndex

theorem fileName_nil_eq (h : m.TellsIndex rest) : m.fileName [] = .ok (some rest) := by
  rw [fileName_nil h.urlPrefix_eq h.index_eq, if_neg (not_not.mpr h.no_dots)]

theorem fileName_slash_eq (h : m.TellsIndex rest) :
    m.fileName [slash] = .ok (some (slash :: rest)) := by
  rw [fileName_slash h.urlPrefix_eq h.index_eq, if_neg (not_not.mpr h.no_dots)]

/-- The names on the way to the index are valid. -/
theorem validName (h : m.TellsIndex rest) : ∀ name ∈ m.indexPlace rest, ValidName name := by
  intro name hmem
  rcases List.mem_append.mp hmem with hroot | hindex
  · exact m.validName name hroot
  · -- The names are pieces between slashes, and two dots are refused.
    rw [steps, List.mem_filter] at hindex
    obtain ⟨hcomponent, hstays⟩ := hindex
    obtain ⟨hne, hdot⟩ := not_or.mp (of_decide_eq_true hstays)
    have hpiece : name ∈ pieces slash rest :=
      List.mem_filter.mpr ⟨hcomponent, by simpa using hne⟩
    refine ⟨hne, (mem_pieces hpiece).2, hdot, ?_⟩
    rintro rfl
    exact dots_notMem_components h.no_dots hcomponent

/-- It lies below the directory. -/
theorem steps_ne_nil (h : m.TellsIndex rest) : steps (components rest) ≠ [] :=
  Lundi.steps_ne_nil (components_ne_nil rest) h.last

theorem steps_joinPath (h : m.TellsIndex rest) :
    steps (components (joinPath m.directory rest)) = m.indexPlace rest := by
  rw [m.joinPath_directory h.relative, components_directory_append,
    steps_cons_of_stays (Or.inl rfl), StaticMount.indexPlace, steps, List.filter_append]
  exact congrArg (· ++ _) (steps_eq_self m.validName)

/-- A file at that place is found for the empty path. -/
theorem locate_eq (h : m.TellsIndex rest) {data : Bytes} {mtime : ℤ}
    (hentry : fs.entry (m.indexPlace rest) = some (.file data mtime true)) :
    m.locate fs rest = some (pathString (m.indexPlace rest)) := by
  obtain ⟨habs, -⟩ := joinPath_spec h.fileName_nil_eq
  have hlast : ∀ c ∈ (components (joinPath m.directory rest)).getLast?, ¬ Stays c := by
    intro c hc
    rw [m.joinPath_directory h.relative, components_directory_append, ← List.cons_append,
      List.getLast?_append_of_ne_nil _ (components_ne_nil rest)] at hc
    exact h.last c hc
  have hresolve : fs.resolve (joinPath m.directory rest) = .ok (m.indexPlace rest) := by
    have hresolved : fs.Resolved (steps (components (joinPath m.directory rest))) := by
      rw [h.steps_joinPath]
      exact ⟨_, hentry, rfl⟩
    rw [FileSystem.resolve_eq_steps habs hlast hresolved, h.steps_joinPath]
  have hregular : fs.isRegularFile (joinPath m.directory rest) = true := by
    rw [FileSystem.isRegularFile, FileSystem.status, hresolve]
    simp only [hentry]
  have hcanonical : fs.canonical (joinPath m.directory rest) =
      .ok (pathString (m.indexPlace rest)) := by
    rw [FileSystem.canonical, hresolve]
    rfl
  have hbelow : find m.directory (pathString (m.indexPlace rest)) = some 0 := by
    rw [find_eq_zero_iff, m.directory_eq, StaticMount.indexPlace,
      ← directoryString_append h.steps_ne_nil]
    exact List.prefix_append _ _
  simp [StaticMount.locate, hregular, hcanonical, hbelow]

/-- An empty file at that place is served for the empty path. -/
theorem exists_tryMount_nil (h : m.TellsIndex rest) {mtime : ℤ} (clock : Clock)
    (hentry : fs.entry (m.indexPlace rest) = some (.file [] mtime true)) :
    ∃ res, tryMount fs clock m [] .empty = .ok (some res) := by
  have hmatches : m.matchesPath [] = true := by
    simp [StaticMount.matchesPath, h.urlPrefix_eq, find]
  have hstatus : fs.status (pathString (m.indexPlace rest)) = some (.file [] mtime true) := by
    rw [FileSystem.status_pathString ⟨_, hentry, rfl⟩, hentry]
  have hserve : ∃ res, serveCanonical fs clock m.options (pathString (m.indexPlace rest)) .empty =
      some res :=
    ⟨_, serveCanonical_of_unconditional clock hstatus (Nat.zero_le _) rfl rfl⟩
  obtain ⟨res, hres⟩ := hserve
  refine ⟨res, ?_⟩
  rw [tryMount, hmatches, if_pos rfl, h.fileName_nil_eq]
  simp only [h.locate_eq hentry, hres]

/-- For the path `/` the mount looks elsewhere. -/
theorem not_seeks (h : m.TellsIndex rest) : ¬ m.Seeks [slash] (m.indexPlace rest) := by
  rintro ⟨-, rel, hrel, hplace⟩
  rw [h.fileName_slash_eq, Except.ok.injEq, Option.some_inj] at hrel
  rw [← hrel, joinPath_slash_cons, components_slash_cons, steps_cons_of_stays (Or.inl rfl),
    StaticMount.indexPlace] at hplace
  exact h.root_ne (List.self_eq_append_left.mp hplace)

end StaticMount.TellsIndex

/-- Where there is a single file, a mount that serves something looks for this file. -/
theorem ServedFrom.seeks_single {parent : List Bytes} {name data : Bytes}
    {hparent : ∀ c ∈ parent, ValidName c} {hname : ValidName name} {reqPath : Bytes}
    {place : List Bytes} {res : Response}
    (h : ServedFrom (.single parent name data hparent hname) m reqPath place res) :
    m.Seeks reqPath (parent ++ [name]) := by
  obtain ⟨rel, hrel, hcanonical⟩ := h.located
  obtain ⟨habs, hback⟩ := joinPath_spec hrel
  obtain ⟨found, mtime, readable, hentry, -⟩ := h.regular
  have hregular : (FileSystem.single parent name data hparent hname).isRegularFile
      (joinPath m.directory rel) = true := by
    rw [FileSystem.isRegularFile, FileSystem.status,
      FileSystem.resolve_of_canonical ⟨_, hentry, rfl⟩ hcanonical]
    simp only [hentry]
  exact ⟨h.prefix_matched, rel, hrel,
    FileSystem.steps_of_isRegularFile_single habs hback hregular⟩

/-- A lookup that finds nothing finds nothing in any mount. -/
theorem tryMount_eq_none_of_tryMounts {path : Bytes} {mounts : List StaticMount}
    (h : tryMounts fs clock path req mounts = .ok none) :
    ∀ m ∈ mounts, tryMount fs clock m path req = .ok none := by
  induction mounts with
  | nil => exact fun m hm => absurd hm List.not_mem_nil
  | cons m mounts ih =>
    rw [tryMounts] at h
    cases hm : tryMount fs clock m path req with
    | error e => simp [hm] at h
    | ok res =>
      cases res with
      | some res => simp [hm] at h
      | none =>
        rw [hm] at h
        exact List.forall_mem_cons.mpr ⟨hm, ih h⟩

/-- An index that is looked for below a directory for the empty path only is the index of another
mount too. -/
theorem exists_seeks_of_total_nil {h : StaticFileHandler} (htotal : Total h [])
    {root : StaticMount} (hroot : root ∈ h.mounts) (hslash : root.urlPrefix = [slash])
    (hm : m ∈ h.mounts) (htells : m.TellsIndex rest) :
    ∃ m' ∈ h.mounts, m' ≠ m ∧ m'.Seeks [slash] (m.indexPlace rest) := by
  rcases List.eq_nil_or_concat' (m.indexPlace rest) with hnil | ⟨parent, name, hplace⟩
  · exact absurd (List.append_eq_nil_iff.mp hnil).1 htells.root_ne
  · have hvalid := htells.validName
    rw [hplace] at hvalid
    have hparent : ∀ c ∈ parent, ValidName c := fun c hc => hvalid c (List.mem_append_left _ hc)
    have hname : ValidName name := hvalid name (by simp)
    -- The only file is the one that `m` looks for.
    obtain ⟨⟨res, hres⟩, hsame⟩ :=
      htotal (.single parent name [] hparent hname) sampleClock .empty
    have hentry : (FileSystem.single parent name [] hparent hname).entry (m.indexPlace rest) =
        some (.file [] 0 true) := by
      rw [hplace]
      exact FileSystem.entry_single
    obtain ⟨served, hserved⟩ := htells.exists_tryMount_nil sampleClock hentry
    cases res with
    | none =>
      rw [tryMount_eq_none_of_tryMounts hres m hm] at hserved
      exact absurd hserved (by simp)
    | some res =>
      rw [hsame root hroot hslash] at hres
      obtain ⟨m', hm', place, hfrom⟩ := tryServe_servedFrom hres
      have hseeks := hfrom.seeks_single
      rw [← hplace] at hseeks
      refine ⟨m', hm', ?_, hseeks⟩
      rintro rfl
      exact htells.not_seeks hseeks

/-- Where the empty path is looked up totally, the path of a single slash is looked up alike, or
the mounts share their indexes. -/
theorem alikeAtRoot_of_total_nil {h : StaticFileHandler} (htotal : Total h []) :
    h.AlikeAtRoot ∨ h.SharesIndexes := by
  by_cases hnone : ∀ m ∈ h.mounts, m.urlPrefix ≠ [slash]
  · exact Or.inl (Or.inl hnone)
  · push Not at hnone
    obtain ⟨root, hroot, hslash⟩ := hnone
    exact Or.inr ⟨urlPrefix_ne_of_total_nil htotal hroot hslash,
      fun m hm rest htells => exists_seeks_of_total_nil htotal hroot hslash hm htells⟩

/-- When static lookup is total. A single lookup throws exactly when a mount whose prefix is the
path with a slash behind it is reached. A path that is not empty is looked up totally exactly when
there is no such mount. The empty path is looked up totally when the path `/` is looked up alike,
and only then, unless the mounts share their indexes. -/
theorem static_lookup_total_iff (h : StaticFileHandler) (path : Bytes) :
    (∀ (fs : FileSystem) (clock : Clock) (req : Request),
      (∃ res, h.tryServe fs clock path req = .ok res) ↔
        LookupTotal fs clock h.mounts path req) ∧
    (path ≠ [] → (Total h path ↔ ∀ m ∈ h.mounts, m.urlPrefix ≠ path ++ [slash])) ∧
    (path = [] → (h.AlikeAtRoot → Total h path) ∧
      (Total h path → h.AlikeAtRoot ∨ h.SharesIndexes)) := by
  refine ⟨fun fs clock req => exists_tryMounts_eq_ok_iff, fun hpath => total_iff hpath, ?_⟩
  rintro rfl
  exact ⟨total_nil, alikeAtRoot_of_total_nil⟩

/-- The site mounted at `/static`. -/
def staticCall : MountCall := ⟨sampleSite, ascii "/static", ascii "/srv/www", {}⟩

/-- Whether the mounts are accepted and the lookup throws. -/
def throws (calls : List MountCall) (fs : FileSystem) (clock : Clock) (reqPath : Bytes) : Bool :=
  match mountAll .empty calls with
  | .error _ => false
  | .ok handler =>
    match handler.tryServe fs clock reqPath .empty with
    | .error _ => true
    | .ok _ => false

theorem exists_of_throws {calls : List MountCall} {fs : FileSystem} {clock : Clock}
    {reqPath : Bytes} (h : throws calls fs clock reqPath = true) :
    ∃ handler, mountAll .empty calls = .ok handler ∧ ¬ Total handler reqPath := by
  unfold throws at h
  split at h
  · exact absurd h (by simp)
  next handler hmount =>
    split at h
    next e herror =>
      refine ⟨handler, hmount, fun htotal => ?_⟩
      obtain ⟨res, hres⟩ := (htotal fs clock .empty).1
      rw [herror] at hres
      exact absurd hres (by simp)
    next => exact absurd h (by simp)

/-- A request for `/static` throws where `/static/` is mounted. -/
theorem not_total_static :
    ¬ ∀ (calls : List MountCall) (handler : StaticFileHandler),
      mountAll .empty calls = .ok handler → ∀ path, Total handler path := by
  intro h
  have hthrows : throws [staticCall] sampleSite sampleClock (ascii "/static") = true := by
    decide +kernel
  obtain ⟨handler, hmount, hnot⟩ := exists_of_throws hthrows
  exact hnot (h [staticCall] handler hmount (ascii "/static"))

end Lundi
