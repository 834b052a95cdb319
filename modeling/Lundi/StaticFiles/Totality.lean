import Lundi.StaticFiles.Containment

/-!
# When static lookup throws

The prefix test of `try_mount` lets the prefix without its trailing slash through, and `substr`
throws for it, because it is shorter than the prefix.

* `exists_tryMounts_eq_ok_iff`: exactly when a lookup does not throw;
* `total_iff`: exactly which paths, the empty one apart, are looked up totally, whatever the file
  system holds.
-/

namespace Lundi

open Search

/-- Behind `substr` there are only tests. -/
theorem relativePath_of_fileName_eq_error {m : StaticMount} {reqPath : Bytes} {e : Exception}
    (h : m.fileName reqPath = .error e) : m.relativePath reqPath = .error e := by
  rw [StaticMount.fileName] at h
  cases hrel : m.relativePath reqPath with
  | error e' =>
    rw [hrel] at h
    simpa using h
  | ok rel =>
    rw [hrel] at h
    simp only at h
    split at h <;> exact absurd h (by simp)

/-- The one place where a mount throws is `substr`. -/
theorem relativePath_of_tryMount_eq_error {fs : FileSystem} {clock : Clock} {m : StaticMount}
    {reqPath : Bytes} {req : Request} {e : Exception}
    (h : tryMount fs clock m reqPath req = .error e) :
    m.matchesPath reqPath = true ∧ m.relativePath reqPath = .error e := by
  rw [tryMount] at h
  split at h
  next hmatches =>
    refine ⟨hmatches, relativePath_of_fileName_eq_error ?_⟩
    cases hname : m.fileName reqPath with
    | error e' =>
      rw [hname] at h
      simpa using h
    | ok name =>
      rw [hname] at h
      cases name with
      | none => exact absurd h (by simp)
      | some rel =>
        simp only at h
        split at h <;> exact absurd h (by simp)
  · exact absurd h (by simp)

/-- A mount throws when the path is its prefix without the slash. -/
theorem urlPrefix_of_tryMount_eq_error {fs : FileSystem} {clock : Clock} {m : StaticMount}
    {reqPath : Bytes} {req : Request} {e : Exception}
    (h : tryMount fs clock m reqPath req = .error e) :
    m.urlPrefix = reqPath ++ [slash] ∧ reqPath ≠ [] := by
  obtain ⟨hmatches, hrel⟩ := relativePath_of_tryMount_eq_error h
  rw [StaticMount.relativePath] at hrel
  -- The root prefix drops a first byte that is there, and a path that is as long as the prefix has
  -- something behind it.
  split at hrel
  · exact absurd hrel (by simp)
  next hroot =>
    split at hrel
    · exact absurd hrel (by simp)
    next hlong =>
      simp only [StaticMount.matchesPath, decide_eq_true_eq] at hmatches
      rcases hmatches with hroot' | hfind | hslash
      · exact absurd hroot' hroot
      · have := length_le_of_find_eq_some hfind
        omega
      · refine ⟨hslash.symm, ?_⟩
        rintro rfl
        exact hroot hslash.symm

/-- Each mount whose prefix is the path with a slash behind it stands behind one that serves the
path. The path `""` is not affected, because the prefix `"/"` is treated apart. -/
def LookupTotal (fs : FileSystem) (clock : Clock) (mounts : List StaticMount) (path : Bytes)
    (req : Request) : Prop :=
  ∀ before m after, mounts = before ++ m :: after → m.urlPrefix = path ++ [slash] →
    path = [] ∨ ∃ m' ∈ before, ∃ res, tryMount fs clock m' path req = .ok (some res)

variable {fs : FileSystem} {clock : Clock} {path : Bytes} {req : Request}

/-- A mount whose prefix is the path with a slash behind it throws. -/
theorem tryMount_eq_error {m : StaticMount} (h : m.urlPrefix = path ++ [slash]) (hne : path ≠ []) :
    tryMount fs clock m path req = .error (.standard (ascii "basic_string::substr")) := by
  have hmatches : m.matchesPath path = true := by
    simp [StaticMount.matchesPath, h]
  have hroot : m.urlPrefix ≠ [slash] := by
    rw [h]
    simpa using hne
  have hrel : m.relativePath path = .error (.standard (ascii "basic_string::substr")) := by
    rw [StaticMount.relativePath, if_neg hroot, if_neg]
    rw [h, List.length_append, List.length_singleton]
    omega
  rw [tryMount, hmatches, if_pos rfl, StaticMount.fileName, hrel]

theorem path_eq_nil_of_tryMount_eq_ok {m : StaticMount} (h : m.urlPrefix = path ++ [slash])
    {res : Option Response} (hok : tryMount fs clock m path req = .ok res) : path = [] := by
  by_contra hne
  rw [tryMount_eq_error h hne] at hok
  exact absurd hok (by simp)

/-- A lookup does not throw exactly when every mount that would is behind one that serves the
path. -/
theorem exists_tryMounts_eq_ok_iff {mounts : List StaticMount} :
    (∃ res, tryMounts fs clock path req mounts = .ok res) ↔
      LookupTotal fs clock mounts path req := by
  induction mounts with
  | nil =>
    refine iff_of_true ⟨none, rfl⟩ ?_
    intro before m after heq
    simp at heq
  | cons m mounts ih =>
    rw [tryMounts]
    cases hm : tryMount fs clock m path req with
    | error e =>
      -- No mount stands in front of the first one.
      obtain ⟨hslash, hpath⟩ := urlPrefix_of_tryMount_eq_error hm
      refine iff_of_false (by simp) fun h => ?_
      rcases h [] m mounts rfl hslash with hnil | ⟨m', hm', -⟩
      · exact hpath hnil
      · exact absurd hm' List.not_mem_nil
    | ok res =>
      cases res with
      | some res =>
        refine iff_of_true ⟨_, rfl⟩ fun before m' after heq hslash => ?_
        cases before with
        | nil =>
          obtain ⟨rfl, -⟩ := List.cons.inj heq
          exact Or.inl (path_eq_nil_of_tryMount_eq_ok hslash hm)
        | cons n before =>
          obtain ⟨rfl, -⟩ := List.cons.inj heq
          exact Or.inr ⟨m, List.mem_cons_self, res, hm⟩
      | none =>
        -- A mount that does not serve the path protects none of those behind it.
        simp only [ih]
        constructor
        · intro h before m' after heq hslash
          cases before with
          | nil =>
            obtain ⟨rfl, -⟩ := List.cons.inj heq
            exact Or.inl (path_eq_nil_of_tryMount_eq_ok hslash hm)
          | cons n before =>
            rcases h before m' after (List.cons.inj heq).2 hslash with hnil | ⟨o, ho, res, hres⟩
            · exact Or.inl hnil
            · exact Or.inr ⟨o, List.mem_cons_of_mem _ ho, res, hres⟩
        · intro h before m' after heq hslash
          rcases h (m :: before) m' after (by rw [heq]; rfl) hslash with
            hnil | ⟨n, hn, res, hres⟩
          · exact Or.inl hnil
          · rcases List.mem_cons.mp hn with rfl | hn
            · rw [hm] at hres
              exact absurd hres (by simp)
            · exact Or.inr ⟨n, hn, res, hres⟩

/-! ### The prefix without its slash -/

/-- The lookup of a path is total: it throws in no file system, and if the path is a mount prefix
without its trailing slash, it is answered like the path with the slash. -/
def Total (h : StaticFileHandler) (path : Bytes) : Prop :=
  ∀ (fs : FileSystem) (clock : Clock) (req : Request),
    (∃ res, h.tryServe fs clock path req = .ok res) ∧
      ∀ m ∈ h.mounts, m.urlPrefix = path ++ [slash] →
        h.tryServe fs clock path req = h.tryServe fs clock (path ++ [slash]) req

/-- Without files, nothing is served. -/
theorem tryMount_bare_ne_some (m : StaticMount) (res : Response) :
    tryMount .bare clock m path req ≠ .ok (some res) := by
  intro h
  rw [tryMount] at h
  split at h
  · cases hname : m.fileName path with
    | error e =>
      rw [hname] at h
      simp at h
    | ok name =>
      rw [hname] at h
      cases name with
      | none => simp at h
      | some rel =>
        have hlocate : m.locate .bare rel = none := by
          simp [StaticMount.locate, FileSystem.isRegularFile_bare]
        simp [hlocate] at h
  · simp at h

/-- A path that is not empty is looked up totally exactly when no mount has it with a slash behind
it as its prefix. -/
theorem total_iff {h : StaticFileHandler} (hpath : path ≠ []) :
    Total h path ↔ ∀ m ∈ h.mounts, m.urlPrefix ≠ path ++ [slash] := by
  constructor
  · intro htotal m hm hslash
    -- Where there are no files, no mount in front of `m` serves the path.
    obtain ⟨hok, -⟩ := htotal .bare sampleClock .empty
    obtain ⟨before, after, hsplit⟩ := List.append_of_mem hm
    rcases exists_tryMounts_eq_ok_iff.mp hok before m after hsplit hslash with
      hnil | ⟨m', -, res, hres⟩
    · exact hpath hnil
    · exact tryMount_bare_ne_some m' res hres
  · intro hnone fs clock req
    refine ⟨exists_tryMounts_eq_ok_iff.mpr ?_, fun m hm hslash => absurd hslash (hnone m hm)⟩
    intro before m after hsplit hslash
    have hm : m ∈ h.mounts := by simp [hsplit]
    exact absurd hslash (hnone m hm)

end Lundi
