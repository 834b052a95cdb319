import Lundi.StaticFiles.Handler

/-!
# Containment of static serving

Whatever the request path, a response of `try_serve` is made from a regular file below the
directory of the mount that answered.

* `isPrefix_of_directoryString_prefix`: the string test of `try_mount` means containment name by
  name;
* `tryMount_servedFrom`, `tryServe_servedFrom`: what a response was made from;
* `tryServe_contained`: the same for the mounts that `mount` accepted.
-/

namespace Lundi

open Search

/-- If the string of a place begins with the string of a directory, slash included, then the place
lies strictly below the directory. -/
theorem isPrefix_of_directoryString_prefix {root place : List Bytes}
    (hroot : ∀ name ∈ root, slash ∉ name) (hplace : ∀ name ∈ place, slash ∉ name)
    (hne : place ≠ []) (h : directoryString root <+: pathString place) :
    root <+: place ∧ root ≠ place := by
  rw [directoryString, pathString, List.cons_prefix_cons] at h
  replace h := h.2
  induction root generalizing place with
  | nil => exact ⟨List.nil_prefix, hne.symm⟩
  | cons name root ih =>
    cases place with
    | nil => exact absurd rfl hne
    | cons first place =>
      have hname := hroot name List.mem_cons_self
      have hfirst := hplace first List.mem_cons_self
      rw [List.flatMap_cons, List.append_assoc] at h
      rcases eq_or_ne place [] with rfl | hrest
      · -- The last name of the place holds no slash, but the directory ends in one.
        rw [List.intercalate_singleton] at h
        exact absurd (h.subset (by simp)) hfirst
      · rw [List.intercalate_cons_of_ne_nil hrest, List.append_assoc] at h
        obtain ⟨back, hback⟩ := h
        -- Both strings start with a name that ends at the first slash.
        have hlen : name.length = first.length := by
          have hl := find_singleton_append hname (root.flatMap (fun n => n ++ [slash]) ++ back)
          have hr := find_singleton_append hfirst ([slash].intercalate place)
          have heq : name ++ slash :: (root.flatMap (fun n => n ++ [slash]) ++ back) =
              first ++ slash :: [slash].intercalate place := by simpa using hback
          rw [heq, hr] at hl
          exact (Option.some_inj.mp hl).symm
        have hsplit : name ++ (slash :: (root.flatMap (fun n => n ++ [slash]) ++ back)) =
            first ++ (slash :: [slash].intercalate place) := by simpa using hback
        obtain ⟨rfl, htail⟩ := List.append_inj hsplit hlen
        have hprefix : root.flatMap (fun n => n ++ [slash]) <+: [slash].intercalate place :=
          ⟨back, (List.cons.inj htail).2⟩
        obtain ⟨hpre, hdiff⟩ := ih (fun n hn => hroot n (List.mem_cons_of_mem _ hn))
          (fun n hn => hplace n (List.mem_cons_of_mem _ hn)) hrest hprefix
        exact ⟨by simpa [List.cons_prefix_cons] using hpre, by simpa using hdiff⟩

@[simp]
theorem status_setMaxAge (res : Response) (options : StaticOptions) :
    (setMaxAge res options).status = res.status := by
  unfold setMaxAge
  split <;> rfl

@[simp]
theorem status_setUnlessEmpty (res : Response) (name value : Bytes) :
    (setUnlessEmpty res name value).status = res.status := by
  unfold setUnlessEmpty
  split <;> rfl

@[simp]
theorem body_setMaxAge (res : Response) (options : StaticOptions) :
    (setMaxAge res options).body = res.body := by
  unfold setMaxAge
  split <;> rfl

@[simp]
theorem body_setUnlessEmpty (res : Response) (name value : Bytes) :
    (setUnlessEmpty res name value).body = res.body := by
  unfold setUnlessEmpty
  split <;> rfl

theorem status_fileResponse (options : StaticOptions) (canonical body etag lastMod : Bytes) :
    (fileResponse options canonical body etag lastMod).status = 200 := by
  unfold fileResponse
  split <;> simp [Response.setHeader]

theorem body_fileResponse (options : StaticOptions) (canonical body etag lastMod : Bytes) :
    (fileResponse options canonical body etag lastMod).body = body := by
  unfold fileResponse
  split <;> simp [Response.setHeader]

/-- The response was made from the regular file at `place`, strictly below the mounted directory:
the path matched the prefix of the mount, the file that the rest of the path names is there, it is
small enough, and a 200 answer has its bytes. -/
structure ServedFrom (fs : FileSystem) (m : StaticMount) (reqPath : Bytes) (place : List Bytes)
    (res : Response) : Prop where
  prefix_matched : m.matchesPath reqPath = true
  located : ∃ rel, m.fileName reqPath = .ok (some rel) ∧
    fs.canonical (joinPath m.directory rel) = .ok (pathString place)
  canonical : fs.canonical (pathString place) = .ok (pathString place)
  below : m.root <+: place ∧ m.root ≠ place
  regular : ∃ data mtime readable, fs.entry place = some (.file data mtime readable) ∧
    data.length ≤ m.options.maxFileSize ∧ (res.status = 200 → res.body = data)
  status : res.status = 200 ∨ res.status = 304

/-- What `try_mount` finds is the canonical path of a regular file strictly below its
directory. -/
theorem StaticMount.locate_spec {m : StaticMount} {fs : FileSystem} {rel canonical : Bytes}
    (h : m.locate fs rel = some canonical) :
    ∃ place data mtime readable, canonical = pathString place ∧
      fs.canonical (joinPath m.directory rel) = .ok (pathString place) ∧
      fs.Resolved place ∧ fs.entry place = some (.file data mtime readable) ∧
      m.root <+: place ∧ m.root ≠ place := by
  simp only [locate] at h
  split at h
  next hregular =>
    cases hresolve : fs.resolve (joinPath m.directory rel) with
    | error e => simp [FileSystem.canonical, hresolve, Except.map] at h
    | ok place =>
      have hcanonical : fs.canonical (joinPath m.directory rel) = .ok (pathString place) := by
        rw [FileSystem.canonical, hresolve]
        rfl
      rw [hcanonical] at h
      simp only [ite_not, Option.ite_none_right_eq_some, Option.some.injEq] at h
      obtain ⟨hfind, rfl⟩ := h
      -- The regularity test and `canonical` resolved the same path.
      have hfile : ∃ data mtime readable, fs.entry place = some (.file data mtime readable) := by
        simp only [FileSystem.isRegularFile, FileSystem.status, hresolve] at hregular
        split at hregular
        next data mtime readable hentry => exact ⟨data, mtime, readable, hentry⟩
        next => simp at hregular
      obtain ⟨data, mtime, readable, hentry⟩ := hfile
      have hne : place ≠ [] := by
        rintro rfl
        simp [fs.entry_nil] at hentry
      have hvalid : ∀ name ∈ place, slash ∉ name := fun name hmem =>
        (FileSystem.validName_of_mem (by rw [hentry]; rfl) hmem).slash_notMem
      -- The code compares the two paths as strings.
      have hpre : directoryString m.root <+: pathString place := by
        rw [← m.directory_eq]
        exact find_eq_zero_iff.mp hfind
      exact ⟨place, data, mtime, readable, rfl, hcanonical, FileSystem.resolve_spec hresolve,
        hentry, isPrefix_of_directoryString_prefix
          (fun name hmem => (m.validName name hmem).slash_notMem) hvalid hne hpre⟩
  next => exact absurd h (by simp)

/-- Behind the path checks, a response has status 200 or 304, the file is not too large, and a 200
answer has its bytes. -/
theorem serveCanonical_spec {fs : FileSystem} {clock : Clock} {options : StaticOptions}
    {place : List Bytes} {req : Request} {res : Response} {data : Bytes} {mtime : ℤ}
    {readable : Bool} (hplace : fs.Resolved place)
    (hentry : fs.entry place = some (.file data mtime readable))
    (h : serveCanonical fs clock options (pathString place) req = some res) :
    data.length ≤ options.maxFileSize ∧ (res.status = 200 → res.body = data) ∧
      (res.status = 200 ∨ res.status = 304) := by
  -- The size, the time and the bytes are those of one file: its path is canonical.
  have hstatus : fs.status (pathString place) = some (.file data mtime readable) := by
    rw [FileSystem.status_pathString hplace, hentry]
  simp only [serveCanonical, FileSystem.fileSize, FileSystem.lastWriteTime, FileSystem.read,
    hstatus] at h
  split at h
  · exact absurd h (by simp)
  next hsize =>
    refine ⟨by omega, ?_⟩
    split at h
    · obtain rfl := Option.some_inj.mp h
      simp [etagResponse, Response.setHeader]
    · split at h
      · obtain rfl := Option.some_inj.mp h
        simp [notModifiedResponse]
      · cases readable with
        | false => exact absurd h (by simp)
        | true =>
          obtain rfl := Option.some_inj.mp h
          exact ⟨fun _ => body_fileResponse .., Or.inl (status_fileResponse ..)⟩

/-- What a response of `try_mount` was made from. -/
theorem tryMount_servedFrom {fs : FileSystem} {clock : Clock} {m : StaticMount} {reqPath : Bytes}
    {req : Request} {res : Response} (h : tryMount fs clock m reqPath req = .ok (some res)) :
    ∃ place, ServedFrom fs m reqPath place res := by
  unfold tryMount at h
  split at h
  next hmatch =>
    split at h
    · exact absurd h (by simp)
    · exact absurd h (by simp)
    next rel hname =>
      split at h
      · exact absurd h (by simp)
      next canonical hlocate =>
        obtain ⟨place, data, mtime, readable, rfl, hfull, hresolved, hentry, hbelow⟩ :=
          StaticMount.locate_spec hlocate
        obtain ⟨hsize, hbody, hstatus⟩ :=
          serveCanonical_spec hresolved hentry (Except.ok.inj h)
        refine ⟨place, hmatch, ⟨rel, hname, hfull⟩, ?_, hbelow,
          ⟨data, mtime, readable, hentry, hsize, hbody⟩, hstatus⟩
        rw [FileSystem.canonical, FileSystem.resolve_pathString hresolved]
        rfl
  next => exact absurd h (by simp)

/-- What a response of `try_serve` was made from. -/
theorem tryServe_servedFrom {handler : StaticFileHandler} {fs : FileSystem} {clock : Clock}
    {reqPath : Bytes} {req : Request} {res : Response}
    (h : handler.tryServe fs clock reqPath req = .ok (some res)) :
    ∃ m ∈ handler.mounts, ∃ place, ServedFrom fs m reqPath place res := by
  rw [StaticFileHandler.tryServe] at h
  generalize handler.mounts = mounts at h ⊢
  induction mounts with
  | nil => simp [tryMounts] at h
  | cons m mounts ih =>
    rw [tryMounts] at h
    split at h
    · exact absurd h (by simp)
    next found hm =>
      obtain rfl := Option.some_inj.mp (Except.ok.inj h)
      exact ⟨m, List.mem_cons_self, tryMount_servedFrom hm⟩
    · obtain ⟨m', hmem, hserved⟩ := ih h
      exact ⟨m', List.mem_cons_of_mem _ hmem, hserved⟩

/-- A call of `mount`, with the file system as it was at that time. -/
structure MountCall where
  fs : FileSystem
  urlPrefix : Bytes
  directory : Bytes
  options : StaticOptions

/-- The handler after a sequence of calls of `mount`; a refused directory ends it. -/
def mountAll (handler : StaticFileHandler) : List MountCall → Except Exception StaticFileHandler
  | [] => .ok handler
  | c :: calls =>
    match handler.mount c.fs c.urlPrefix c.directory c.options with
    | .error e => .error e
    | .ok handler => mountAll handler calls

/-- The root of an accepted mount is the place its directory leads to. -/
theorem resolve_of_ofDirectory {c : MountCall} {m : StaticMount}
    (h : StaticMount.ofDirectory c.fs c.urlPrefix c.directory c.options = .ok m) :
    c.fs.resolve c.directory = .ok m.root := by
  unfold StaticMount.ofDirectory at h
  split at h
  · exact absurd h (by simp)
  next root hroot =>
    simp only at h
    split at h
    · obtain rfl := Except.ok.inj h
      exact hroot
    · exact absurd h (by simp)

/-- Every mount of a handler was there before or comes from an accepted call. -/
theorem exists_call_of_mem_mounts {calls : List MountCall} {before after : StaticFileHandler}
    (h : mountAll before calls = .ok after) {m : StaticMount} (hmem : m ∈ after.mounts) :
    m ∈ before.mounts ∨ ∃ c ∈ calls,
      StaticMount.ofDirectory c.fs c.urlPrefix c.directory c.options = .ok m := by
  induction calls generalizing before with
  | nil =>
    obtain rfl := Except.ok.inj h
    exact Or.inl hmem
  | cons c calls ih =>
    rw [mountAll] at h
    split at h
    · exact absurd h (by simp)
    next mid hmid =>
      -- A mount of the later handler was there before the other calls, or comes from one of them.
      rcases ih h with hold | ⟨c', hc', hmake⟩
      · unfold StaticFileHandler.mount at hmid
        split at hmid
        · exact absurd hmid (by simp)
        next m' hm' =>
          obtain rfl := Except.ok.inj hmid
          rcases List.mem_append.mp hold with hbefore | hnew
          · exact Or.inl hbefore
          · obtain rfl := List.mem_singleton.mp hnew
            exact Or.inr ⟨c, List.mem_cons_self, hm'⟩
      · exact Or.inr ⟨c', List.mem_cons_of_mem _ hc', hmake⟩

/-- Static serving never escapes its mounts: a response was made from a regular file whose
canonical path lies strictly below the canonical directory of a registered mount whose prefix
matched, and whose size and bytes fit. -/
theorem tryServe_contained {calls : List MountCall} {handler : StaticFileHandler}
    (hmounts : mountAll .empty calls = .ok handler) {fs : FileSystem} {clock : Clock}
    {reqPath : Bytes} {req : Request} {res : Response}
    (h : handler.tryServe fs clock reqPath req = .ok (some res)) :
    ∃ m ∈ handler.mounts, ∃ c ∈ calls, ∃ place,
      StaticMount.ofDirectory c.fs c.urlPrefix c.directory c.options = .ok m ∧
      c.fs.resolve c.directory = .ok m.root ∧ ServedFrom fs m reqPath place res := by
  obtain ⟨m, hmem, place, hserved⟩ := tryServe_servedFrom h
  rcases exists_call_of_mem_mounts hmounts hmem with hempty | ⟨c, hc, hmake⟩
  · exact absurd hempty (by simp [StaticFileHandler.empty])
  · exact ⟨m, hmem, c, hc, place, hmake, resolve_of_ofDirectory hmake, hserved⟩

/-- Whether the mounts are accepted and a response is returned. -/
def serves (calls : List MountCall) (fs : FileSystem) (clock : Clock) (reqPath : Bytes) : Bool :=
  match mountAll .empty calls with
  | .error _ => false
  | .ok handler =>
    match handler.tryServe fs clock reqPath .empty with
    | .ok (some _) => true
    | _ => false

theorem exists_of_serves {calls : List MountCall} {fs : FileSystem} {clock : Clock}
    {reqPath : Bytes} (h : serves calls fs clock reqPath = true) :
    ∃ handler res, mountAll .empty calls = .ok handler ∧
      handler.tryServe fs clock reqPath .empty = .ok (some res) := by
  unfold serves at h
  split at h
  · exact absurd h (by simp)
  next handler hmount =>
    split at h
    next res hserve => exact ⟨handler, res, hmount, hserve⟩
    next => exact absurd h (by simp)

theorem validName_www : ∀ name ∈ [ascii "srv", ascii "www"], ValidName name := by
  intro name hmem
  simp only [List.mem_cons, List.not_mem_nil, or_false] at hmem
  rcases hmem with rfl | rfl <;> constructor <;> decide

/-- A site with the single file `/srv/www/a.txt`. -/
def sampleSite : FileSystem :=
  .single [ascii "srv", ascii "www"] (ascii "a.txt") (ascii "hello") validName_www
    (by constructor <;> decide)

/-- A mount of the site. -/
def sampleMount : MountCall := ⟨sampleSite, ascii "/", ascii "/srv/www", {}⟩

/-- A clock on which all times are equal. -/
def sampleClock : Clock := ⟨fun _ => 0, fun _ => [], fun _ => none⟩

theorem tryServe_contained_sampleSite :
    ∃ handler res, mountAll .empty [sampleMount] = .ok handler ∧
      handler.tryServe sampleSite sampleClock (ascii "//a.txt") .empty = .ok (some res) ∧
      ∃ m ∈ handler.mounts, ∃ place, ServedFrom sampleSite m (ascii "//a.txt") place res := by
  have hserves : serves [sampleMount] sampleSite sampleClock (ascii "//a.txt") = true := by
    decide +kernel
  obtain ⟨handler, res, hmount, hserve⟩ := exists_of_serves hserves
  obtain ⟨m, hm, -, -, place, -, -, hserved⟩ := tryServe_contained hmount hserve
  exact ⟨handler, res, hmount, hserve, m, hm, place, hserved⟩

end Lundi
