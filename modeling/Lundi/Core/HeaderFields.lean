import Lundi.Engine.HeaderScan

/-!
# The fields of a message head

What the head of an HTTP message says, independently of how the program reads it: its lines, the
header lines between the start line and the first empty line, and the names and values of those
that hold a colon.

* `lines_eq`: the lines are cut out by repeated searches for the line terminator;
* `lines_append`, `terminatedLines_append`: a text without a terminator, followed by one, is a
  line;
* `fields_headOf`: the fields of a head that is put together from lines;
* `findHeaderEnd_append_headOf`: the scan for the end of such a head stops behind the empty line.
-/

namespace Lundi

open Search

/-- The pieces of a text between its line terminators. -/
def lines : Bytes → List Bytes
  | 13 :: 10 :: rest => [] :: lines rest
  | b :: rest => (lines rest).modifyHead (b :: ·)
  | [] => [[]]

/-- The lines that have a terminator. -/
def terminatedLines (s : Bytes) : List Bytes := (lines s).dropLast

/-- The header lines: from the second line to the first empty one. -/
def headerLines (head : Bytes) : List Bytes := ((terminatedLines head).drop 1).takeWhile (· ≠ [])

/-- The name and the value of a header line with a colon; blanks in front of the value are not a
part of it. -/
def fieldOf (line : Bytes) : Option (Bytes × Bytes) :=
  (find [colon] line).map fun c => (line.take c, (line.drop (c + 1)).dropWhile isBlank)

/-- The fields of a head, in order. -/
def fields (head : Bytes) : List (Bytes × Bytes) := (headerLines head).filterMap fieldOf

/-- The values of the fields with a name, ignoring case, in order. -/
def valuesOf (name : Bytes) (fields : List (Bytes × Bytes)) : List Bytes :=
  (fields.filter fun f => equalsIgnoreCase f.1 name).map Prod.snd

theorem valuesOf_append (name : Bytes) (fs fs' : List (Bytes × Bytes)) :
    valuesOf name (fs ++ fs') = valuesOf name fs ++ valuesOf name fs' := by
  rw [valuesOf, List.filter_append, List.map_append]
  rfl

theorem valuesOf_singleton {name n : Bytes} (h : equalsIgnoreCase n name = true) (value : Bytes) :
    valuesOf name [(n, value)] = [value] := by
  simp [valuesOf, h]

/-- Fields with other names have no part in the values of a name. -/
theorem valuesOf_eq_nil {name : Bytes} {fs : List (Bytes × Bytes)}
    (h : ∀ f ∈ fs, equalsIgnoreCase f.1 name = false) : valuesOf name fs = [] := by
  rw [valuesOf, List.filter_eq_nil_iff.mpr fun f hf => by simp [h f hf]]
  rfl

/-- The first line ends at the first line terminator. -/
theorem lines_eq (s : Bytes) :
    lines s = match find crlf s with
      | none => [s]
      | some i => s.take i :: lines (s.drop (i + 2)) := by
  induction s using lines.induct with
  | case1 rest =>
    have hfind : find crlf (13 :: 10 :: rest) = some 0 := by simp [find]
    rw [hfind]
    rfl
  | case2 b rest hnot ih =>
    -- No terminator begins with `b`, so that `b` belongs to the first line of the rest.
    have hpre : ¬ crlf <+: b :: rest := by
      intro hpre
      obtain ⟨rest', hrest⟩ := hpre
      obtain ⟨rfl, rfl⟩ := List.cons.inj hrest
      exact hnot rest' rfl rfl
    rw [lines, find, if_neg hpre, ih]
    · cases find crlf rest <;> rfl
    · exact hnot
  | case3 => rfl

/-- A text without a line terminator, followed by one, is a line. -/
theorem lines_append {l : Bytes} (h : ¬ crlf <:+: l) (rest : Bytes) :
    lines (l ++ cr :: lf :: rest) = l :: lines rest := by
  have hfind : find crlf (l ++ cr :: lf :: rest) = some l.length :=
    find_pair_append (by decide) h rest
  have hdrop : (l ++ cr :: lf :: rest).drop (l.length + 2) = rest :=
    List.drop_length_add_append 2
  rw [lines_eq, hfind]
  simp only [hdrop, List.take_left]

theorem lines_ne_nil (s : Bytes) : lines s ≠ [] := by
  rw [lines_eq]
  split <;> exact List.cons_ne_nil _ _

/-- A line terminator cuts a text in two, also when the first part ends in a carriage return. -/
theorem lines_append_crlf (a b : Bytes) : lines (a ++ cr :: lf :: b) = lines a ++ lines b := by
  induction a using lines.induct with
  | case1 rest ih =>
    change [] :: lines (rest ++ cr :: lf :: b) = _
    rw [ih]
    rfl
  | case2 x rest hnot ih =>
    have hnot' : ∀ t, x = 13 → rest ++ cr :: lf :: b = 10 :: t → False := by
      intro t hx ht
      cases rest with
      | nil => exact absurd (List.cons.inj ht).1 (by decide)
      | cons y rest => exact hnot rest hx (congrArg (· :: rest) (List.cons.inj ht).1)
    -- The byte belongs to the first line of the rest, and there is one.
    obtain ⟨l, ls, hl⟩ := List.exists_cons_of_ne_nil (lines_ne_nil rest)
    rw [List.cons_append, lines, ih, lines, hl]
    · rfl
    · exact hnot
    · exact hnot'
  | case3 => rfl

theorem terminatedLines_append_crlf (a b : Bytes) :
    terminatedLines (a ++ cr :: lf :: b) = lines a ++ terminatedLines b := by
  rw [terminatedLines, lines_append_crlf, List.dropLast_append_of_ne_nil (lines_ne_nil b)]
  rfl

/-- The first terminated line ends at the first line terminator. -/
theorem terminatedLines_eq (s : Bytes) :
    terminatedLines s = match find crlf s with
      | none => []
      | some i => s.take i :: terminatedLines (s.drop (i + 2)) := by
  rw [terminatedLines, lines_eq]
  cases find crlf s with
  | none => rfl
  | some i => exact List.dropLast_cons_of_ne_nil (lines_ne_nil _)

/-- A text without a line terminator, followed by one, is a terminated line. -/
theorem terminatedLines_append {l : Bytes} (h : ¬ crlf <:+: l) (rest : Bytes) :
    terminatedLines (l ++ cr :: lf :: rest) = l :: terminatedLines rest := by
  rw [terminatedLines, lines_append h, List.dropLast_cons_of_ne_nil (lines_ne_nil _),
    terminatedLines]

/-- A value that does not begin with a blank is not changed. -/
theorem dropWhile_isBlank_eq_self {value : Bytes} (h : ∀ b ∈ value.head?, isBlank b = false) :
    value.dropWhile isBlank = value := by
  cases value with
  | nil => rfl
  | cons b rest => rw [List.dropWhile_cons_of_neg (by simp [h b rfl])]

/-- The field of a line that has a name, a colon and a text behind it. -/
theorem fieldOf_append_colon {name : Bytes} (hname : colon ∉ name) (rest : Bytes) :
    fieldOf (name ++ colon :: rest) = some (name, rest.dropWhile isBlank) := by
  have hfind : find [colon] (name ++ colon :: rest) = some name.length :=
    find_singleton_append hname _
  have hdrop : (name ++ colon :: rest).drop (name.length + 1) = rest :=
    List.drop_length_add_append 1
  rw [fieldOf, hfind, Option.map_some, List.take_left, hdrop]

/-- The field of a line that has a name, a colon, a space and a value. -/
theorem fieldOf_append {name : Bytes} (hname : colon ∉ name) (value : Bytes) :
    fieldOf (name ++ colon :: sp :: value) = some (name, value.dropWhile isBlank) := by
  rw [fieldOf_append_colon hname, List.dropWhile_cons_of_pos (by decide)]

/-! ### Heads made of lines -/

/-- The head with these lines. -/
def headOf (ls : List Bytes) : Bytes := ls.flatMap (· ++ crlf) ++ crlf

/-- A line that can stand in a head: not empty, and no part of a line terminator inside. -/
def IsLine (l : Bytes) : Prop := l ≠ [] ∧ cr ∉ l ∧ lf ∉ l

instance (l : Bytes) : Decidable (IsLine l) :=
  inferInstanceAs (Decidable (l ≠ [] ∧ cr ∉ l ∧ lf ∉ l))

theorem IsLine.not_crlf {l : Bytes} (h : IsLine l) : ¬ crlf <:+: l :=
  fun hinside => h.2.1 (hinside.subset List.mem_cons_self)

theorem headOf_cons (l : Bytes) (ls : List Bytes) :
    headOf (l :: ls) = l ++ cr :: lf :: headOf ls := by
  simp [headOf]

theorem terminatedLines_headOf {ls : List Bytes} (h : ∀ l ∈ ls, IsLine l) :
    terminatedLines (headOf ls) = ls ++ [[]] := by
  induction ls with
  | nil => decide
  | cons l ls ih =>
    obtain ⟨hl, hls⟩ := List.forall_mem_cons.mp h
    rw [headOf_cons, terminatedLines_append hl.not_crlf, ih hls, List.cons_append]

/-- The header lines of a head are those behind the first line. -/
theorem headerLines_headOf {l : Bytes} {ls : List Bytes} (h : ∀ x ∈ l :: ls, IsLine x) :
    headerLines (headOf (l :: ls)) = ls := by
  have hls : ∀ x ∈ ls, decide (x ≠ []) = true := fun x hx => by
    simpa using (h x (List.mem_cons_of_mem _ hx)).1
  rw [headerLines, terminatedLines_headOf h, List.cons_append, List.drop_succ_cons, List.drop_zero,
    List.takeWhile_append_of_pos hls]
  simp

/-- The fields of a head are those of its header lines. -/
theorem fields_headOf {l : Bytes} {ls : List Bytes} (h : ∀ x ∈ l :: ls, IsLine x) :
    fields (headOf (l :: ls)) = ls.filterMap fieldOf := by
  rw [fields, headerLines_headOf h]

/-! ### Heads made of fields -/

/-- The line of a field. -/
def fieldLine (f : Bytes × Bytes) : Bytes := f.1 ++ ascii ": " ++ f.2

/-- A text without any part of a line terminator. -/
def Unbroken (s : Bytes) : Prop := cr ∉ s ∧ lf ∉ s

instance (s : Bytes) : Decidable (Unbroken s) := inferInstanceAs (Decidable (cr ∉ s ∧ lf ∉ s))

theorem unbroken_append {s t : Bytes} : Unbroken (s ++ t) ↔ Unbroken s ∧ Unbroken t := by
  simp only [Unbroken, List.mem_append, not_or]
  tauto

theorem Unbroken.ite {p : Prop} [Decidable p] {s t : Bytes} (hs : Unbroken s) (ht : Unbroken t) :
    Unbroken (if p then s else t) := by
  split
  · exact hs
  · exact ht

/-- A field that is one line. -/
structure CleanField (f : Bytes × Bytes) : Prop where
  colon_notMem : colon ∉ f.1
  name : Unbroken f.1
  value : Unbroken f.2

theorem CleanField.isLine {f : Bytes × Bytes} (h : CleanField f) : IsLine (fieldLine f) := by
  have hunbroken : Unbroken (fieldLine f) :=
    unbroken_append.mpr ⟨unbroken_append.mpr ⟨h.name, by decide⟩, h.value⟩
  exact ⟨by simp [fieldLine, ascii], hunbroken⟩

theorem CleanField.fieldOf_eq {f : Bytes × Bytes} (h : CleanField f) :
    fieldOf (fieldLine f) = some (f.1, f.2.dropWhile isBlank) := by
  have hline : fieldLine f = f.1 ++ colon :: sp :: f.2 := by
    rw [fieldLine, show ascii ": " = [colon, sp] by decide, List.append_assoc]
    rfl
  rw [hline, fieldOf_append h.colon_notMem]

/-- The lines of a head with these fields. -/
theorem isLine_of_clean {l : Bytes} {fs : List (Bytes × Bytes)} (hl : IsLine l)
    (hfs : ∀ f ∈ fs, CleanField f) : ∀ x ∈ l :: fs.map fieldLine, IsLine x := by
  intro x hx
  rcases List.mem_cons.mp hx with rfl | hx
  · exact hl
  · obtain ⟨f, hf, rfl⟩ := List.mem_map.mp hx
    exact (hfs f hf).isLine

/-- A field as it stands in a head, without the blanks in front of its value. -/
def stripped (f : Bytes × Bytes) : Bytes × Bytes := (f.1, f.2.dropWhile isBlank)

/-- The lines of clean fields are read as these fields. -/
theorem filterMap_fieldOf {fs : List (Bytes × Bytes)} (hfs : ∀ f ∈ fs, CleanField f) :
    (fs.map fieldLine).filterMap fieldOf = fs.map stripped := by
  rw [List.filterMap_map, ← List.filterMap_eq_map]
  exact List.filterMap_congr fun f hf => (hfs f hf).fieldOf_eq

/-- The fields of a head that is put together from clean ones. -/
theorem fields_headOf_of_clean {l : Bytes} {fs : List (Bytes × Bytes)} (hl : IsLine l)
    (hfs : ∀ f ∈ fs, CleanField f) : fields (headOf (l :: fs.map fieldLine)) = fs.map stripped := by
  rw [fields_headOf (isLine_of_clean hl hfs), filterMap_fieldOf hfs]

/-- What is done to the values of all fields is done to those of a name. -/
theorem valuesOf_map (name : Bytes) (change : Bytes → Bytes) (fs : List (Bytes × Bytes)) :
    valuesOf name (fs.map fun f => (f.1, change f.2)) = (valuesOf name fs).map change := by
  simp only [valuesOf, List.filter_map, List.map_map]
  rfl

theorem valuesOf_map_stripped (name : Bytes) (fs : List (Bytes × Bytes)) :
    valuesOf name (fs.map stripped) = (valuesOf name fs).map (·.dropWhile isBlank) :=
  valuesOf_map name _ fs

/-! ### The end of a head -/

/-- No terminator begins in a line or in the line terminator behind it, if another line follows. -/
theorem not_headerTerminator_prefix {l l' : Bytes} (hl : IsLine l) (hl' : IsLine l') (s : Bytes)
    {j : ℕ} (hj : j < (l ++ crlf).length) :
    ¬ headerTerminator <+: ((l ++ crlf) ++ (l' ++ s)).drop j := by
  intro hpre
  rw [List.append_assoc] at hpre
  have hle := length_le_of_cons_prefix_drop hl.2.1 hpre
  rw [List.length_append] at hj
  obtain ⟨i, rfl⟩ := Nat.exists_eq_add_of_le hle
  rw [List.drop_length_add_append] at hpre
  obtain rfl | rfl : i = 0 ∨ i = 1 := by
    change l.length + i < l.length + 2 at hj
    omega
  · -- The first byte of the next line would be a carriage return.
    have hnext : [cr, lf] <+: (l' ++ s).drop 0 := by
      simpa [List.cons_prefix_cons] using hpre
    have hempty := length_le_of_cons_prefix_drop hl'.2.1 hnext
    exact hl'.1 (List.eq_nil_of_length_eq_zero (by omega))
  · -- The second byte of the line terminator is no carriage return.
    have hcr : cr = lf := by simpa using (List.cons_prefix_cons.mp hpre).1
    exact absurd hcr (by decide)

/-- The first terminator is the one at the end of the head. -/
theorem find_headerTerminator_headOf {l : Bytes} {ls : List Bytes} (h : ∀ x ∈ l :: ls, IsLine x)
    (rest : Bytes) :
    (find headerTerminator (headOf (l :: ls) ++ rest)).map (· + 4) =
      some (headOf (l :: ls)).length := by
  induction ls generalizing l with
  | nil =>
    obtain ⟨hl, -⟩ := List.forall_mem_cons.mp h
    have hsplit : headOf [l] ++ rest = l ++ (headerTerminator ++ rest) := by simp [headOf]
    have hfind : find headerTerminator (headOf [l] ++ rest) = some l.length := by
      rw [hsplit]
      -- An earlier occurrence would begin with a carriage return of the line.
      refine find_eq_some_iff.mpr ⟨by simp, fun j hj hpre => ?_⟩
      exact absurd (length_le_of_cons_prefix_drop hl.2.1 hpre) (by omega)
    rw [hfind]
    simp [headOf]
  | cons l' ls ih =>
    obtain ⟨hl, hls⟩ := List.forall_mem_cons.mp h
    have hl' : IsLine l' := hls l' List.mem_cons_self
    have hsplit : headOf (l :: l' :: ls) ++ rest =
        (l ++ crlf) ++ (l' ++ (cr :: lf :: (headOf ls ++ rest))) := by
      simp [headOf_cons]
    have htail : l' ++ (cr :: lf :: (headOf ls ++ rest)) = headOf (l' :: ls) ++ rest := by
      simp [headOf_cons]
    have hlen : (headOf (l :: l' :: ls)).length =
        (headOf (l' :: ls)).length + (l ++ crlf).length := by
      simp [headOf_cons]
      omega
    -- No terminator begins in the first line, so the search goes on behind it.
    rw [hsplit, find_append_of_forall_not_prefix
      fun j hj => not_headerTerminator_prefix hl hl' _ hj, htail, hlen, Option.map_map]
    have hrest := ih hls
    rw [Option.map_eq_some_iff] at hrest
    obtain ⟨k, hk, hkeq⟩ := hrest
    rw [hk, ← hkeq]
    simp only [Option.map_some, Function.comp_apply]
    congr 1
    omega

/-- The scan stops behind the empty line that ends the head, whatever comes after it. -/
theorem findHeaderEnd_append_headOf {l : Bytes} {ls : List Bytes} (h : ∀ x ∈ l :: ls, IsLine x)
    (rest : Bytes) :
    findHeaderEnd (headOf (l :: ls) ++ rest) 0 = (headOf (l :: ls)).length := by
  obtain ⟨k, hk, hlen⟩ := Option.map_eq_some_iff.mp (find_headerTerminator_headOf h rest)
  rw [findHeaderEnd_zero, hk, ← hlen]

end Lundi
