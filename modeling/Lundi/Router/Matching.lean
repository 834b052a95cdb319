import Lundi.Lib.Pieces
import Lundi.Router

/-!
# Route matching

`parse_pattern`, `split_path_sv` and `match_route` compared with what a pattern stands for: a list
of segments to which the non-empty pieces of a path correspond one by one.

* `parsePattern_eq` and `splitPathSv_eq`: both splitters cut at slashes, the one for paths up to
  `MAX_SEGMENTS` pieces;
* `matchRoute_spec`: a path is matched exactly when these pieces correspond to the segments, with
  the captures of the correspondence appended;
* `resolve_addAll`: the router finds the first route with the method that matches.
-/

namespace Lundi

open Search Pieces

/-! ### The two splitters -/

/-- A leading slash belongs to no piece. -/
theorem pieces_stripLeadingSlash (s : Bytes) :
    pieces slash (stripLeadingSlash s) = pieces slash s := by
  rw [stripLeadingSlash]
  split
  next h =>
    obtain ⟨t, rfl⟩ := List.head?_eq_some_iff.mp h
    simp
  next => rfl

theorem length_stripLeadingSlash_le (s : Bytes) : (stripLeadingSlash s).length ≤ s.length := by
  rw [stripLeadingSlash]
  split
  · rw [List.length_drop]
    omega
  · exact le_rfl

/-- The loop of `parse_pattern` turns each piece into a segment. -/
theorem parsePatternLoop_eq {budget : ℕ} {sv : Bytes} (h : sv.length ≤ budget) :
    parsePatternLoop budget sv = (pieces slash sv).map parsePatternPart := by
  induction budget generalizing sv with
  | zero =>
    obtain rfl := List.length_eq_zero_iff.mp (Nat.le_zero.mp h)
    simp [parsePatternLoop]
  | succ budget ih =>
    rw [parsePatternLoop]
    split
    next hnil => simp [hnil]
    next hne =>
      cases hfind : find [slash] sv with
      | none =>
        rw [pieces_of_notMem (find_singleton_eq_none_iff.mp hfind) hne]
        rfl
      | some i =>
        -- The part in front of the slash, then the rest.
        obtain ⟨hnot, hcut⟩ := eq_append_of_find_singleton hfind
        have hrest : (sv.drop (i + 1)).length ≤ budget := by
          rw [List.length_drop]
          omega
        conv_rhs => rw [hcut, pieces_append_cons_of_notMem hnot, List.map_append]
        simp only [ih hrest]
        split <;> rfl

/-- A pattern is parsed piece by piece. -/
theorem parsePattern_eq (pattern : Bytes) :
    parsePattern pattern = (pieces slash pattern).map parsePatternPart := by
  rw [parsePattern, parsePatternLoop_eq (length_stripLeadingSlash_le pattern),
    pieces_stripLeadingSlash]

/-- The loop of `split_path_sv` fills the free places of the array. -/
theorem splitPathLoop_eq {budget : ℕ} {path : Bytes} {segments : List Bytes}
    (h : path.length ≤ budget) (hfree : segments.length ≤ maxSegments) :
    splitPathLoop budget path segments =
      segments ++ (pieces slash path).take (maxSegments - segments.length) := by
  induction budget generalizing path segments with
  | zero =>
    obtain rfl := List.length_eq_zero_iff.mp (Nat.le_zero.mp h)
    simp [splitPathLoop]
  | succ budget ih =>
    rw [splitPathLoop]
    split
    next hstop =>
      rcases hstop with rfl | hfull
      · simp
      · rw [Nat.sub_eq_zero_of_le hfull, List.take_zero, List.append_nil]
    next hgo =>
      push Not at hgo
      obtain ⟨hne, hlt⟩ := hgo
      have hplace : 1 ≤ maxSegments - segments.length := by omega
      cases hfind : find [slash] path with
      | none =>
        rw [pieces_of_notMem (find_singleton_eq_none_iff.mp hfind) hne,
          List.take_of_length_le hplace]
      | some i =>
        obtain ⟨hnot, hcut⟩ := eq_append_of_find_singleton hfind
        have hrest : (path.drop (i + 1)).length ≤ budget := by
          rw [List.length_drop]
          omega
        conv_rhs => rw [hcut, pieces_append_cons_of_notMem hnot]
        -- An empty part takes no place.
        by_cases hpart : path.take i = []
        · simp only [hpart, if_true, List.nil_append]
          exact ih hrest hfree
        · simp only [hpart, if_false]
          rw [ih hrest (by rw [List.length_append]; exact hlt), List.append_assoc,
            List.singleton_append, List.length_append, List.length_singleton,
            List.singleton_append, List.take_cons hplace]
          congr 3

/-- A path is split into its first `MAX_SEGMENTS` pieces. -/
theorem splitPathSv_eq (path : Bytes) :
    splitPathSv path = (pieces slash path).take maxSegments := by
  rw [splitPathSv, splitPathLoop_eq (length_stripLeadingSlash_le path) (Nat.zero_le _),
    pieces_stripLeadingSlash]
  rfl

/-! ### Correspondence -/

/-- A piece corresponds to a segment, with what is captured of it. -/
inductive Captures : RouteSegment → Bytes → List ParamEntry → Prop
  /-- A literal is equal to the piece. -/
  | literal (text : Bytes) : Captures (.literal text) text []
  /-- An integer parameter is the number that the piece as a whole denotes. -/
  | int (name : Bytes) {piece : Bytes} {n : ℤ} (h : IsIntNumeral piece n) :
    Captures (.paramInt name) piece [⟨name, .int n⟩]
  /-- A string parameter is any piece. -/
  | string (name piece : Bytes) : Captures (.paramString name) piece [⟨name, .string piece⟩]

/-- The pieces correspond to the segments one by one, with the captures in pattern order. -/
inductive Matches : List RouteSegment → List Bytes → List ParamEntry → Prop
  | nil : Matches [] [] []
  | cons {seg : RouteSegment} {piece : Bytes} {captured : List ParamEntry}
    {pattern : List RouteSegment} {parts : List Bytes} {captures : List ParamEntry}
    (head : Captures seg piece captured) (tail : Matches pattern parts captures) :
    Matches (seg :: pattern) (piece :: parts) (captured ++ captures)

theorem Matches.length_eq {pattern : List RouteSegment} {parts : List Bytes}
    {captures : List ParamEntry} (h : Matches pattern parts captures) :
    parts.length = pattern.length := by
  induction h with
  | nil => rfl
  | cons _ _ ih => rw [List.length_cons, List.length_cons, ih]

/-- `from_chars` with its end-pointer check accepts the decimal forms of an `int`. -/
theorem captures_paramInt_iff {name val : Bytes} {captured : List ParamEntry} :
    Captures (.paramInt name) val captured ↔
      ∃ n, fromCharsInt val = .ok (n, val.length) ∧ captured = [⟨name, .int n⟩] := by
  constructor
  · rintro ⟨⟩
    next n h => exact ⟨n, fromCharsInt_eq_ok_iff.mpr h, rfl⟩
  · rintro ⟨n, h, rfl⟩
    exact Captures.int name (fromCharsInt_eq_ok_iff.mp h)

/-- What a segment does with its piece: it captures, or the parameters are cut back. -/
theorem matchSegments_cons (initialSize : ℕ) (seg : RouteSegment) (pattern : List RouteSegment)
    (val : Bytes) (parts : List Bytes) (params : List ParamEntry) :
    (∃ captured, Captures seg val captured ∧
      matchSegments initialSize (seg :: pattern) (val :: parts) params =
        matchSegments initialSize pattern parts (params ++ captured)) ∨
    ((∀ captured, ¬ Captures seg val captured) ∧
      matchSegments initialSize (seg :: pattern) (val :: parts) params =
        (false, params.take initialSize)) := by
  cases seg with
  | literal text =>
    by_cases h : val = text
    · subst h
      refine Or.inl ⟨[], Captures.literal val, ?_⟩
      simp [matchSegments]
    · refine Or.inr ⟨?_, by simp [matchSegments, h]⟩
      rintro captured ⟨⟩
      exact h rfl
  | paramInt name =>
    -- An integer counts only when the parser reads the piece to its end.
    by_cases h : ∃ n, fromCharsInt val = .ok (n, val.length)
    · obtain ⟨n, hn⟩ := h
      refine Or.inl ⟨_, captures_paramInt_iff.mpr ⟨n, hn, rfl⟩, ?_⟩
      simp [matchSegments, hn]
    · refine Or.inr ⟨fun captured hc => ?_, ?_⟩
      · obtain ⟨n, hn, -⟩ := captures_paramInt_iff.mp hc
        exact h ⟨n, hn⟩
      · rw [matchSegments]
        split
        next num consumed hread =>
          have hne : consumed ≠ val.length := by
            rintro rfl
            exact h ⟨num, hread⟩
          rw [if_pos hne]
        next => rfl
  -- A string parameter takes any piece.
  | paramString name => exact Or.inl ⟨_, Captures.string name val, rfl⟩

/-- The segment loop on as many pieces as segments: the captures of the correspondence are
appended, or everything behind the initial size is gone. -/
theorem matchSegments_spec {initialSize : ℕ} {pattern : List RouteSegment} {parts : List Bytes}
    {params : List ParamEntry} (hlen : parts.length = pattern.length)
    (hsize : initialSize ≤ params.length) :
    (∃ captures, Matches pattern parts captures ∧
      matchSegments initialSize pattern parts params = (true, params ++ captures)) ∨
    ((∀ captures, ¬ Matches pattern parts captures) ∧
      matchSegments initialSize pattern parts params = (false, params.take initialSize)) := by
  induction pattern generalizing parts params with
  | nil =>
    obtain rfl := List.length_eq_zero_iff.mp hlen
    exact Or.inl ⟨[], Matches.nil, by simp [matchSegments]⟩
  | cons seg pattern ih =>
    obtain ⟨val, parts, rfl⟩ := List.exists_cons_of_length_eq_add_one hlen
    rcases matchSegments_cons initialSize seg pattern val parts params with
      ⟨captured, hc, hstep⟩ | ⟨hno, hstep⟩
    · rw [hstep]
      have hsize' : initialSize ≤ (params ++ captured).length := by
        rw [List.length_append]
        omega
      rcases ih (Nat.succ_injective hlen) hsize' with ⟨captures, hm, hrest⟩ | ⟨hno, hrest⟩
      · refine Or.inl ⟨captured ++ captures, Matches.cons hc hm, ?_⟩
        rw [hrest, List.append_assoc]
      · -- A later segment fails: the captures of this one are cut off as well.
        refine Or.inr ⟨?_, by rw [hrest, List.take_append_of_le_length hsize]⟩
        intro captures h
        cases h with
        | cons _ htail => exact hno _ htail
    · refine Or.inr ⟨?_, hstep⟩
      intro captures h
      cases h with
      | cons hhead _ => exact hno _ hhead

/-- What `match_route` does with the pieces that the splitter keeps. -/
theorem matchRoute_spec (pattern : List RouteSegment) (path : Bytes) (params : List ParamEntry) :
    (∃ captures, Matches pattern ((pieces slash path).take maxSegments) captures ∧
      matchRoute pattern path params = (true, params ++ captures)) ∨
    ((∀ captures, ¬ Matches pattern ((pieces slash path).take maxSegments) captures) ∧
      matchRoute pattern path params = (false, params)) := by
  rw [matchRoute, ← splitPathSv_eq]
  by_cases hlen : (splitPathSv path).length = pattern.length
  · simp only [hlen, ne_eq, not_true, if_false]
    have h := matchSegments_spec hlen (le_refl params.length)
    rwa [List.take_length] at h
  · rw [if_pos hlen]
    exact Or.inr ⟨fun captures h => hlen h.length_eq, rfl⟩

/-- What a segment captures of a piece is determined. -/
theorem Captures.unique {seg : RouteSegment} {piece : Bytes} {cs cs' : List ParamEntry}
    (h : Captures seg piece cs) (h' : Captures seg piece cs') : cs = cs' := by
  cases seg with
  | literal text =>
    cases h
    cases h'
    rfl
  | paramInt name =>
    obtain ⟨n, hn, rfl⟩ := captures_paramInt_iff.mp h
    obtain ⟨n', hn', rfl⟩ := captures_paramInt_iff.mp h'
    rw [hn] at hn'
    cases hn'
    rfl
  | paramString name =>
    cases h
    cases h'
    rfl

/-- So are the captures of a path. -/
theorem Matches.unique {pattern : List RouteSegment} {parts : List Bytes}
    {cs cs' : List ParamEntry} (h : Matches pattern parts cs) (h' : Matches pattern parts cs') :
    cs = cs' := by
  induction h generalizing cs' with
  | nil =>
    cases h'
    rfl
  | cons hhead _ ih =>
    cases h' with
    | cons hhead' htail' => rw [hhead.unique hhead', ih htail']

/-- Matching is exact on the pieces that the splitter keeps: it succeeds when they correspond to
the segments, the captures of the correspondence are appended, and nothing is when it fails. -/
theorem matchRoute_exact (pattern path : Bytes) (params : List ParamEntry) :
    let parts := (pieces slash path).take maxSegments
    let result := matchRoute (parsePattern pattern) path params
    (result.1 = true ↔ ∃ captures, Matches (parsePattern pattern) parts captures) ∧
      (∀ captures, Matches (parsePattern pattern) parts captures →
        result.2 = params ++ captures) ∧
      (result.1 = false → result.2 = params) := by
  rcases matchRoute_spec (parsePattern pattern) path params with
    ⟨captures, hm, hresult⟩ | ⟨hno, hresult⟩
  · simp only [hresult]
    refine ⟨iff_of_true trivial ⟨captures, hm⟩, fun captures' hm' => ?_, fun h => ?_⟩
    · rw [hm.unique hm']
    · exact absurd h (by simp)
  · simp only [hresult]
    refine ⟨iff_of_false (by simp) ?_, fun captures hm => absurd hm (hno captures),
      fun _ => trivial⟩
    rintro ⟨captures, hm⟩
    exact hno captures hm

/-- A path of seventeen pieces is matched by a pattern of sixteen segments. -/
theorem matchRoute_seventeen :
    ¬ ((matchRoute (parsePattern (ascii "/a/b/c/d/e/f/g/h/i/j/k/l/m/n/o/p"))
        (ascii "/a/b/c/d/e/f/g/h/i/j/k/l/m/n/o/p/q") []).1 = true ↔
      ∃ captures, Matches (parsePattern (ascii "/a/b/c/d/e/f/g/h/i/j/k/l/m/n/o/p"))
        (pieces slash (ascii "/a/b/c/d/e/f/g/h/i/j/k/l/m/n/o/p/q")) captures) := by
  intro h
  obtain ⟨captures, hm⟩ := h.mp (by decide)
  exact absurd hm.length_eq (by decide)

/-! ### The route table -/

namespace Router

variable {H : Type}

/-- A call of `add`. -/
structure AddCall (H : Type) where
  method : Bytes
  pattern : Bytes
  handler : H

/-- The table that a sequence of calls of `add` builds. -/
def addAll (calls : List (AddCall H)) : Router H :=
  calls.foldl (fun r call => r.add call.method call.pattern call.handler) ⟨[]⟩

/-- The entry of a call. -/
def AddCall.entry (call : AddCall H) : RouteEntry H :=
  ⟨call.method, parsePattern call.pattern, call.handler⟩

theorem routes_addAll (calls : List (AddCall H)) :
    (addAll calls).routes = calls.map AddCall.entry := by
  have h : ∀ r : Router H,
      (calls.foldl (fun r call => r.add call.method call.pattern call.handler) r).routes =
        r.routes ++ calls.map AddCall.entry := by
    induction calls with
    | nil => simp
    | cons call calls ih =>
      intro r
      rw [List.foldl_cons, ih, add, List.map_cons, List.append_assoc]
      rfl
  exact h ⟨[]⟩

/-- The call has registered a route with this method that matches the path. -/
def AddCall.accepts (method path : Bytes) (call : AddCall H) : Bool :=
  call.method == method && (matchRoute (parsePattern call.pattern) path []).1

/-- What a lookup of the path returns: the handler of the route that has been found with the
captures of that route and nothing else, or no handler and no parameters. -/
inductive LookupResult (path : Bytes) : Option (AddCall H) → Option H × List ParamEntry → Prop
  | hit {call : AddCall H} {captures : List ParamEntry}
    (h : Matches (parsePattern call.pattern) ((pieces slash path).take maxSegments) captures) :
    LookupResult path (some call) (some call.handler, captures)
  | miss : LookupResult path none (none, [])

/-- The router finds the first route that accepts. -/
theorem resolve_addAll (calls : List (AddCall H)) (method path : Bytes) :
    LookupResult path (calls.find? (AddCall.accepts method path))
      ((addAll calls).resolve method path []) := by
  rw [resolve, routes_addAll]
  induction calls with
  | nil => exact LookupResult.miss
  | cons call calls ih =>
    rw [List.find?_cons, List.map_cons, resolveLoop]
    by_cases hmethod : call.method = method
    · have heq : ¬ call.entry.method ≠ method := fun h => h hmethod
      rw [if_neg heq]
      rcases matchRoute_spec (parsePattern call.pattern) path [] with
        ⟨captures, hm, hresult⟩ | ⟨-, hresult⟩
      · have haccept : call.accepts method path = true := by
          simp [AddCall.accepts, hmethod, hresult]
        rw [haccept, AddCall.entry, hresult]
        exact LookupResult.hit hm
      · -- What this candidate has captured is gone.
        have haccept : call.accepts method path = false := by
          simp [AddCall.accepts, hresult]
        rw [haccept, AddCall.entry, hresult]
        exact ih
    · have hne : call.entry.method ≠ method := hmethod
      have haccept : call.accepts method path = false := by
        simp [AddCall.accepts, hmethod]
      rw [haccept, if_pos hne]
      exact ih

end Router

end Lundi
