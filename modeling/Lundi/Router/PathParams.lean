import Lundi.Core.RequestTarget
import Lundi.Router.Matching

/-!
# String parameters in the path

A string parameter on its way from the request target to the handler: the path is decoded as a
whole, cut at slashes and matched.

* `matches_pattern_iff`: what a pattern with one string parameter and literals elsewhere matches;
* `param_round_trip_iff`: exactly when an encoded parameter comes back.
-/

namespace Lundi

open Search Pieces

/-! ### Patterns with one string parameter -/

/-- A pattern with a string parameter between two parts that end and start at a slash and hold
literals only. The path splitter has a place for each segment. -/
structure StringRoute where
  pre : Bytes
  name : Bytes
  post : Bytes
  pre_end : pre = [] ∨ pre.getLast? = some slash
  post_start : post = [] ∨ post.head? = some slash
  slash_notMem : slash ∉ name
  literal : ∀ seg ∈ parsePattern pre ++ parsePattern post, ∃ text, seg = .literal text
  length_le : (parsePattern pre).length + 1 + (parsePattern post).length ≤ maxSegments

/-- A piece that is parsed as a literal is its text. -/
theorem eq_of_parsePatternPart {part text : Bytes} (h : parsePatternPart part = .literal text) :
    part = text := by
  unfold parsePatternPart at h
  split at h
  · simp only at h
    split at h
    · split at h <;> exact absurd h (by simp)
    · exact absurd h (by simp)
  · simpa using h

/-- The piece of a string parameter. -/
theorem parsePatternPart_string (name : Bytes) :
    parsePatternPart (ascii "<string:" ++ name ++ ascii ">") = .paramString name := by
  have hpart : ascii "<string:" ++ name ++ ascii ">" =
      60 :: ((ascii "string" ++ colon :: name) ++ [62]) := rfl
  have hlast : (60 :: ((ascii "string" ++ colon :: name) ++ [62])).getLast? = some 62 := by
    rw [← List.cons_append, List.getLast?_concat]
  have hinner : ((60 :: ((ascii "string" ++ colon :: name) ++ [62])).drop 1).take
      ((60 :: ((ascii "string" ++ colon :: name) ++ [62])).length - 2) =
        ascii "string" ++ colon :: name := by
    have hlen : (60 :: ((ascii "string" ++ colon :: name) ++ [62])).length - 2 =
        (ascii "string" ++ colon :: name).length := by simp
    rw [hlen, List.drop_one, List.tail_cons, List.take_left]
  have hfind : find [colon] (ascii "string" ++ colon :: name) = some 6 :=
    find_singleton_append (by decide) name
  rw [hpart, parsePatternPart, if_pos ⟨rfl, hlast⟩]
  simp only [hinner, hfind]
  -- The type in front of the colon is not that of an integer.
  rw [if_neg]
  · rfl
  · have htake : (ascii "string" ++ colon :: name).take 6 = ascii "string" := rfl
    rw [htake]
    decide

/-- Literals match the pieces they have been parsed from. -/
theorem matches_literals_iff {pattern : Bytes}
    (h : ∀ seg ∈ parsePattern pattern, ∃ text, seg = .literal text) (parts : List Bytes)
    (captures : List ParamEntry) :
    Matches (parsePattern pattern) parts captures ↔
      parts = pieces slash pattern ∧ captures = [] := by
  rw [parsePattern_eq] at h ⊢
  generalize pieces slash pattern = ps at h ⊢
  induction ps generalizing parts captures with
  | nil =>
    constructor
    · rintro ⟨⟩
      exact ⟨rfl, rfl⟩
    · rintro ⟨rfl, rfl⟩
      exact Matches.nil
  | cons p ps ih =>
    rw [List.map_cons, List.forall_mem_cons] at h
    -- The literal of a piece is the piece itself, so that it takes no other.
    obtain ⟨⟨text, htext⟩, hps⟩ := h
    have ih := fun parts captures => ih parts captures hps
    obtain rfl := eq_of_parsePatternPart htext
    rw [List.map_cons, htext]
    constructor
    · intro hm
      cases hm with
      | cons hhead htail =>
        cases hhead
        obtain ⟨rfl, rfl⟩ := (ih _ _).mp htail
        exact ⟨rfl, rfl⟩
    · rintro ⟨rfl, rfl⟩
      exact Matches.cons (Captures.literal p) ((ih _ _).mpr ⟨rfl, rfl⟩)

theorem matches_append_iff {front back : List RouteSegment} {parts : List Bytes}
    {captures : List ParamEntry} :
    Matches (front ++ back) parts captures ↔
      ∃ p₁ p₂ c₁ c₂, parts = p₁ ++ p₂ ∧ captures = c₁ ++ c₂ ∧
        Matches front p₁ c₁ ∧ Matches back p₂ c₂ := by
  induction front generalizing parts captures with
  | nil =>
    constructor
    · intro hm
      exact ⟨[], parts, [], captures, rfl, rfl, Matches.nil, hm⟩
    · rintro ⟨p₁, p₂, c₁, c₂, rfl, rfl, ⟨⟩, hm⟩
      exact hm
  | cons seg front ih =>
    constructor
    · intro hm
      cases hm with
      | cons hhead htail =>
        obtain ⟨p₁, p₂, c₁, c₂, rfl, rfl, hfront, hback⟩ := ih.mp htail
        refine ⟨_ :: p₁, p₂, _ ++ c₁, c₂, rfl, ?_, Matches.cons hhead hfront, hback⟩
        rw [List.append_assoc]
    · rintro ⟨p₁, p₂, c₁, c₂, rfl, rfl, hfront, hback⟩
      cases hfront with
      | cons hhead htail =>
        rw [List.append_assoc]
        exact Matches.cons hhead (ih.mpr ⟨_, p₂, _, c₂, rfl, rfl, htail, hback⟩)

/-- What stands in a pattern reaches the router as it is: no query starts in it, and nothing in it
is decoded. -/
def Verbatim (l : Bytes) : Prop := 63 ∉ l ∧ Undecoded l

namespace StringRoute

variable (r : StringRoute)

/-- The pattern as it is registered. -/
def pattern : Bytes := r.pre ++ ((ascii "<string:" ++ r.name ++ ascii ">") ++ r.post)

/-- The pattern with a text in the place of the parameter. -/
def target (text : Bytes) : Bytes := r.pre ++ (text ++ r.post)

/-- A text without slashes is a piece of its own between the two parts. -/
theorem pieces_around {text : Bytes} (hne : text ≠ []) (hslash : slash ∉ text) :
    pieces slash (r.pre ++ (text ++ r.post)) =
      pieces slash r.pre ++ (text :: pieces slash r.post) := by
  have hback : pieces slash (text ++ r.post) = text :: pieces slash r.post := by
    have hcut : pieces slash (text ++ r.post) = pieces slash text ++ pieces slash r.post := by
      rw [pieces_append_iff]
      rcases r.post_start with hnil | hstart
      · exact Or.inr (Or.inl hnil)
      · exact Or.inr (Or.inr (Or.inr hstart))
    rw [hcut, pieces_of_notMem hslash hne, List.singleton_append]
  have hfront : pieces slash (r.pre ++ (text ++ r.post)) =
      pieces slash r.pre ++ pieces slash (text ++ r.post) := by
    rw [pieces_append_iff]
    rcases r.pre_end with hnil | hend
    · exact Or.inl hnil
    · exact Or.inr (Or.inr (Or.inl hend))
  rw [hfront, hback]

/-- The segments of the pattern. -/
theorem parsePattern_pattern :
    parsePattern r.pattern =
      parsePattern r.pre ++ (.paramString r.name :: parsePattern r.post) := by
  have hslash : slash ∉ ascii "<string:" ++ r.name ++ ascii ">" := by
    simp only [List.mem_append, not_or]
    exact ⟨⟨by decide, r.slash_notMem⟩, by decide⟩
  have hpart := parsePatternPart_string r.name
  rw [pattern, parsePattern_eq, r.pieces_around (by simp [ascii]) hslash, List.map_append,
    List.map_cons, hpart, parsePattern_eq, parsePattern_eq]

/-- The pattern matches the literals with any piece between them, which is captured. -/
theorem matches_pattern_iff {parts : List Bytes} {captures : List ParamEntry} :
    Matches (parsePattern r.pattern) parts captures ↔
      ∃ piece, parts = pieces slash r.pre ++ piece :: pieces slash r.post ∧
        captures = [⟨r.name, .string piece⟩] := by
  have hpre := matches_literals_iff fun seg hseg =>
    r.literal seg (List.mem_append_left (parsePattern r.post) hseg)
  have hpost := matches_literals_iff fun seg hseg =>
    r.literal seg (List.mem_append_right (parsePattern r.pre) hseg)
  rw [parsePattern_pattern, matches_append_iff]
  constructor
  · rintro ⟨p₁, p₂, c₁, c₂, rfl, rfl, hfront, hback⟩
    obtain ⟨rfl, rfl⟩ := (hpre _ _).mp hfront
    cases hback with
    | cons hhead htail =>
      obtain ⟨rfl, rfl⟩ := (hpost _ _).mp htail
      cases hhead
      exact ⟨_, rfl, rfl⟩
  · rintro ⟨piece, rfl, rfl⟩
    exact ⟨_, _, [], _, rfl, rfl, (hpre _ _).mpr ⟨rfl, rfl⟩,
      Matches.cons (Captures.string r.name piece) ((hpost _ _).mpr ⟨rfl, rfl⟩)⟩

/-! ### What the router gets -/

/-- The decoder works on the two parts and the parameter apart. -/
theorem urlDecode_target {s e : Bytes} (h : PercentEncoded s e) (tail : Bytes) :
    urlDecode (r.pre ++ (e ++ tail)) = urlDecode r.pre ++ (s ++ urlDecode tail) := by
  rw [← urlDecode_append_of_encoded h]
  rcases r.pre_end with hnil | hend
  · rw [hnil]
    rfl
  · obtain ⟨front, hfront⟩ := List.getLast?_eq_some_iff.mp hend
    have hpre : urlDecode r.pre = urlDecode front ++ [slash] := by
      rw [hfront, urlDecode_append_slash]
      rfl
    rw [hpre, hfront, List.append_assoc, List.singleton_append, urlDecode_append_slash,
      List.append_assoc, List.singleton_append]

/-- No query starts in a target whose literals have no question mark. -/
theorem question_notMem_target {s e : Bytes} (h : PercentEncoded s e) (hpre : 63 ∉ r.pre)
    (hpost : 63 ∉ r.post) : 63 ∉ r.target e := by
  rw [target]
  simp only [List.mem_append, not_or]
  exact ⟨hpre, h.question_notMem, hpost⟩

/-- The bytes other than slashes that a match accounts for. -/
theorem nonSlash_prefix_of_pieces {path piece : Bytes}
    (h : (pieces slash path).take maxSegments =
      pieces slash r.pre ++ piece :: pieces slash r.post) :
    nonSlash r.pre ++ (piece ++ nonSlash r.post) <+: nonSlash path := by
  have hflat : ((pieces slash path).take maxSegments).flatten =
      nonSlash r.pre ++ (piece ++ nonSlash r.post) := by
    rw [h, List.flatten_append, List.flatten_cons, flatten_pieces, flatten_pieces]
    rfl
  have hall : (pieces slash path).flatten = nonSlash path := flatten_pieces path
  rw [← hflat, ← hall]
  conv_rhs => rw [← List.take_append_drop maxSegments (pieces slash path), List.flatten_append]
  exact List.prefix_append _ _

/-- A query in front of the parameter would take bytes of the literals away. -/
theorem question_notMem_pre {e : Bytes} (h : (nonSlash r.pre).length ≤
    (nonSlash (urlDecode (beforeQuery (r.target e)))).length) : 63 ∉ r.pre := by
  intro hmem
  obtain ⟨a, b, hcut, hnot⟩ := List.eq_append_cons_of_mem hmem
  have htarget : r.target e = a ++ 63 :: (b ++ (e ++ r.post)) := by
    rw [target, hcut, List.append_assoc, List.cons_append]
  rw [htarget, beforeQuery_append_cons hnot] at h
  have hle := length_nonSlash_urlDecode_le a
  have hmore := length_nonSlash_append_cons (show (63 : UInt8) ≠ slash by decide) a b
  rw [← hcut] at hmore
  omega

/-- So would one behind it. -/
theorem question_notMem_post {s e : Bytes} (he : PercentEncoded s e) (hpre : 63 ∉ r.pre)
    (h : (nonSlash r.pre).length + ((nonSlash s).length + (nonSlash r.post).length) ≤
      (nonSlash (urlDecode (beforeQuery (r.target e)))).length) : 63 ∉ r.post := by
  intro hmem
  obtain ⟨a, b, hcut, hnot⟩ := List.eq_append_cons_of_mem hmem
  have htarget : r.target e = (r.pre ++ (e ++ a)) ++ 63 :: b := by
    rw [target, hcut]
    simp
  have hfree : 63 ∉ r.pre ++ (e ++ a) := by
    simp only [List.mem_append, not_or]
    exact ⟨hpre, he.question_notMem, hnot⟩
  rw [htarget, beforeQuery_append_cons hfree, r.urlDecode_target he, nonSlash_append,
    nonSlash_append] at h
  simp only [List.length_append] at h
  have hle := length_nonSlash_urlDecode_le r.pre
  have hle' := length_nonSlash_urlDecode_le a
  have hmore := length_nonSlash_append_cons (show (63 : UInt8) ≠ slash by decide) a b
  rw [← hcut] at hmore
  omega

/-- Decoding would take bytes away as well, or replace them. -/
theorem undecoded_of_prefix {s e : Bytes} (he : PercentEncoded s e)
    (h : nonSlash r.pre ++ (nonSlash s ++ nonSlash r.post) <+: nonSlash (urlDecode (r.target e))) :
    Undecoded r.pre ∧ Undecoded r.post := by
  rw [target, r.urlDecode_target he, nonSlash_append, nonSlash_append] at h
  have hle := length_nonSlash_urlDecode_le r.pre
  have hle' := length_nonSlash_urlDecode_le r.post
  have hlen := h.length_le
  simp only [List.length_append] at hlen
  have heq := h.eq_of_length (by simp only [List.length_append]; omega)
  obtain ⟨hfront, hback⟩ := List.append_inj heq (by omega)
  have hend := List.append_cancel_left hback
  exact ⟨undecoded_of_nonSlash_eq hfront.symm, undecoded_of_nonSlash_eq hend.symm⟩

/-- The router gets the parameter between the literals exactly when it holds no slash and the
literals are not changed. -/
theorem pieces_path_iff {s e : Bytes} (hs : s ≠ []) (he : PercentEncoded s e) :
    (pieces slash (urlDecode (beforeQuery (r.target e)))).take maxSegments =
        pieces slash r.pre ++ s :: pieces slash r.post ↔
      slash ∉ s ∧ Verbatim r.pre ∧ Verbatim r.post := by
  constructor
  · intro h
    have hslash : slash ∉ s := by
      have hmem : s ∈ (pieces slash (urlDecode (beforeQuery (r.target e)))).take maxSegments := by
        rw [h]
        simp
      exact (mem_pieces (List.mem_of_mem_take hmem)).2
    have hself : nonSlash s = s := filter_ne_of_notMem hslash
    have hprefix := r.nonSlash_prefix_of_pieces h
    have hlen := hprefix.length_le
    simp only [List.length_append] at hlen
    have hpre : 63 ∉ r.pre := r.question_notMem_pre (Nat.le_of_add_right_le hlen)
    have hpost : 63 ∉ r.post := r.question_notMem_post he hpre (by rwa [hself])
    rw [beforeQuery_of_notMem (r.question_notMem_target he hpre hpost)] at hprefix
    obtain ⟨hpreSame, hpostSame⟩ := r.undecoded_of_prefix he (by rwa [hself])
    exact ⟨hslash, ⟨hpre, hpreSame⟩, ⟨hpost, hpostSame⟩⟩
  · rintro ⟨hslash, ⟨hpre, hpreSame⟩, ⟨hpost, hpostSame⟩⟩
    rw [beforeQuery_of_notMem (r.question_notMem_target he hpre hpost), target,
      r.urlDecode_target he, urlDecode_eq_self hpreSame, urlDecode_eq_self hpostSame,
      r.pieces_around hs hslash]
    -- There is a place for each piece.
    apply List.take_of_length_le
    have hlen := r.length_le
    rw [parsePattern_eq, parsePattern_eq, List.length_map, List.length_map] at hlen
    rw [List.length_append, List.length_cons]
    omega

end StringRoute

/-! ### The round trip -/

/-- The route with the handler is found, and its handler reads a text in the parameter. -/
def Recovers {H : Type} (router : Router H) (req : Request) (handler : H) (name s : Bytes) :
    Prop :=
  let found := router.resolve req.method.bytes req.path req.params
  found.1 = some handler ∧ ({ req with params := found.2 } : Request).paramStr name = .ok s

/-- A lookup among calls of which at most one accepts. -/
theorem find?_accepts {H : Type} {method path : Bytes} {before after : List (Router.AddCall H)}
    (hothers : ∀ c ∈ before ++ after, c.accepts method path = false) (call : Router.AddCall H) :
    (before ++ call :: after).find? (Router.AddCall.accepts method path) =
      if call.accepts method path then some call else none := by
  have hbefore : before.find? (Router.AddCall.accepts method path) = none := by
    rw [List.find?_eq_none]
    intro c hc
    simp [hothers c (List.mem_append_left after hc)]
  have hafter : after.find? (Router.AddCall.accepts method path) = none := by
    rw [List.find?_eq_none]
    intro c hc
    simp [hothers c (List.mem_append_right before hc)]
  rw [List.find?_append, hbefore, Option.none_or, List.find?_cons, hafter]
  cases call.accepts method path <;> rfl

/-- Exactly when a string parameter comes back: a request asks for a pattern with an encoded text
in the place of its string parameter, and no other route accepts the request. The route is found
and its handler reads the text if and only if the text holds no slash, and the literals of the
pattern hold no question mark, no plus and no escape. -/
theorem param_round_trip_iff {H : Type} (r : StringRoute) {s e : Bytes} (hs : s ≠ [])
    (he : PercentEncoded s e) {data : StringView} {method : Bytes}
    (hrequest : HasRequestLine data method (r.target e)) (handler : H)
    (before after : List (Router.AddCall H))
    (hothers : ∀ c ∈ before ++ after, c.accepts method (parseHeaders data).path = false) :
    Recovers (Router.addAll (before ++ ⟨method, r.pattern, handler⟩ :: after))
        (parseHeaders data) handler r.name s ↔
      slash ∉ s ∧ Verbatim r.pre ∧ Verbatim r.post := by
  obtain ⟨hm, ht, version, rest, hline, hdata⟩ := hrequest
  obtain ⟨hmethod, htarget⟩ := requestLine_parseHeaders hm ht hline hdata
  have hpath := path_parseHeaders data
  rw [htarget] at hpath
  rw [← r.pieces_path_iff hs he, ← hpath]
  have hlookup := Router.resolve_addAll (before ++ ⟨method, r.pattern, handler⟩ :: after) method
    (parseHeaders data).path
  rw [find?_accepts hothers] at hlookup
  simp only [Recovers, hmethod, params_parseHeaders]
  generalize (Router.addAll _).resolve method (parseHeaders data).path [] = found at hlookup ⊢
  -- The route matches exactly if the path has the pieces of the pattern with the text in between.
  constructor
  · rintro ⟨hfound, hread⟩
    split at hlookup
    next haccepts =>
      cases hlookup with
      | hit hmatch =>
        obtain ⟨piece, hpieces, rfl⟩ := r.matches_pattern_iff.mp hmatch
        have hpiece : piece = s := by simpa [Request.paramStr] using hread
        rw [hpieces, hpiece]
    next =>
      cases hlookup
      exact absurd hfound (by simp)
  · intro hpieces
    have hmatch := r.matches_pattern_iff.mpr ⟨s, hpieces, rfl⟩
    have haccepts : Router.AddCall.accepts method (parseHeaders data).path
        ⟨method, r.pattern, handler⟩ = true := by
      rcases matchRoute_spec (parsePattern r.pattern) (parseHeaders data).path [] with
        ⟨captures, -, hresult⟩ | ⟨hno, -⟩
      · simp [Router.AddCall.accepts, hresult]
      · exact absurd hmatch (hno _)
    rw [haccepts, if_pos rfl] at hlookup
    cases hlookup with
    | hit hmatch' =>
      rw [hmatch'.unique hmatch]
      exact ⟨rfl, by simp [Request.paramStr]⟩

theorem literal_files :
    ∀ seg ∈ parsePattern (ascii "/files/") ++ parsePattern [], ∃ text, seg = .literal text := by
  have hsegments : parsePattern (ascii "/files/") ++ parsePattern [] =
      [.literal (ascii "files")] := by decide
  intro seg hseg
  rw [hsegments, List.mem_singleton] at hseg
  exact ⟨_, hseg⟩

theorem fileRoute_bounds : (ascii "/files/").getLast? = some slash ∧ slash ∉ ascii "name" ∧
    (parsePattern (ascii "/files/")).length + 1 + (parsePattern []).length ≤ maxSegments := by
  decide

/-- `/files/<string:name>`. -/
def fileRoute : StringRoute :=
  ⟨ascii "/files/", ascii "name", [], Or.inr fileRoute_bounds.1, Or.inl rfl, fileRoute_bounds.2.1,
    literal_files, fileRoute_bounds.2.2⟩

/-- A request for a file. -/
def fileRequest (text : Bytes) : StringView :=
  ⟨.readBuffer 0, 0, (ascii "GET" ++ sp :: (fileRoute.target (percentEncode text) ++
    sp :: ascii "HTTP/1.1")) ++ cr :: lf :: crlf⟩

theorem requestLine_space : HasRequestLine (fileRequest (ascii "a b")) (ascii "GET")
    (fileRoute.target (percentEncode (ascii "a b"))) where
  sp_notMem_method := by decide
  sp_notMem_target := by decide
  line := ⟨ascii "HTTP/1.1", crlf, by decide, rfl⟩

theorem requestLine_slash : HasRequestLine (fileRequest (ascii "a/b")) (ascii "GET")
    (fileRoute.target (percentEncode (ascii "a/b"))) where
  sp_notMem_method := by decide
  sp_notMem_target := by decide
  line := ⟨ascii "HTTP/1.1", crlf, by decide, rfl⟩

theorem verbatim_files : Verbatim (ascii "/files/") :=
  ⟨by decide, undecoded_of_notMem (by decide) (by decide)⟩

/-- A name with a space comes back. -/
theorem param_round_trip_space :
    Recovers (Router.addAll [⟨ascii "GET", fileRoute.pattern, 1⟩])
      (parseHeaders (fileRequest (ascii "a b"))) 1 (ascii "name") (ascii "a b") := by
  have hencoded := percentEncoded_percentEncode (ascii "a b")
  apply (param_round_trip_iff fileRoute (by decide) hencoded requestLine_space 1 [] []
    (by simp)).mpr
  exact ⟨by decide, verbatim_files, ⟨by decide, undecoded_nil⟩⟩

/-- A name with a slash does not. -/
theorem not_param_round_trip_slash :
    ¬ ∀ (r : StringRoute) (s e : Bytes) (data : StringView) (method : Bytes), s ≠ [] →
      PercentEncoded s e → HasRequestLine data method (r.target e) →
      Recovers (Router.addAll [⟨method, r.pattern, 1⟩]) (parseHeaders data) 1 r.name s := by
  intro h
  have hslash := h fileRoute (ascii "a/b") _ _ _ (by decide)
    (percentEncoded_percentEncode (ascii "a/b")) requestLine_slash
  have hlost : ((Router.addAll [⟨ascii "GET", fileRoute.pattern, 1⟩]).resolve
      (parseHeaders (fileRequest (ascii "a/b"))).method.bytes
      (parseHeaders (fileRequest (ascii "a/b"))).path
      (parseHeaders (fileRequest (ascii "a/b"))).params).1 = none := by
    decide +kernel
  rw [hslash.1] at hlost
  exact absurd hlost (by simp)

end Lundi
