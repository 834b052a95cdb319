import Lundi.Router.PathParams

/-!
# Typed routes

A route is a list of parts between slashes: literals, and parameters for numbers and for strings. A
client puts arguments of these types in their places and encodes the path that results, with a
query behind it. The handler reads the parameters by their names.

* `RouteArgs`: the arguments of a route, so that there are no others;
* `recoversArgs_of_encodesTarget`: the arguments come back;
* `encodesTarget_percentEncode`: an encoding that a client can choose.
-/

namespace Lundi

open Search Pieces Decimal

/-- A part of a route. -/
inductive RoutePart
  | literal (text : Bytes)
  | int (name : Bytes)
  | string (name : Bytes)
  deriving DecidableEq

namespace RoutePart

/-- The part as it is written in a pattern. -/
def text : RoutePart → Bytes
  | literal text => text
  | int name => ascii "<int:" ++ name ++ ascii ">"
  | string name => ascii "<string:" ++ name ++ ascii ">"

/-- What it is parsed to. -/
def segment : RoutePart → RouteSegment
  | literal text => .literal text
  | int name => .paramInt name
  | string name => .paramString name

/-- The name of a parameter. -/
def name? : RoutePart → Option Bytes
  | literal _ => none
  | int name => some name
  | string name => some name

/-- It stands between slashes, and a literal does not look like a parameter. -/
def Ok : RoutePart → Prop
  | literal text => text ≠ [] ∧ slash ∉ text ∧ ¬ (text.head? = some 60 ∧ text.getLast? = some 62)
  | int name => slash ∉ name
  | string name => slash ∉ name

instance : ∀ p : RoutePart, Decidable p.Ok
  | literal text => inferInstanceAs (Decidable (text ≠ [] ∧ slash ∉ text ∧ ¬ _))
  | int name => inferInstanceAs (Decidable (slash ∉ name))
  | string name => inferInstanceAs (Decidable (slash ∉ name))

/-- The piece of a parameter for a number. -/
theorem parsePatternPart_int (name : Bytes) :
    parsePatternPart (ascii "<int:" ++ name ++ ascii ">") = .paramInt name := by
  have hpart : ascii "<int:" ++ name ++ ascii ">" =
      60 :: ((ascii "int" ++ colon :: name) ++ [62]) := rfl
  have hlast : (60 :: ((ascii "int" ++ colon :: name) ++ [62])).getLast? = some 62 := by
    rw [← List.cons_append, List.getLast?_concat]
  have hinner : ((60 :: ((ascii "int" ++ colon :: name) ++ [62])).drop 1).take
      ((60 :: ((ascii "int" ++ colon :: name) ++ [62])).length - 2) =
        ascii "int" ++ colon :: name := by
    have hlen : (60 :: ((ascii "int" ++ colon :: name) ++ [62])).length - 2 =
        (ascii "int" ++ colon :: name).length := by simp
    rw [hlen, List.drop_one, List.tail_cons, List.take_left]
  have hfind : find [colon] (ascii "int" ++ colon :: name) = some 3 :=
    find_singleton_append (by decide) name
  rw [hpart, parsePatternPart, if_pos ⟨rfl, hlast⟩]
  simp only [hinner, hfind]
  rw [if_pos (show (ascii "int" ++ colon :: name).take 3 = ascii "int" from rfl)]
  rfl

/-- A part is parsed to its segment. -/
theorem parsePatternPart_text {p : RoutePart} (h : p.Ok) : parsePatternPart p.text = p.segment := by
  cases p with
  | literal text => rw [RoutePart.text, parsePatternPart, if_neg h.2.2, segment]
  | int name => exact parsePatternPart_int name
  | string name => exact parsePatternPart_string name

theorem text_ok {p : RoutePart} (h : p.Ok) : p.text ≠ [] ∧ slash ∉ p.text := by
  cases p with
  | literal text => exact ⟨h.1, h.2.1⟩
  | int name =>
    refine ⟨by simp [RoutePart.text, ascii], ?_⟩
    simp only [RoutePart.text, List.mem_append, not_or]
    exact ⟨⟨by decide, h⟩, by decide⟩
  | string name =>
    refine ⟨by simp [RoutePart.text, ascii], ?_⟩
    simp only [RoutePart.text, List.mem_append, not_or]
    exact ⟨⟨by decide, h⟩, by decide⟩

end RoutePart

/-- The path with these pieces. -/
def pathOf (ps : List Bytes) : Bytes := slash :: [slash].intercalate ps

theorem pieces_pathOf {ps : List Bytes} (h : ∀ p ∈ ps, p ≠ [] ∧ slash ∉ p) :
    pieces slash (pathOf ps) = ps := by
  rw [pathOf, pieces_cons_self, pieces_intercalate h]

/-! ### Encoding piece by piece -/

theorem Encodes.append {literal : UInt8 → Bool} {s e s' e' : Bytes} (h : Encodes literal s e)
    (h' : Encodes literal s' e') : Encodes literal (s ++ s') (e ++ e') := by
  induction h with
  | nil => exact h'
  | literal hb _ ih => exact .literal hb ih
  | plus _ ih => exact .plus ih
  | escape hh hd hvalue _ ih => exact .escape hh hd hvalue ih

/-- What may stand literally in a piece may do so in a path. -/
theorem Encodes.path {s e : Bytes} (h : Encodes isUnreserved s e) : Encodes isPathLiteral s e := by
  induction h with
  | nil => exact .nil
  | literal hb _ ih => exact .literal (by rw [isPathLiteral, hb, Bool.true_or]) ih
  | plus _ ih => exact .plus ih
  | escape hh hd hvalue _ ih => exact .escape hh hd hvalue ih

/-- The pieces may be encoded one by one. -/
theorem encodesTarget_percentEncode (ps : List Bytes) :
    EncodesTarget (pathOf ps) [] (pathOf (ps.map percentEncode)) := by
  have hpiece : ∀ p, Encodes isPathLiteral p (percentEncode p) := fun p =>
    (percentEncoded_percentEncode p).encodes.path
  refine .path (.literal (by decide) ?_)
  induction ps with
  | nil => exact .nil
  | cons p ps ih =>
    cases ps with
    | nil => simpa using hpiece p
    | cons q qs =>
      simp only [List.map_cons, List.intercalate_cons_cons]
      exact ((hpiece p).append (.literal (by decide) .nil)).append ih

/-- A route with parameters of different names. The path splitter has a place for each part. -/
structure TypedRoute where
  parts : List RoutePart
  ok : ∀ p ∈ parts, p.Ok
  nodup : (parts.filterMap RoutePart.name?).Nodup
  length_le : parts.length ≤ maxSegments

namespace TypedRoute

variable (r : TypedRoute)

/-- The pattern as it is registered. -/
def pattern : Bytes := pathOf (r.parts.map RoutePart.text)

theorem parsePattern_pattern : parsePattern r.pattern = r.parts.map RoutePart.segment := by
  have htexts : ∀ p ∈ r.parts.map RoutePart.text, p ≠ [] ∧ slash ∉ p := by
    intro p hp
    obtain ⟨part, hpart, rfl⟩ := List.mem_map.mp hp
    exact RoutePart.text_ok (r.ok part hpart)
  rw [parsePattern_eq, pattern, pieces_pathOf htexts, List.map_map]
  exact List.map_congr_left fun part hpart => RoutePart.parsePatternPart_text (r.ok part hpart)

end TypedRoute

/-! ### Arguments -/

/-- The arguments of a list of parts: a number that fits an `int` for each parameter for numbers,
and a string that can be a piece of a path for each parameter for strings. -/
inductive RouteArgs : List RoutePart → Type
  | nil : RouteArgs []
  | literal {text : Bytes} {parts : List RoutePart} (rest : RouteArgs parts) :
    RouteArgs (.literal text :: parts)
  | int {name : Bytes} {parts : List RoutePart} (n : ℤ) (hn : -2 ^ 31 ≤ n ∧ n < 2 ^ 31)
    (rest : RouteArgs parts) : RouteArgs (.int name :: parts)
  | string {name : Bytes} {parts : List RoutePart} (s : Bytes) (hs : s ≠ [] ∧ slash ∉ s)
    (rest : RouteArgs parts) : RouteArgs (.string name :: parts)

namespace RouteArgs

variable {parts : List RoutePart}

/-- The pieces of the path: a number is written in decimal. -/
def pieces : ∀ {parts : List RoutePart}, RouteArgs parts → List Bytes
  | _, nil => []
  | .literal text :: _, literal rest => text :: rest.pieces
  | _, int n _ rest => signedDecimal n :: rest.pieces
  | _, string s _ rest => s :: rest.pieces

def values : ∀ {parts : List RoutePart}, RouteArgs parts → List ParamValue
  | _, nil => []
  | _, literal rest => rest.values
  | _, int n _ rest => .int n :: rest.values
  | _, string s _ rest => .string s :: rest.values

/-- What the router is to capture. -/
def captures : ∀ {parts : List RoutePart}, RouteArgs parts → List ParamEntry
  | _, nil => []
  | _, literal rest => rest.captures
  | .int name :: _, int n _ rest => ⟨name, .int n⟩ :: rest.captures
  | .string name :: _, string s _ rest => ⟨name, .string s⟩ :: rest.captures

theorem isIntNumeral_signedDecimal {n : ℤ} (hn : -2 ^ 31 ≤ n ∧ n < 2 ^ 31) :
    IsIntNumeral (signedDecimal n) n := by
  refine ⟨?_, hn⟩
  rw [signedDecimal]
  split
  next hneg =>
    refine Or.inr ⟨decimal n.natAbs, rfl, isNumeral_decimal _, ?_⟩
    rw [value_decimal]
    omega
  next hnonneg =>
    refine Or.inl ⟨isNumeral_decimal _, ?_⟩
    rw [value_decimal]
    omega

/-- A numeral is a piece of a path. -/
theorem signedDecimal_ok (n : ℤ) : signedDecimal n ≠ [] ∧ slash ∉ signedDecimal n := by
  have hdigits : slash ∉ decimal n.natAbs := fun h =>
    absurd (isDigit_of_mem_decimal h) (by decide)
  rw [signedDecimal]
  split
  · exact ⟨by simp, by simpa [show slash ≠ 45 by decide] using hdigits⟩
  · exact ⟨decimal_ne_nil _, hdigits⟩

theorem pieces_ok (args : RouteArgs parts) (h : ∀ p ∈ parts, p.Ok) :
    ∀ p ∈ args.pieces, p ≠ [] ∧ slash ∉ p := by
  induction args with
  | nil => exact fun p hp => absurd hp List.not_mem_nil
  | literal rest ih =>
    obtain ⟨htext, hparts⟩ := List.forall_mem_cons.mp h
    exact List.forall_mem_cons.mpr ⟨⟨htext.1, htext.2.1⟩, ih hparts⟩
  | int n hn rest ih =>
    exact List.forall_mem_cons.mpr ⟨signedDecimal_ok n, ih (List.forall_mem_cons.mp h).2⟩
  | string s hs rest ih =>
    exact List.forall_mem_cons.mpr ⟨hs, ih (List.forall_mem_cons.mp h).2⟩

theorem length_pieces (args : RouteArgs parts) : args.pieces.length = parts.length := by
  induction args with
  | nil => rfl
  | literal rest ih => exact congrArg (· + 1) ih
  | int n hn rest ih => exact congrArg (· + 1) ih
  | string s hs rest ih => exact congrArg (· + 1) ih

/-- The pieces correspond to the segments, with these captures. -/
theorem matches_pieces (args : RouteArgs parts) :
    Matches (parts.map RoutePart.segment) args.pieces args.captures := by
  induction args with
  | nil => exact Matches.nil
  | literal rest ih => exact Matches.cons (Captures.literal _) ih
  | int n hn rest ih => exact Matches.cons (Captures.int _ (isIntNumeral_signedDecimal hn)) ih
  | string s hs rest ih => exact Matches.cons (Captures.string _ s) ih

theorem names_captures (args : RouteArgs parts) :
    args.captures.map ParamEntry.name = parts.filterMap RoutePart.name? := by
  induction args with
  | nil => rfl
  | literal rest ih => exact ih
  | int n hn rest ih => exact congrArg (_ :: ·) ih
  | string s hs rest ih => exact congrArg (_ :: ·) ih

end RouteArgs

/-! ### What a handler reads -/

/-- A handler reads the parameters of its route, each with the accessor of its type. -/
def Request.readArgs (req : Request) : List RoutePart → Except Exception (List ParamValue)
  | [] => .ok []
  | .literal _ :: parts => req.readArgs parts
  | .int name :: parts => do
    let n ← req.paramInt name
    let rest ← req.readArgs parts
    pure (.int n :: rest)
  | .string name :: parts => do
    let s ← req.paramStr name
    let rest ← req.readArgs parts
    pure (.string s :: rest)

/-- Where names are different, each of them finds its parameter. -/
theorem find?_name_eq {params : List ParamEntry} (hnodup : (params.map ParamEntry.name).Nodup)
    {e : ParamEntry} (he : e ∈ params) :
    params.find? (fun p => p.name == e.name) = some e := by
  induction params with
  | nil => exact absurd he List.not_mem_nil
  | cons p params ih =>
    obtain ⟨hnew, hnodup⟩ := List.nodup_cons.mp hnodup
    rcases List.mem_cons.mp he with rfl | he
    · simp
    · have hne : p.name ≠ e.name := fun heq =>
        hnew (List.mem_map.mpr ⟨e, he, heq.symm⟩)
      rw [List.find?_cons_of_neg (by simpa using hne)]
      exact ih hnodup he

/-- From the captures of a route the arguments are read. -/
theorem readArgs_eq {parts : List RoutePart} (args : RouteArgs parts) {req : Request}
    (h : ∀ e ∈ args.captures, req.params.find? (fun p => p.name == e.name) = some e) :
    req.readArgs parts = .ok args.values := by
  induction args with
  | nil => rfl
  | literal rest ih => exact ih h
  | @int name parts n hn rest ih =>
    obtain ⟨hfirst, hrest⟩ := List.forall_mem_cons.mp h
    have hread : req.paramInt name = .ok n := by rw [Request.paramInt, hfirst]
    rw [Request.readArgs, hread, ih hrest]
    rfl
  | @string name parts s hs rest ih =>
    obtain ⟨hfirst, hrest⟩ := List.forall_mem_cons.mp h
    have hread : req.paramStr name = .ok s := by rw [Request.paramStr, hfirst]
    rw [Request.readArgs, hread, ih hrest]
    rfl

namespace TypedRoute

variable (r : TypedRoute)

/-- A path with arguments is matched, and they are captured. -/
theorem matchRoute_pathOf (args : RouteArgs r.parts) :
    matchRoute (parsePattern r.pattern) (pathOf args.pieces) [] = (true, args.captures) := by
  have hpieces : (pieces slash (pathOf args.pieces)).take maxSegments = args.pieces := by
    rw [pieces_pathOf (args.pieces_ok r.ok), List.take_of_length_le]
    rw [args.length_pieces]
    exact r.length_le
  have hmatch := args.matches_pieces
  rw [← r.parsePattern_pattern, ← hpieces] at hmatch
  rcases matchRoute_spec (parsePattern r.pattern) (pathOf args.pieces) [] with
    ⟨captures, hmatch', hresult⟩ | ⟨hno, -⟩
  · rw [hresult, List.nil_append, hmatch'.unique hmatch]
  · exact absurd hmatch (hno _)

/-- From a request with these captures the arguments are read. -/
theorem readArgs_captures (args : RouteArgs r.parts) {req : Request}
    (h : req.params = args.captures) : req.readArgs r.parts = .ok args.values := by
  apply readArgs_eq
  rw [h]
  exact fun e he => find?_name_eq (by rw [args.names_captures]; exact r.nodup) he

end TypedRoute

/-- The first route with the method that matches is taken. -/
theorem Router.resolve_of_routes_eq {H : Type} {router : Router H} {entry : RouteEntry H}
    {before after : List (RouteEntry H)} (hroutes : router.routes = before ++ entry :: after)
    {path : Bytes} (hothers : ∀ e ∈ before, e.method = entry.method →
      (matchRoute e.pattern path []).1 = false)
    {captures : List ParamEntry} (hmatch : matchRoute entry.pattern path [] = (true, captures))
    (params : List ParamEntry) :
    router.resolve entry.method path params = (some entry.handler, captures) := by
  rw [resolve, hroutes]
  clear hroutes
  induction before generalizing params with
  | nil => rw [List.nil_append, resolveLoop, if_neg (by simp), hmatch]
  | cons e before ih =>
    obtain ⟨hfirst, hothers⟩ := List.forall_mem_cons.mp hothers
    rw [List.cons_append, resolveLoop]
    split
    · exact ih hothers params
    next hmethod =>
      -- A candidate that does not match leaves some parameters behind, which are cleared.
      have hfalse := hfirst (not_not.mp hmethod)
      cases hresult : matchRoute e.pattern path [] with
      | mk matched left =>
        rw [hresult] at hfalse
        obtain rfl : matched = false := hfalse
        exact ih hothers left

/-- No route takes a request with this method for this path. -/
def Router.Leaves {H : Type} (router : Router H) (method path : Bytes) : Prop :=
  ∀ e ∈ router.routes, e.method = method → (matchRoute e.pattern path []).1 = false

theorem Router.Leaves.resolve_eq {H : Type} {router : Router H} {method path : Bytes}
    (h : router.Leaves method path) (params : List ParamEntry) :
    (router.resolve method path params).1 = none := by
  rw [Leaves] at h
  rw [resolve]
  generalize router.routes = routes at h
  induction routes generalizing params with
  | nil => rfl
  | cons e routes ih =>
    obtain ⟨hfirst, hothers⟩ := List.forall_mem_cons.mp h
    rw [resolveLoop]
    split
    · exact ih params hothers
    next hmethod =>
      have hfalse := hfirst (not_not.mp hmethod)
      cases hresult : matchRoute e.pattern path [] with
      | mk matched left =>
        rw [hresult] at hfalse
        obtain rfl : matched = false := hfalse
        exact ih left hothers

/-- The route with the handler is found for a request, and the handler reads these arguments. -/
def RecoversArgs {H : Type} (router : Router H) (req : Request) (handler : H)
    (parts : List RoutePart) (values : List ParamValue) : Prop :=
  let found := router.resolve req.method.bytes req.path req.params
  found.1 = some handler ∧ ({ req with params := found.2 } : Request).readArgs parts = .ok values

/-- A request for a typed route, with arguments and a query behind them, in any encoding of both:
the route is found, unless one that has been registered before accepts the path, and its handler
reads the arguments and the query. -/
theorem recoversArgs_of_encodesTarget {H : Type} (r : TypedRoute) (args : RouteArgs r.parts)
    {entries : List QueryEntry} {target : Bytes}
    (htarget : EncodesTarget (pathOf args.pieces) entries target) {data : StringView}
    {method : Bytes} (hrequest : HasRequestLine data method target) (handler : H)
    (before after : List (Router.AddCall H))
    (hothers : ∀ c ∈ before, c.accepts method (pathOf args.pieces) = false) :
    RecoversArgs (Router.addAll (before ++ ⟨method, r.pattern, handler⟩ :: after))
        (parseHeaders data) handler r.parts args.values ∧
      (parseHeaders data).queryParams = entries := by
  obtain ⟨hm, ht, version, rest, hline, hdata⟩ := hrequest
  obtain ⟨hmethod, hrawPath⟩ := requestLine_parseHeaders hm ht hline hdata
  obtain ⟨hpath, hquery⟩ := htarget.decoded
  have hpath' : (parseHeaders data).path = pathOf args.pieces := by
    rw [path_parseHeaders, hrawPath, hpath]
  have hroutes : (Router.addAll (before ++ ⟨method, r.pattern, handler⟩ :: after)).routes =
      before.map Router.AddCall.entry ++
        ⟨method, parsePattern r.pattern, handler⟩ :: after.map Router.AddCall.entry := by
    rw [Router.routes_addAll, List.map_append, List.map_cons]
    rfl
  -- The routes before are asked first, and none of them takes the path.
  have hbefore : ∀ e ∈ before.map Router.AddCall.entry, e.method = method →
      (matchRoute e.pattern (pathOf args.pieces) []).1 = false := by
    intro e he heq
    obtain ⟨c, hc, rfl⟩ := List.mem_map.mp he
    have haccepts := hothers c hc
    rw [Router.AddCall.accepts, show c.method = method from heq, beq_self_eq_true,
      Bool.true_and] at haccepts
    exact haccepts
  have hresolve := Router.resolve_of_routes_eq hroutes hbefore (r.matchRoute_pathOf args)
    (parseHeaders data).params
  refine ⟨?_, by rw [queryParams_parseHeaders, hrawPath, hquery]⟩
  rw [RecoversArgs, hmethod, hpath', hresolve]
  exact ⟨rfl, r.readArgs_captures args rfl⟩

/-- `/users/<int:id>/files/<string:name>`. -/
def userFiles : TypedRoute where
  parts := [.literal (ascii "users"), .int (ascii "id"), .literal (ascii "files"),
    .string (ascii "name")]
  ok := by decide
  nodup := by decide
  length_le := by decide

/-- A file of a user. -/
def userFile : RouteArgs userFiles.parts :=
  .literal (.int (-7) (by decide) (.literal (.string (ascii "a b") (by decide) .nil)))

/-- A request for it. -/
def userFileRequest : StringView :=
  ⟨.readBuffer 0, 0, (ascii "GET" ++ sp :: (pathOf (userFile.pieces.map percentEncode) ++
    sp :: ascii "HTTP/1.1")) ++ cr :: lf :: crlf⟩

theorem requestLine_userFile : HasRequestLine userFileRequest (ascii "GET")
    (pathOf (userFile.pieces.map percentEncode)) where
  sp_notMem_method := by decide
  sp_notMem_target := by decide
  line := ⟨ascii "HTTP/1.1", crlf, by decide, rfl⟩

/-- Behind another route. -/
theorem recoversArgs_of_encodesTarget_userFile :
    RecoversArgs
        (Router.addAll ([⟨ascii "GET", ascii "/users", false⟩] ++
          ⟨ascii "GET", userFiles.pattern, true⟩ :: []))
        (parseHeaders userFileRequest) true userFiles.parts userFile.values ∧
      (parseHeaders userFileRequest).queryParams = [] :=
  recoversArgs_of_encodesTarget userFiles userFile (encodesTarget_percentEncode userFile.pieces)
    requestLine_userFile true _ _ (by decide)

end Lundi
