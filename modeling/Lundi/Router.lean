import Lundi.Core.FromChars
import Lundi.Core.Request
import Lundi.Lib.Search

/-!
# The router

Route patterns, the fixed-size path splitter, route matching and the route table, generic in the
type of the handlers it stores.
-/

namespace Lundi

open Search

/-- `detail::route_segment`. -/
inductive RouteSegment
  /-- A literal piece. -/
  | literal (text : Bytes)
  /-- `<int:name>`. -/
  | paramInt (name : Bytes)
  /-- `<string:name>` or `<name>`. -/
  | paramString (name : Bytes)
  deriving DecidableEq

/-- One non-empty piece of a pattern. -/
def parsePatternPart (part : Bytes) : RouteSegment :=
  if part.head? = some 60 ∧ part.getLast? = some 62 then
    let inner := (part.drop 1).take (part.length - 2)
    match find [colon] inner with
    | some c =>
      if inner.take c = ascii "int" then .paramInt (inner.drop (c + 1))
      else .paramString (inner.drop (c + 1))
    | none => .paramString inner
  else .literal part

/-- A leading slash is removed before the pieces are cut out. -/
def stripLeadingSlash (s : Bytes) : Bytes := if s.head? = some slash then s.drop 1 else s

/-- The loop of `parse_pattern`, with the size of its input as step budget. -/
def parsePatternLoop : ℕ → Bytes → List RouteSegment
  | 0, _ => []
  | budget + 1, sv =>
    if sv = [] then []
    else
      match find [slash] sv with
      | none => [parsePatternPart sv]
      | some i =>
        (if sv.take i = [] then [] else [parsePatternPart (sv.take i)]) ++
          parsePatternLoop budget (sv.drop (i + 1))

/-- `detail::parse_pattern`. -/
def parsePattern (pattern : Bytes) : List RouteSegment :=
  parsePatternLoop pattern.length (stripLeadingSlash pattern)

/-- `path_segments::MAX_SEGMENTS`. -/
def maxSegments : ℕ := 16

/-- The loop of `split_path_sv`: it stops at the end of the path or when the array is full. -/
def splitPathLoop : ℕ → Bytes → List Bytes → List Bytes
  | 0, _, segments => segments
  | budget + 1, path, segments =>
    if path = [] ∨ maxSegments ≤ segments.length then segments
    else
      match find [slash] path with
      | none => segments ++ [path]
      | some i =>
        splitPathLoop budget (path.drop (i + 1))
          (if path.take i = [] then segments else segments ++ [path.take i])

/-- `detail::split_path_sv`. -/
def splitPathSv (path : Bytes) : List Bytes :=
  splitPathLoop path.length (stripLeadingSlash path) []

/-- The segment loop of `match_route`: whether the segments match, and the parameters afterwards.
A mismatch cuts the parameters, with what has been captured so far, back to their initial
size. -/
def matchSegments (initialSize : ℕ) :
    List RouteSegment → List Bytes → List ParamEntry → Bool × List ParamEntry
  | .literal text :: pattern, val :: parts, params =>
    if val ≠ text then (false, params.take initialSize)
    else matchSegments initialSize pattern parts params
  | .paramInt name :: pattern, val :: parts, params =>
    match fromCharsInt val with
    | .ok (num, consumed) =>
      if consumed ≠ val.length then (false, params.take initialSize)
      else matchSegments initialSize pattern parts (params ++ [⟨name, .int num⟩])
    | .error _ => (false, params.take initialSize)
  | .paramString name :: pattern, val :: parts, params =>
    matchSegments initialSize pattern parts (params ++ [⟨name, .string val⟩])
  | _, _, params => (true, params)

/-- `detail::match_route`: whether the path matches, and the parameters afterwards. -/
def matchRoute (pattern : List RouteSegment) (path : Bytes) (params : List ParamEntry) :
    Bool × List ParamEntry :=
  let parts := splitPathSv path
  if parts.length ≠ pattern.length then (false, params)
  else matchSegments params.length pattern parts params

/-- `router::route_entry`. -/
structure RouteEntry (H : Type) where
  /-- The HTTP method. -/
  method : Bytes
  /-- The parsed pattern. -/
  pattern : List RouteSegment
  /-- The handler. -/
  handler : H

/-- `router`: the registered routes, in registration order. -/
structure Router (H : Type) where
  /-- `routes_`. -/
  routes : List (RouteEntry H)

namespace Router

variable {H : Type}

/-- `router::add`. -/
def add (r : Router H) (method pattern : Bytes) (handler : H) : Router H :=
  ⟨r.routes ++ [⟨method, parsePattern pattern, handler⟩]⟩

/-- The loop of `router::resolve`. The parameters are cleared before each candidate of the right
method is tried. -/
def resolveLoop (method path : Bytes) :
    List (RouteEntry H) → List ParamEntry → Option H × List ParamEntry
  | [], params => (none, params)
  | route :: routes, params =>
    if route.method ≠ method then resolveLoop method path routes params
    else
      match matchRoute route.pattern path [] with
      | (true, captured) => (some route.handler, captured)
      | (false, left) => resolveLoop method path routes left

/-- `router::resolve`: the matched handler, and the parameters afterwards. -/
def resolve (r : Router H) (method path : Bytes) (params : List ParamEntry) :
    Option H × List ParamEntry :=
  resolveLoop method path r.routes params

/-- A handler that is resolved has been registered. -/
theorem exists_mem_of_resolve {r : Router H} {method path : Bytes}
    {params params' : List ParamEntry} {h : H}
    (hres : r.resolve method path params = (some h, params')) :
    ∃ route ∈ r.routes, route.handler = h := by
  rw [resolve] at hres
  generalize r.routes = routes at hres
  induction routes generalizing params with
  | nil => simp [resolveLoop] at hres
  | cons route routes ih =>
    rw [resolveLoop] at hres
    split at hres
    · obtain ⟨found, hmem, heq⟩ := ih hres
      exact ⟨found, List.mem_cons_of_mem _ hmem, heq⟩
    · split at hres
      · obtain ⟨hsome, -⟩ := Prod.ext_iff.mp hres
        exact ⟨route, List.mem_cons_self, Option.some_inj.mp hsome⟩
      · obtain ⟨found, hmem, heq⟩ := ih hres
        exact ⟨found, List.mem_cons_of_mem _ hmem, heq⟩

end Router

end Lundi
