import Lundi.Router.Matching
import Lundi.Server.App

/-!
# Route groups

`app::route_group` keeps a prefix and puts it in front of every pattern and path by plain
concatenation. What comes out is read in two ways, piece by piece for routes and as a key for
endpoints.

* `composesRoutes_iff`: a route registered through nested groups has the segments of all their
  prefixes exactly when no two texts are joined without a slash between them;
* `reachesEndpoints_iff`: an endpoint is reached by the joined pieces exactly when moreover the
  concatenation has no slash too many.
-/

namespace Lundi

open Pieces

/-- `app::route_group`. The reference to the application is the argument of the registration
functions. -/
structure RouteGroup where
  /-- `prefix_`. -/
  pathPrefix : Bytes
  /-- It starts with a slash. -/
  head_eq : pathPrefix.head? = some slash

namespace RouteGroup

variable {σ : Type}

/-- A slash is put in front of a prefix that does not start with one. -/
def withLeadingSlash (path : Bytes) : Bytes :=
  if path = [] ∨ path.head? ≠ some slash then slash :: path else path

/-- One slash at the end is removed, unless it is all there is. -/
def withoutTrailingSlash (path : Bytes) : Bytes :=
  if 1 < path.length ∧ path.getLast? = some slash then path.dropLast else path

theorem head?_withLeadingSlash (path : Bytes) :
    (withLeadingSlash path).head? = some slash := by
  rw [withLeadingSlash]
  split
  next => rfl
  next h =>
    push Not at h
    exact h.2

theorem head?_withoutTrailingSlash (path : Bytes) :
    (withoutTrailingSlash path).head? = path.head? := by
  rw [withoutTrailingSlash]
  split
  next h =>
    match path, h with
    | b :: c :: path, _ => rfl
  next => rfl

/-- The constructor. -/
def create (path : Bytes) : RouteGroup where
  pathPrefix := withoutTrailingSlash (withLeadingSlash path)
  head_eq := by rw [head?_withoutTrailingSlash, head?_withLeadingSlash]

/-- `get`, `post`, `put`, `del` and `patch`, with and without per-route middleware. -/
def route (g : RouteGroup) (app : App σ) (verb : Verb) (pattern : Bytes)
    (mws : List (Middleware σ)) (handler : Handler σ) : App σ :=
  app.route verb (g.pathPrefix ++ pattern) mws handler

/-- `sse`. -/
def sse (g : RouteGroup) (app : App σ) (path : Bytes) (handler : EndpointHandler σ) : App σ :=
  app.sse (g.pathPrefix ++ path) handler

/-- `ws`. -/
def ws (g : RouteGroup) (app : App σ) (path : Bytes) (handler : EndpointHandler σ) : App σ :=
  app.ws (g.pathPrefix ++ path) handler

/-- `stream`. -/
def stream (g : RouteGroup) (app : App σ) (path : Bytes)
    (handler : Network → Call σ → Awaitable Unit)
    (contentType : Bytes := ascii "application/octet-stream") : App σ :=
  app.stream (g.pathPrefix ++ path) handler contentType

/-- `group`. -/
def group (g : RouteGroup) (subPrefix : Bytes) : RouteGroup := create (g.pathPrefix ++ subPrefix)

end RouteGroup

/-- `app::group`. -/
def App.group {σ : Type} (_ : App σ) (path : Bytes) : RouteGroup := RouteGroup.create path

namespace RouteGroup

/-- The group behind a chain of calls of `group`. -/
def nest (g : RouteGroup) (subs : List Bytes) : RouteGroup := subs.foldl group g

@[simp]
theorem nest_nil (g : RouteGroup) : g.nest [] = g := rfl

@[simp]
theorem nest_cons (g : RouteGroup) (sub : Bytes) (subs : List Bytes) :
    g.nest (sub :: subs) = (g.group sub).nest subs := rfl

theorem pathPrefix_ne_nil (g : RouteGroup) : g.pathPrefix ≠ [] := by
  intro h
  have := g.head_eq
  rw [h] at this
  exact absurd this (by simp)

/-! ### Pieces -/

/-- The constructor changes no pieces. -/
theorem pieces_create (path : Bytes) :
    pieces slash (create path).pathPrefix = pieces slash path := by
  have hlead : pieces slash (withLeadingSlash path) = pieces slash path := by
    rw [withLeadingSlash]
    split
    next => rw [pieces_cons_self]
    next => rfl
  have htrail : ∀ p : Bytes, pieces slash (withoutTrailingSlash p) = pieces slash p := by
    intro p
    rw [withoutTrailingSlash]
    split
    next h =>
      obtain ⟨r, rfl⟩ := List.getLast?_eq_some_iff.mp h.2
      rw [List.dropLast_concat, pieces_append_cons, pieces_nil, List.append_nil]
    next => rfl
  rw [create, htrail, hlead]

/-- A text can be put behind the prefix of the group without fusing pieces: it is empty, or there
is a slash where the two meet. -/
def Joins (g : RouteGroup) (text : Bytes) : Prop :=
  text = [] ∨ g.pathPrefix.getLast? = some slash ∨ text.head? = some slash

instance (g : RouteGroup) (text : Bytes) : Decidable (g.Joins text) :=
  inferInstanceAs (Decidable (_ ∨ _ ∨ _))

theorem joins_iff {g : RouteGroup} {text : Bytes} :
    g.Joins text ↔
      pieces slash (g.pathPrefix ++ text) = pieces slash g.pathPrefix ++ pieces slash text := by
  rw [pieces_append_iff, Joins]
  simp [g.pathPrefix_ne_nil]

/-- A chain of texts joins, each of them behind the group that those before it make. -/
def JoinsAll : RouteGroup → List Bytes → Prop
  | _, [] => True
  | g, text :: texts => g.Joins text ∧ (g.group text).JoinsAll texts

instance decidableJoinsAll : (g : RouteGroup) → (texts : List Bytes) → Decidable (g.JoinsAll texts)
  | _, [] => inferInstanceAs (Decidable True)
  | g, text :: texts =>
    have := decidableJoinsAll (g.group text) texts
    inferInstanceAs (Decidable (g.Joins text ∧ (g.group text).JoinsAll texts))

/-- Where all texts join, the pieces are those of all texts. -/
theorem pieces_nest {g : RouteGroup} {subs : List Bytes} {text : Bytes}
    (h : g.JoinsAll (subs ++ [text])) :
    pieces slash ((g.nest subs).pathPrefix ++ text) =
      pieces slash g.pathPrefix ++ (subs ++ [text]).flatMap (pieces slash) := by
  induction subs generalizing g with
  | nil => simpa using joins_iff.mp h.1
  | cons sub subs ih =>
    obtain ⟨hjoin, hrest⟩ := h
    have hgroup := pieces_create (g.pathPrefix ++ sub)
    rw [joins_iff.mp hjoin] at hgroup
    rw [List.cons_append, List.flatMap_cons, ← List.append_assoc, ← hgroup]
    exact ih hrest

theorem pieces_group (g : RouteGroup) (sub : Bytes) :
    pieces slash (g.group sub).pathPrefix = pieces slash (g.pathPrefix ++ sub) :=
  pieces_create (g.pathPrefix ++ sub)

/-- There are never more. -/
theorem length_pieces_nest_le (g : RouteGroup) (subs : List Bytes) (text : Bytes) :
    (pieces slash ((g.nest subs).pathPrefix ++ text)).length ≤
      (pieces slash g.pathPrefix).length + ((subs ++ [text]).flatMap (pieces slash)).length := by
  induction subs generalizing g with
  | nil => simpa using length_pieces_append_le g.pathPrefix text
  | cons sub subs ih =>
    have hsub : (pieces slash (g.pathPrefix ++ sub)).length ≤
        (pieces slash g.pathPrefix).length + (pieces slash sub).length :=
      length_pieces_append_le _ _
    have hrest := ih (g.group sub)
    rw [pieces_group] at hrest
    rw [nest_cons, List.cons_append, List.flatMap_cons, List.length_append]
    exact hrest.trans (by omega)

/-- There are as many only when all texts join. -/
theorem joinsAll_of_length {g : RouteGroup} {subs : List Bytes} {text : Bytes}
    (h : (pieces slash ((g.nest subs).pathPrefix ++ text)).length =
      (pieces slash g.pathPrefix).length + ((subs ++ [text]).flatMap (pieces slash)).length) :
    g.JoinsAll (subs ++ [text]) := by
  induction subs generalizing g with
  | nil =>
    refine ⟨joins_iff.mpr (pieces_append_of_length ?_), trivial⟩
    simpa using h
  | cons sub subs ih =>
    -- No piece is lost at the first text, and none behind it.
    have hsub : (pieces slash (g.pathPrefix ++ sub)).length ≤
        (pieces slash g.pathPrefix).length + (pieces slash sub).length :=
      length_pieces_append_le _ _
    have hrest := length_pieces_nest_le (g.group sub) subs text
    rw [pieces_group] at hrest
    rw [nest_cons, List.cons_append, List.flatMap_cons, List.length_append] at h
    refine ⟨joins_iff.mpr (pieces_append_of_length (by omega)), ih ?_⟩
    rw [pieces_group]
    omega

end RouteGroup

/-! ### Routes and endpoints -/

/-- The texts of a chain of groups and of what is registered through the last of them. -/
def chainTexts (path : Bytes) (subs : List Bytes) (text : Bytes) : List Bytes :=
  path :: subs ++ [text]

/-- A route registered through the groups has the segments of all their prefixes and of its own
pattern. -/
def ComposesRoutes (path : Bytes) (subs : List Bytes) (pattern : Bytes) : Prop :=
  ∀ (σ : Type) (app : App σ) (verb : Verb) (mws : List (Middleware σ)) (handler : Handler σ),
    ((((app.group path).nest subs).route app verb pattern mws handler).router.routes.getLast?.map
      RouteEntry.pattern) = some ((chainTexts path subs pattern).flatMap parsePattern)

/-- The request path that the pieces of the texts make. -/
def piecesPath (texts : List Bytes) : Bytes :=
  slash :: [slash].intercalate (texts.flatMap (pieces slash))

/-- An endpoint registered through the groups is reached by the path of all pieces. -/
def ReachesEndpoints (path : Bytes) (subs : List Bytes) (text : Bytes) : Prop :=
  ∀ (σ : Type) (app : App σ),
    (∀ handler, (((app.group path).nest subs).ws app text handler).wsRoutes.lookup
      (piecesPath (chainTexts path subs text)) = some handler) ∧
    (∀ handler, (((app.group path).nest subs).sse app text handler).sseRoutes.lookup
      (piecesPath (chainTexts path subs text)) = some handler) ∧
    ∀ handler contentType,
      (((app.group path).nest subs).stream app text handler contentType).streamRoutes.lookup
        (piecesPath (chainTexts path subs text)) = some ⟨handler, contentType⟩

theorem pieces_pathPrefix (path : Bytes) (subs : List Bytes) (text : Bytes) :
    (chainTexts path subs text).flatMap (pieces slash) =
      pieces slash (RouteGroup.create path).pathPrefix ++
        (subs ++ [text]).flatMap (pieces slash) := by
  rw [chainTexts, List.cons_append, List.flatMap_cons, RouteGroup.pieces_create]

/-- The segments of all texts. -/
theorem flatMap_parsePattern (texts : List Bytes) :
    texts.flatMap parsePattern = (texts.flatMap (pieces slash)).map parsePatternPart := by
  induction texts with
  | nil => rfl
  | cons text texts ih =>
    rw [List.flatMap_cons, List.flatMap_cons, List.map_append, ih, parsePattern_eq]

/-- What a registered route has as its pattern. -/
theorem getLast?_routes_route {σ : Type} (g : RouteGroup) (app : App σ) (verb : Verb)
    (pattern : Bytes) (mws : List (Middleware σ)) (handler : Handler σ) :
    (g.route app verb pattern mws handler).router.routes.getLast?.map RouteEntry.pattern =
      some (parsePattern (g.pathPrefix ++ pattern)) := by
  rw [RouteGroup.route, App.route]
  simp [Router.add]

theorem composesRoutes_iff_parsePattern (path : Bytes) (subs : List Bytes) (pattern : Bytes) :
    ComposesRoutes path subs pattern ↔
      parsePattern (((RouteGroup.create path).nest subs).pathPrefix ++ pattern) =
        (chainTexts path subs pattern).flatMap parsePattern := by
  constructor
  · intro h
    have hempty := h Unit .empty .get [] fun c => ⟨c.user, c.req, .ok (.text [])⟩
    rw [getLast?_routes_route] at hempty
    exact Option.some_inj.mp hempty
  · intro h σ app verb mws handler
    rw [getLast?_routes_route]
    exact congrArg some h

/-- Routes compose exactly when all texts join. -/
theorem composesRoutes_iff (path : Bytes) (subs : List Bytes) (pattern : Bytes) :
    ComposesRoutes path subs pattern ↔
      (RouteGroup.create path).JoinsAll (subs ++ [pattern]) := by
  rw [composesRoutes_iff_parsePattern, flatMap_parsePattern, pieces_pathPrefix, parsePattern_eq]
  constructor
  · intro h
    have hlen := congrArg List.length h
    rw [List.length_map, List.length_map, List.length_append] at hlen
    exact RouteGroup.joinsAll_of_length hlen
  · intro h
    rw [RouteGroup.pieces_nest h]

/-- A table finds what has just been entered under the key and nothing new elsewhere. -/
theorem lookup_assign_nil {H : Type} (key path : Bytes) (h : H) :
    (PathTable.assign [] key h).lookup path = some h ↔ path = key := by
  rw [PathTable.assign, List.filter_nil, List.lookup_cons]
  by_cases heq : path = key
  · simp [heq]
  · have : (path == key) = false := by simpa using heq
    simp [this, heq]

theorem lookup_assign_self {H : Type} (table : PathTable H) (key : Bytes) (h : H) :
    (table.assign key h).lookup key = some h := by
  rw [PathTable.assign, List.lookup_cons, beq_self_eq_true]

theorem reachesEndpoints_iff_key (path : Bytes) (subs : List Bytes) (text : Bytes) :
    ReachesEndpoints path subs text ↔
      ((RouteGroup.create path).nest subs).pathPrefix ++ text =
        piecesPath (chainTexts path subs text) := by
  constructor
  · intro h
    obtain ⟨hws, -, -⟩ := h Unit .empty
    exact ((lookup_assign_nil _ _ _).mp (hws fun _ _ => pure ())).symm
  · intro h σ app
    rw [← h]
    exact ⟨fun _ => lookup_assign_self _ _ _, fun _ => lookup_assign_self _ _ _,
      fun _ _ => lookup_assign_self _ _ _⟩

/-- Endpoints are reached exactly when all texts join and the concatenation has no empty pieces
and no slash at its end. -/
theorem reachesEndpoints_iff (path : Bytes) (subs : List Bytes) (text : Bytes) :
    ReachesEndpoints path subs text ↔
      (RouteGroup.create path).JoinsAll (subs ++ [text]) ∧
        IsNormal slash (((RouteGroup.create path).nest subs).pathPrefix ++ text) := by
  rw [reachesEndpoints_iff_key, isNormal_iff, piecesPath]
  have hvalid : ∀ p ∈ (chainTexts path subs text).flatMap (pieces slash), p ≠ [] ∧ slash ∉ p := by
    intro p hp
    obtain ⟨t, -, hp⟩ := List.mem_flatMap.mp hp
    exact mem_pieces hp
  constructor
  · intro h
    -- If the key is the joined path, no piece is merged with the one behind it.
    have hpieces : pieces slash (((RouteGroup.create path).nest subs).pathPrefix ++ text) =
        (chainTexts path subs text).flatMap (pieces slash) := by
      rw [h, pieces_cons_self, pieces_intercalate hvalid]
    refine ⟨RouteGroup.joinsAll_of_length ?_, ?_⟩
    · rw [hpieces, pieces_pathPrefix, List.length_append]
    · rw [hpieces]
      exact h
  · rintro ⟨hjoin, hnormal⟩
    rw [RouteGroup.pieces_nest hjoin, ← pieces_pathPrefix] at hnormal
    exact hnormal

/-- Exactly when nested groups compose by path segments: for routes when every text is empty,
starts with a slash or stands behind a prefix that ends with one; for endpoints when moreover the
prefix with the path behind it has no two slashes in a row and none at the end. -/
theorem routeGroup_composes_iff (path : Bytes) (subs : List Bytes) (text : Bytes) :
    (ComposesRoutes path subs text ↔ (RouteGroup.create path).JoinsAll (subs ++ [text])) ∧
      (ReachesEndpoints path subs text ↔
        (RouteGroup.create path).JoinsAll (subs ++ [text]) ∧
          IsNormal slash (((RouteGroup.create path).nest subs).pathPrefix ++ text)) :=
  ⟨composesRoutes_iff path subs text, reachesEndpoints_iff path subs text⟩

/-- A nested prefix without a leading slash is fused with the one before it, and behind the root
group an endpoint has two slashes. -/
theorem not_composes_api_users :
    ¬ ComposesRoutes (ascii "/api") [ascii "users"] (ascii "/list") ∧
      ¬ ReachesEndpoints (ascii "/") [] (ascii "/chat") := by
  rw [composesRoutes_iff, reachesEndpoints_iff]
  decide

end Lundi
