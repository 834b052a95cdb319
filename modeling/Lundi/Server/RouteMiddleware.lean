import Lundi.Server.App

/-!
# Per-route middleware

`compile_route_handler` compiles its middleware from a local chain. The closures it returns refer
to the elements of that chain, and the chain is gone when the function returns.

* `dangling_compileRouteHandler`: after the registration no layer of the handler exists;
* `dangling_foldl_register`: nor does it after any further registrations;
* `not_guardsRoute`: so the layers of a route guard nothing.
-/

namespace Lundi

open Onion

variable {σ : Type}

/-- The calls that set up an application. -/
inductive Registration (σ : Type)
  | route (verb : Verb) (pattern : Bytes) (mws : List (Middleware σ)) (handler : Handler σ)
  | use (mw : Middleware σ)
  | sse (path : Bytes) (handler : EndpointHandler σ)
  | ws (path : Bytes) (handler : EndpointHandler σ)
  | stream (path : Bytes) (handler : Network → Call σ → Awaitable Unit) (contentType : Bytes)
  | serveStatic (fs : FileSystem) (urlPrefix directory : Bytes) (options : StaticOptions)

/-- Carry out a registration; one that throws changes nothing. -/
def App.register (app : App σ) : Registration σ → App σ
  | .route verb pattern mws handler => app.route verb pattern mws handler
  | .use mw => app.use mw
  | .sse path handler => app.sse path handler
  | .ws path handler => app.ws path handler
  | .stream path handler contentType => app.stream path handler contentType
  | .serveStatic fs urlPrefix directory options =>
    match app.serveStatic fs urlPrefix directory options with
    | .ok app => app
    | .error _ => app

/-- The heap grows, and no address that has been given out is used again. -/
structure Heap.Extends (before after : Heap σ) : Prop where
  next_le : before.next ≤ after.next
  cells_eq : ∀ c < before.next, after.cells c = before.cells c

theorem Heap.Extends.refl (heap : Heap σ) : heap.Extends heap := ⟨le_rfl, fun _ _ => rfl⟩

theorem Heap.Extends.trans {a b c : Heap σ} (hab : a.Extends b) (hbc : b.Extends c) :
    a.Extends c where
  next_le := hab.next_le.trans hbc.next_le
  cells_eq i hi := by rw [hbc.cells_eq i (hi.trans_le hab.next_le), hab.cells_eq i hi]

theorem extends_compileRouteHandler (heap : Heap σ) (mws : List (Middleware σ))
    (handler : NextT σ) : heap.Extends (compileRouteHandler heap mws handler).2 where
  next_le := by
    unfold compileRouteHandler
    split
    · exact le_rfl
    · obtain ⟨-, hnext, -⟩ := MiddlewareChain.addAll_spec .empty heap mws
      change heap.next ≤ (MiddlewareChain.empty.addAll heap mws).2.next
      omega
  cells_eq _ hc := cells_compileRouteHandler heap mws handler hc

/-- No registration uses an address again. -/
theorem extends_register (app : App σ) (r : Registration σ) :
    app.heap.Extends (app.register r).heap := by
  cases r with
  | route verb pattern mws handler => exact extends_compileRouteHandler _ _ _
  | use mw => exact ⟨Nat.le_succ _, fun c hc => Heap.cells_alloc_of_lt hc⟩
  | serveStatic fs urlPrefix directory options =>
    rw [App.register, App.serveStatic]
    cases app.staticFiles.mount fs urlPrefix directory options <;> exact .refl _
  | _ => exact .refl _

/-- Nor does any sequence of registrations. -/
theorem extends_foldl_register (app : App σ) (later : List (Registration σ)) :
    app.heap.Extends (later.foldl App.register app).heap := by
  induction later generalizing app with
  | nil => exact .refl _
  | cons r later ih => exact (extends_register app r).trans (ih _)

/-- The layers of a compiled route handler do not exist when the registration returns. -/
theorem dangling_compileRouteHandler (heap : Heap σ) (mw : Middleware σ)
    (mws : List (Middleware σ)) (handler : Handler σ) :
    ∃ c rest, (compileRouteHandler heap (mw :: mws) (.inner handler.invoke)).1 = .layer c rest ∧
      c < (compileRouteHandler heap (mw :: mws) (.inner handler.invoke)).2.next ∧
      (compileRouteHandler heap (mw :: mws) (.inner handler.invoke)).2.cells c = none := by
  obtain ⟨hlayers, hnext, -⟩ := MiddlewareChain.addAll_spec .empty heap (mw :: mws)
  -- The first middleware stands at the first fresh address.
  have hcons : ∃ layers, (MiddlewareChain.empty.addAll heap (mw :: mws)).1.layers =
      heap.next :: layers := by
    rw [hlayers, List.length_cons, List.range_succ_eq_map, List.map_cons]
    exact ⟨_, rfl⟩
  obtain ⟨layers, hcons⟩ := hcons
  refine ⟨heap.next, layers.foldr .layer (.inner handler.invoke), ?_, ?_, ?_⟩
  · change (MiddlewareChain.mk (MiddlewareChain.empty.addAll heap
      (mw :: mws)).1.layers).compile _ = _
    rw [MiddlewareChain.compile_eq_foldr, hcons, List.foldr_cons]
  · change heap.next < (MiddlewareChain.empty.addAll heap (mw :: mws)).2.next
    rw [hnext, List.length_cons]
    omega
  · -- The destructor of the local chain has freed it.
    change ((MiddlewareChain.empty.addAll heap (mw :: mws)).2.free
      (MiddlewareChain.empty.addAll heap (mw :: mws)).1.layers).cells heap.next = none
    apply Heap.cells_free_of_mem
    rw [hcons]
    exact List.mem_cons_self

/-- Per-route middleware guards its route: at any time after the registration, all layers that the
handler refers to exist, and it answers as the onion composition of its middlewares around the
handler does. -/
def GuardsRoute (app : App σ) (verb : Verb) (pattern : Bytes) (mws : List (Middleware σ))
    (handler : Handler σ) (later : List (Registration σ)) : Prop :=
  let compiled := (compileRouteHandler app.heap mws (.inner handler.invoke)).1
  let serving := later.foldl App.register (app.route verb pattern mws handler)
  compiled.Alive serving.heap.cells ∧
    ∀ c, (compiled.invoke serving.heap.cells c).outcome = some (onion mws handler c)

/-- Whatever is registered later, the outermost layer does not exist. -/
theorem dangling_foldl_register (app : App σ) (verb : Verb) (pattern : Bytes) (mw : Middleware σ)
    (mws : List (Middleware σ)) (handler : Handler σ) (later : List (Registration σ)) :
    ∃ cell rest,
      (compileRouteHandler app.heap (mw :: mws) (.inner handler.invoke)).1 = .layer cell rest ∧
      (later.foldl App.register
        (app.route verb pattern (mw :: mws) handler)).heap.cells cell = none := by
  obtain ⟨cell, rest, hcompiled, hlt, hgone⟩ :=
    dangling_compileRouteHandler app.heap mw mws handler
  -- No later registration puts anything at the address again.
  have hext := extends_foldl_register (app.route verb pattern (mw :: mws) handler) later
  exact ⟨cell, rest, hcompiled, (hext.cells_eq cell hlt).trans hgone⟩

/-- A request that reaches the route has no defined outcome. -/
theorem outcome_routeHandler (app : App σ) (verb : Verb) (pattern : Bytes) (mw : Middleware σ)
    (mws : List (Middleware σ)) (handler : Handler σ) (later : List (Registration σ)) (c : Call σ) :
    ((compileRouteHandler app.heap (mw :: mws) (.inner handler.invoke)).1.invoke
      (later.foldl App.register (app.route verb pattern (mw :: mws) handler)).heap.cells
      c).outcome = none := by
  obtain ⟨cell, rest, hcompiled, hgone⟩ :=
    dangling_foldl_register app verb pattern mw mws handler later
  rw [hcompiled]
  exact NextT.outcome_invoke_of_dangling hgone rest c

/-- The layers of the route handler are not alive. -/
theorem not_alive_routeHandler (app : App σ) (verb : Verb) (pattern : Bytes) (mw : Middleware σ)
    (mws : List (Middleware σ)) (handler : Handler σ) (later : List (Registration σ)) :
    ¬ (compileRouteHandler app.heap (mw :: mws) (.inner handler.invoke)).1.Alive
      (later.foldl App.register (app.route verb pattern (mw :: mws) handler)).heap.cells := by
  obtain ⟨cell, rest, hcompiled, hgone⟩ :=
    dangling_foldl_register app verb pattern mw mws handler later
  rw [hcompiled]
  rintro ⟨hsome, -⟩
  rw [hgone] at hsome
  exact absurd hsome (by simp)

/-- No route with per-route middleware is guarded by it, and no request that reaches it has a
defined outcome. -/
theorem not_guardsRoute (app : App σ) (verb : Verb) (pattern : Bytes) (mw : Middleware σ)
    (mws : List (Middleware σ)) (handler : Handler σ) (later : List (Registration σ)) :
    ¬ GuardsRoute app verb pattern (mw :: mws) handler later ∧
      ∀ c, ((compileRouteHandler app.heap (mw :: mws) (.inner handler.invoke)).1.invoke
        (later.foldl App.register (app.route verb pattern (mw :: mws) handler)).heap.cells
        c).outcome = none := by
  refine ⟨?_, outcome_routeHandler app verb pattern mw mws handler later⟩
  rintro ⟨halive, -⟩
  exact not_alive_routeHandler app verb pattern mw mws handler later halive

/-- A middleware that refuses every request does not guard `/admin`. -/
theorem not_guardsRoute_admin :
    ¬ GuardsRoute (.empty : App Unit) .get (ascii "/admin")
      [fun c => .finish ⟨c.user, c.req, .ok (.text (ascii "Forbidden") 403)⟩]
      (fun c => ⟨c.user, c.req, .ok (.text (ascii "secret"))⟩) [] := by
  rintro ⟨halive, -⟩
  exact not_alive_routeHandler _ _ _ _ [] _ [] halive

end Lundi
