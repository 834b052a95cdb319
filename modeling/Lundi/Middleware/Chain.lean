import Lundi.Core.Exception
import Lundi.Core.Request
import Lundi.Core.Response
import Lundi.Lib.Onion

/-!
# Handlers and middleware chains

Handlers and middleware are user code. A handler answers a request; a middleware is a coroutine
around its continuation `next`, which it may call any number of times. Both may keep private state
of type `σ` between calls, change the request they are given, and throw.

`middleware_chain::compile` captures a raw pointer to each element of `layers_`. The elements are
cells of a `Heap`, a compiled handler (`NextT`) refers to them by address, and calling it follows
these references: a reference to a cell that is gone is undefined behaviour.

* `NextT.outcome_invoke_foldr`: while its cells exist, a compiled chain computes the onion
  composition of its layers;
* `NextT.outcome_invoke_of_dangling`: one whose outermost cell is gone has no defined behaviour.
-/

namespace Lundi

open Onion

/-- A request on its way to a handler, with the state the user code keeps. -/
structure Call (σ : Type) where
  /-- The private state of handlers and middleware. -/
  user : σ
  /-- The request. -/
  req : Request

/-- What a handler leaves: its state, the request, which it holds by reference and may change, and
a response or an exception. -/
structure Answer (σ : Type) where
  /-- The private state afterwards. -/
  user : σ
  /-- The request afterwards. -/
  req : Request
  /-- The response or the exception. -/
  result : Except Exception Response

/-- The four kinds of user code that `handle_connection` can start. -/
inductive Endpoint
  | route | webSocket | sse | stream
  deriving DecidableEq

/-- What happens while a request is processed. -/
inductive Event
  /-- The middleware at this address starts. -/
  | enterLayer (cell : ℕ)
  /-- The middleware at this address calls its continuation. -/
  | callNext (cell : ℕ)
  /-- A user handler starts. -/
  | startHandler (endpoint : Endpoint)
  /-- A static file answers the request. -/
  | serveStatic
  /-- An exception leaves a handler, a middleware or the static lookup. -/
  | raised (e : Exception)

/-- A route handler. -/
abbrev Handler (σ : Type) := Call σ → Answer σ

/-- `middleware_t`: a coroutine over its continuation. -/
abbrev Middleware (σ : Type) := Call σ → Body (Call σ) (Answer σ)

/-- What is known of a call of a compiled handler that has ended. -/
abbrev Invocation (σ : Type) := Traced Event (Answer σ)

/-- The exception of a result, as an event. -/
def raisedEvents {σ : Type} (a : Answer σ) : List Event :=
  match a.result with
  | .ok _ => []
  | .error e => [.raised e]

/-- Calling a route handler. -/
def Handler.invoke {σ : Type} (h : Handler σ) (c : Call σ) : Invocation σ :=
  ⟨some (h c), .startHandler .route :: raisedEvents (h c)⟩

/-- `next_t` and `handler_t`: an innermost callable, or a closure made by `compile`, which holds a
raw pointer to a middleware and a shared pointer to the rest of the chain. -/
inductive NextT (σ : Type)
  | inner (call : Call σ → Invocation σ)
  | layer (mw : ℕ) (prev : NextT σ)

/-- The memory the middleware objects live in. Addresses are numbers. -/
structure Heap (σ : Type) where
  /-- The living objects. -/
  cells : ℕ → Option (Middleware σ)
  /-- The next address; addresses are not reused. -/
  next : ℕ
  /-- Only addresses before the next one have been given out. -/
  lt_next : ∀ c, (cells c).isSome → c < next

/-- `middleware_chain`: the addresses of the elements of `layers_`. -/
structure MiddlewareChain where
  /-- `layers_`. -/
  layers : List ℕ

variable {σ : Type}

namespace Heap

/-- No middleware exists. -/
def empty : Heap σ := ⟨fun _ => none, 0, fun _ h => by simp at h⟩

/-- Create a middleware object. -/
def alloc (heap : Heap σ) (mw : Middleware σ) : Heap σ where
  cells c := if c = heap.next then some mw else heap.cells c
  next := heap.next + 1
  lt_next c h := by
    by_cases hc : c = heap.next
    · rw [hc]
      exact Nat.lt_succ_self _
    · rw [if_neg hc] at h
      exact Nat.lt_succ_of_lt (heap.lt_next c h)

/-- Destroy the objects at these addresses. -/
def free (heap : Heap σ) (dead : List ℕ) : Heap σ where
  cells c := if c ∈ dead then none else heap.cells c
  next := heap.next
  lt_next c h := by
    by_cases hc : c ∈ dead
    · rw [if_pos hc] at h
      exact absurd h (by simp)
    · rw [if_neg hc] at h
      exact heap.lt_next c h

/-- What exists is not touched by a new object. -/
theorem cells_alloc_of_lt {heap : Heap σ} {mw : Middleware σ} {c : ℕ} (h : c < heap.next) :
    (heap.alloc mw).cells c = heap.cells c := if_neg (Nat.ne_of_lt h)

theorem cells_alloc_next (heap : Heap σ) (mw : Middleware σ) :
    (heap.alloc mw).cells heap.next = some mw := if_pos rfl

theorem cells_free_of_notMem {heap : Heap σ} {dead : List ℕ} {c : ℕ} (h : c ∉ dead) :
    (heap.free dead).cells c = heap.cells c := if_neg h

theorem cells_free_of_mem {heap : Heap σ} {dead : List ℕ} {c : ℕ} (h : c ∈ dead) :
    (heap.free dead).cells c = none := if_pos h

end Heap

namespace MiddlewareChain

/-- An empty chain. -/
def empty : MiddlewareChain := ⟨[]⟩

/-- `add`: move a middleware into `layers_`. -/
def add (chain : MiddlewareChain) (heap : Heap σ) (mw : Middleware σ) :
    MiddlewareChain × Heap σ :=
  (⟨chain.layers ++ [heap.next]⟩, heap.alloc mw)

/-- The loop that adds a list of middlewares. -/
def addAll (chain : MiddlewareChain) (heap : Heap σ) (mws : List (Middleware σ)) :
    MiddlewareChain × Heap σ :=
  mws.foldl (fun p mw => p.1.add p.2 mw) (chain, heap)

/-- `compile`: the loop from `rbegin` to `rend`. -/
def compile (chain : MiddlewareChain) (inner : NextT σ) : NextT σ :=
  chain.layers.reverse.foldl (fun prev mw => .layer mw prev) inner

/-- The destructor: the elements of `layers_` are destroyed. -/
def destroy (chain : MiddlewareChain) (heap : Heap σ) : Heap σ := heap.free chain.layers

/-- The compiled chain, layer by layer: the first layer is outermost. -/
theorem compile_eq_foldr (layers : List ℕ) (inner : NextT σ) :
    (MiddlewareChain.mk layers).compile inner = layers.foldr .layer inner := by
  rw [compile, List.foldl_reverse]

end MiddlewareChain

namespace NextT

/-- Calling a compiled handler. -/
def invoke (cells : ℕ → Option (Middleware σ)) : NextT σ → Call σ → Invocation σ
  | .inner call, c => call c
  | .layer mw prev, c =>
    match cells mw with
    | none => ⟨none, []⟩
    | some m =>
      let t := (m c).run (prev.invoke cells) (.callNext mw) raisedEvents
      ⟨t.outcome, .enterLayer mw :: t.events⟩

/-- All references of the compiled handler lead to existing cells. -/
def Alive (cells : ℕ → Option (Middleware σ)) : NextT σ → Prop
  | .inner _ => True
  | .layer mw prev => (cells mw).isSome ∧ prev.Alive cells

/-- A handler whose outermost middleware is gone has no defined behaviour. -/
theorem outcome_invoke_of_dangling {cells : ℕ → Option (Middleware σ)} {mw : ℕ}
    (h : cells mw = none) (prev : NextT σ) (c : Call σ) :
    ((NextT.layer mw prev).invoke cells c).outcome = none := by
  simp [invoke, h]

/-- While its cells are alive, a compiled chain answers as the onion composition of its layers
around what is inside. -/
theorem outcome_invoke_foldr {cells : ℕ → Option (Middleware σ)} {layers : List ℕ}
    {mws : List (Middleware σ)} (hcells : layers.map cells = mws.map some) {inner : NextT σ}
    {plain : Call σ → Answer σ} (hinner : ∀ c, (inner.invoke cells c).outcome = some (plain c))
    (c : Call σ) :
    ((layers.foldr .layer inner).invoke cells c).outcome = some (onion mws plain c) := by
  induction layers generalizing mws c with
  | nil =>
    obtain rfl : mws = [] := by simpa using hcells.symm
    exact hinner c
  | cons cell layers ih =>
    cases mws with
    | nil => simp at hcells
    | cons mw mws =>
      -- The outermost cell holds the first middleware, the others the rest of the list.
      simp only [List.map_cons, List.cons.injEq] at hcells
      rw [List.foldr_cons, invoke, hcells.1]
      exact Body.run_eq_answer (fun a => ih hcells.2 a) _ _ _

end NextT

end Lundi
