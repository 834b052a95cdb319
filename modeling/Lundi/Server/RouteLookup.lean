import Lundi.Router.Matching
import Lundi.Server.App
import Lundi.StaticFiles.Containment

/-!
# Looking up routes

`dispatch` looks a `HEAD` request up twice with the same parameters.

* `dispatch_head`: the `GET` handler sees its own captures only;
* `resolve_first_match`: the lookup finds the first route that matches, for every route table.
-/

namespace Lundi

open Pieces

variable {σ : Type}

/-- A `HEAD` request without a route of its own is handed to the first `GET` route that accepts
it, with the captures of that route. -/
theorem dispatch_head (w : World) {app : App σ} {calls : List (Router.AddCall (NextT σ))}
    (hrouter : app.router = Router.addAll calls) {c : Call σ} (hparams : c.req.params = [])
    (hmethod : c.req.method.bytes = ascii "HEAD")
    (hmiss : calls.find? (Router.AddCall.accepts (ascii "HEAD") c.req.path) = none)
    {call : Router.AddCall (NextT σ)}
    (hhit : calls.find? (Router.AddCall.accepts (ascii "GET") c.req.path) = some call) :
    ∃ captures,
      Matches (parsePattern call.pattern) ((pieces slash c.req.path).take maxSegments) captures ∧
        app.dispatch w c = catchStd (fun _ => .text [] 500) (clearBody
          (call.handler.invoke app.heap.cells ⟨c.user, { c.req with params := captures }⟩)) := by
  have hhead := Router.resolve_addAll calls (ascii "HEAD") c.req.path
  have hget := Router.resolve_addAll calls (ascii "GET") c.req.path
  rw [hmiss] at hhead
  rw [hhit] at hget
  -- The first lookup leaves no parameters for the second one.
  generalize hfirst : (Router.addAll calls).resolve (ascii "HEAD") c.req.path [] = first at hhead
  generalize hsecond : (Router.addAll calls).resolve (ascii "GET") c.req.path [] = second at hget
  cases hhead
  cases hget with
  | hit hm =>
    refine ⟨_, hm, ?_⟩
    rw [App.dispatch, hrouter, hmethod, hparams, hfirst]
    simp only [App.dispatchHead, hmethod, if_true, hrouter, hsecond]

/-- In every route table the lookup finds the first route with the method that matches the path,
with the captures of this route alone, and a `HEAD` request that falls back to a `GET` route
hands it nothing but its own captures. -/
theorem resolve_first_match :
    (∀ (H : Type) (calls : List (Router.AddCall H)) (method path : Bytes),
      Router.LookupResult path (calls.find? (Router.AddCall.accepts method path))
        ((Router.addAll calls).resolve method path [])) ∧
    ∀ (σ : Type) (w : World) (app : App σ) (calls : List (Router.AddCall (NextT σ))) (c : Call σ),
      app.router = Router.addAll calls → c.req.params = [] →
      c.req.method.bytes = ascii "HEAD" →
      calls.find? (Router.AddCall.accepts (ascii "HEAD") c.req.path) = none →
      ∀ call, calls.find? (Router.AddCall.accepts (ascii "GET") c.req.path) = some call →
        ∃ captures,
          Matches (parsePattern call.pattern) ((pieces slash c.req.path).take maxSegments)
            captures ∧
          app.dispatch w c = catchStd (fun _ => .text [] 500) (clearBody
            (call.handler.invoke app.heap.cells ⟨c.user, { c.req with params := captures }⟩)) := by
  constructor
  · intro H calls method path
    exact Router.resolve_addAll calls method path
  · intro σ w app calls c hrouter hparams hmethod hmiss call hhit
    exact dispatch_head w hrouter hparams hmethod hmiss hhit

/-- A route that answers with a text. -/
def textRoute (pattern text : Bytes) : Router.AddCall (NextT Unit) :=
  ⟨ascii "GET", pattern, .inner fun c => ⟨some ⟨c.user, c.req, .ok (.text text)⟩, []⟩⟩

/-- Two routes, the first of which captures a number of the path `/a/1/c` before it fails. -/
def overlappingRoutes : List (Router.AddCall (NextT Unit)) :=
  [textRoute (ascii "/a/<int:n>/b") (ascii "b"), textRoute (ascii "/a/<s>/c") (ascii "c")]

/-- A `HEAD` request for that path. -/
def overlappingCall : Call Unit :=
  ⟨(), { Request.empty with method := ⟨.readBuffer 0, 0, ascii "HEAD"⟩, path := ascii "/a/1/c" }⟩

theorem resolve_first_match_overlapping :
    Router.LookupResult (ascii "/a/1/c") (some (textRoute (ascii "/a/<s>/c") (ascii "c")))
        ((Router.addAll overlappingRoutes).resolve (ascii "GET") (ascii "/a/1/c") []) ∧
      ∃ captures,
        Matches (parsePattern (ascii "/a/<s>/c"))
          ((pieces slash (ascii "/a/1/c")).take maxSegments) captures ∧
        App.dispatch ⟨sampleSite, sampleClock⟩
            { App.empty with router := Router.addAll overlappingRoutes } overlappingCall =
          catchStd (fun _ => .text [] 500) (clearBody
            ((textRoute (ascii "/a/<s>/c") (ascii "c")).handler.invoke
              (App.empty : App Unit).heap.cells
              ⟨(), { overlappingCall.req with params := captures }⟩)) := by
  obtain ⟨hresolve, hdispatch⟩ := resolve_first_match
  constructor
  · exact hresolve (NextT Unit) overlappingRoutes (ascii "GET") (ascii "/a/1/c")
  · exact hdispatch Unit _ { App.empty with router := Router.addAll overlappingRoutes }
      overlappingRoutes overlappingCall rfl rfl rfl rfl _ rfl

end Lundi
