import Lundi.Middleware.Chain

/-!
# Middleware that does not look at the method

What such a middleware does is a function of the request without its method, and of the answers to
its calls without theirs. It may still hand on a method or a body that it has been given: a `Plan`
is the tree of what it does, in which these are told apart from methods and bodies of its own.

Two requests that differ in their methods are followed through a chain of such middleware. A
`Report` is what is said of the first of them, with marks for what is different for the second: a
method that is still the one of the client, and a body that the second request does not get.

* `Plan.describes_report`: one middleware, by induction on its plan;
* `describes_reportThrough`: a chain around an innermost handler.
-/

namespace Lundi

open Onion

variable {σ : Type}

/-! ### Methods and bodies -/

/-- The same request with another method. -/
def Call.withMethod (c : Call σ) (method : StringView) : Call σ :=
  ⟨c.user, { c.req with method := method }⟩

namespace Answer

/-- The same answer with another method in the request. -/
def withMethod (a : Answer σ) (method : StringView) : Answer σ :=
  { a with req := { a.req with method := method } }

/-- The body of the response. -/
def body (a : Answer σ) : Bytes :=
  match a.result with
  | .ok res => res.body
  | .error _ => []

/-- The same answer with another body; an exception stays what it is. -/
def withBody (a : Answer σ) (body : Bytes) : Answer σ :=
  { a with result := a.result.map fun res => { res with body := body } }

end Answer

/-- A request, as it stands when the client's method is `other`. -/
def Call.twin (other : StringView) (kept : Bool) (c : Call σ) : Call σ :=
  if kept then c.withMethod other else c

/-- An answer, as it stands when the client's method is `other`: in the request the method is still
the client's or not, and the body is withheld or not. -/
def Answer.twin (other : StringView) (kept withheld : Bool) (a : Answer σ) : Answer σ :=
  let a := if kept then a.withMethod other else a
  if withheld then a.withBody [] else a

/-- A marked method, as it stands when the client's method is `other`. -/
def methodFor (other : StringView) (m : StringView × Bool) : StringView :=
  if m.2 then other else m.1

/-- A marked body, as the other request gets it. -/
def bodyFor (b : Bytes × Bool) : Bytes := if b.2 then [] else b.1

/-- One of the things that have been seen, or a thing of its own. -/
def pick {α : Type} (seen : List α) (own : α) : Option ℕ → α
  | none => own
  | some n => seen.getD n own

theorem pick_map {α β : Type} (f : α → β) (seen : List α) (own : α) (choice : Option ℕ) :
    pick (seen.map f) (f own) choice = f (pick seen own choice) := by
  cases choice with
  | none => rfl
  | some n =>
    rw [pick, pick, List.getD_eq_getElem?_getD, List.getD_eq_getElem?_getD, List.getElem?_map,
      Option.getD_map]

/-- A method that is marked is the client's, when all that have been seen are. -/
theorem eq_of_pick {client : StringView} {methods : List (StringView × Bool)}
    (h : ∀ m ∈ methods, m.2 = true → m.1 = client) (own : StringView) (choice : Option ℕ)
    (hkept : (pick methods (own, false) choice).2 = true) :
    (pick methods (own, false) choice).1 = client := by
  cases choice with
  | none => cases hkept
  | some n =>
    rw [pick, List.getD_eq_getElem?_getD] at hkept ⊢
    cases hget : methods[n]? with
    | none =>
      rw [hget] at hkept
      cases hkept
    | some m =>
      rw [hget] at hkept
      exact h m (List.mem_of_getElem? hget) hkept

theorem withMethod_methodFor (other : StringView) (m : StringView × Bool) (c : Call σ) :
    c.withMethod (methodFor other m) = (c.withMethod m.1).twin other m.2 := by
  obtain ⟨method, _ | _⟩ := m <;> rfl

namespace Answer

theorem method_twin (other : StringView) (kept withheld : Bool) (a : Answer σ) :
    (a.twin other kept withheld).req.method = methodFor other (a.req.method, kept) := by
  cases kept <;> cases withheld <;> rfl

theorem body_twin (other : StringView) (kept withheld : Bool) (a : Answer σ) :
    (a.twin other kept withheld).body = bodyFor (a.body, withheld) := by
  obtain ⟨user, req, result⟩ := a
  cases kept <;> cases withheld <;> cases result <;> rfl

/-- An answer that is put together from a marked method and a marked body. -/
theorem twin_fill (other : StringView) (m : StringView × Bool) (b : Bytes × Bool) (a : Answer σ) :
    ((a.withMethod m.1).withBody b.1).twin other m.2 b.2 =
      (a.withMethod (methodFor other m)).withBody (bodyFor b) := by
  obtain ⟨user, req, result⟩ := a
  obtain ⟨method, _ | _⟩ := m <;> obtain ⟨body, _ | _⟩ := b <;> cases result <;> rfl

end Answer

/-! ### Plans -/

/-- What a middleware does: it finishes with an answer or calls its continuation and goes on. The
method of the request, and the body of the answer, is its own or one of those that it has been
given; the method of its own request comes before those that its calls have left. -/
inductive Plan (σ : Type)
  | finish (a : Answer σ) (method body : Option ℕ)
  | call (c : Call σ) (method : Option ℕ) (resume : Answer σ → Plan σ)

/-- What a middleware sees of an answer: all but the method, and perhaps the body. -/
def Answer.seen (looks : Bool) (a : Answer σ) : Answer σ :=
  if looks then a.withMethod .empty else (a.withMethod .empty).withBody []

namespace Plan

/-- The code of a plan, with what it has been given so far. -/
def toBody (looks : Bool) : List StringView → List Bytes → Plan σ → Body (Call σ) (Answer σ)
  | methods, bodies, .finish a method body =>
    .finish ((a.withMethod (pick methods a.req.method method)).withBody (pick bodies a.body body))
  | methods, bodies, .call c method resume =>
    .call (c.withMethod (pick methods c.req.method method)) fun a =>
      (resume (a.seen looks)).toBody looks (methods ++ [a.req.method]) (bodies ++ [a.body])

end Plan

/-- What is said of a request. -/
inductive Report (σ : Type)
  /-- A middleware has looked at a body that the other request does not get. -/
  | unsettled
  | undefined
  /-- The answer: the method in its request is the client's or not, and the other request does not
  get its body or does. -/
  | answered (a : Answer σ) (kept withheld : Bool)

/-- The report of a plan, whose calls are reported by `inside`. -/
def Plan.report (looks : Bool) (inside : Call σ → Bool → Report σ) :
    List (StringView × Bool) → List (Bytes × Bool) → Plan σ → Report σ
  | methods, bodies, .finish a method body =>
    let m := pick methods (a.req.method, false) method
    let b := pick bodies (a.body, false) body
    .answered ((a.withMethod m.1).withBody b.1) m.2 b.2
  | methods, bodies, .call c method resume =>
    let m := pick methods (c.req.method, false) method
    match inside (c.withMethod m.1) m.2 with
    | .unsettled => .unsettled
    | .undefined => .undefined
    | .answered a kept withheld =>
      if looks = true ∧ withheld = true ∧ a.body ≠ [] then .unsettled
      else
        (resume (a.seen looks)).report looks inside (methods ++ [(a.req.method, kept)])
          (bodies ++ [(a.body, withheld)])

/-- The report is right about a request with the client's method, and about the same request with
the other one. -/
def Report.Describes (client other : StringView) (r : Report σ) (x y : Option (Answer σ)) : Prop :=
  match r with
  | .unsettled => True
  | .undefined => x = none ∧ y = none
  | .answered a kept withheld =>
    x = some a ∧ y = some (a.twin other kept withheld) ∧ (kept = true → a.req.method = client)

variable {client other : StringView}

/-- An answer and its twin look the same, unless a body is missing and looked at. -/
theorem Answer.seen_twin {looks kept withheld : Bool} {a : Answer σ}
    (h : ¬ (looks = true ∧ withheld = true ∧ a.body ≠ [])) :
    (a.twin other kept withheld).seen looks = a.seen looks := by
  obtain ⟨user, req, result⟩ := a
  cases withheld with
  | false => cases kept <;> rfl
  | true =>
    cases looks with
    | false => cases kept <;> cases result <;> rfl
    | true =>
      -- The body that is withheld is empty.
      cases result with
      | error e => cases kept <;> rfl
      | ok res =>
        have hbody : res.body = [] := by simpa [Answer.body] using h
        have hsame : ({ res with body := [] } : Response) = res := by rw [← hbody]
        cases kept <;> simp [Answer.twin, Answer.seen, Answer.withBody, Answer.withMethod, hsame,
          Except.map]

/-- A plan does for both requests what its report says. The induction is on the plan: each call is
reported rightly, and what it leaves is seen alike. -/
theorem Plan.describes_report {looks : Bool} {next : Call σ → Invocation σ} {onCall : Event}
    {onFinish : Answer σ → List Event} {inside : Call σ → Bool → Report σ}
    (hinside : ∀ c kept, (kept = true → c.req.method = client) →
      (inside c kept).Describes client other (next c).outcome (next (c.twin other kept)).outcome)
    (p : Plan σ) {methods : List (StringView × Bool)}
    (hmethods : ∀ m ∈ methods, m.2 = true → m.1 = client) (bodies : List (Bytes × Bool)) :
    (p.report looks inside methods bodies).Describes client other
      ((p.toBody looks (methods.map Prod.fst) (bodies.map Prod.fst)).run next onCall
        onFinish).outcome
      ((p.toBody looks (methods.map (methodFor other)) (bodies.map bodyFor)).run next onCall
        onFinish).outcome := by
  induction p generalizing methods bodies with
  | finish a method body =>
    refine ⟨?_, ?_, eq_of_pick hmethods _ _⟩
    · exact congrArg some (congrArg₂ (fun m b => (a.withMethod m).withBody b)
        (pick_map Prod.fst methods (a.req.method, false) method)
        (pick_map Prod.fst bodies (a.body, false) body))
    · rw [Answer.twin_fill, ← pick_map (methodFor other), ← pick_map bodyFor]
      rfl
  | call c method resume ih =>
    have hkept := eq_of_pick hmethods c.req.method method
    have hfirst : pick (methods.map Prod.fst) c.req.method method =
        (pick methods (c.req.method, false) method).1 :=
      pick_map Prod.fst methods (c.req.method, false) method
    have hsecond : pick (methods.map (methodFor other)) c.req.method method =
        methodFor other (pick methods (c.req.method, false) method) :=
      pick_map (methodFor other) methods (c.req.method, false) method
    rw [report, toBody, toBody, hfirst, hsecond, withMethod_methodFor]
    generalize pick methods (c.req.method, false) method = m at hkept
    have hcall := hinside (c.withMethod m.1) m.2 hkept
    cases hreport : inside (c.withMethod m.1) m.2 with
    | unsettled => trivial
    | undefined =>
      rw [hreport] at hcall
      obtain ⟨hx, hy⟩ := hcall
      simp only [Body.run, hx, hy]
      exact ⟨rfl, rfl⟩
    | answered a kept withheld =>
      rw [hreport] at hcall
      obtain ⟨hx, hy, hleft⟩ := hcall
      dsimp only
      split
      · trivial
      next hsees =>
        -- What the call has left is marked as its report says.
        have hmethods' : ∀ m ∈ methods ++ [(a.req.method, kept)], m.2 = true → m.1 = client :=
          List.forall_mem_append.mpr ⟨hmethods, List.forall_mem_singleton.mpr hleft⟩
        have hrest := ih (a.seen looks) hmethods' (bodies ++ [(a.body, withheld)])
        simp only [Body.run, hx, hy, Answer.seen_twin hsees, Answer.method_twin, Answer.body_twin]
        simpa only [List.map_append, List.map_singleton] using hrest

/-! ### Chains -/

/-- A middleware that does not look at the method: its plan is made without. -/
structure BlindLayer (σ : Type) where
  /-- It looks at the bodies of responses. -/
  looks : Bool
  plan : Call σ → Plan σ

namespace BlindLayer

def toMiddleware (l : BlindLayer σ) : Middleware σ := fun c =>
  (l.plan (c.withMethod .empty)).toBody l.looks [c.req.method] []

/-- What is said of a request with the method of the client, or another one. -/
def report (inside : Call σ → Bool → Report σ) (l : BlindLayer σ) (c : Call σ) (kept : Bool) :
    Report σ :=
  (l.plan (c.withMethod .empty)).report l.looks inside [(c.req.method, kept)] []

theorem toMiddleware_twin (l : BlindLayer σ) (c : Call σ) (kept : Bool) :
    l.toMiddleware (c.twin other kept) =
      (l.plan (c.withMethod .empty)).toBody l.looks [methodFor other (c.req.method, kept)] [] := by
  cases kept <;> rfl

end BlindLayer

/-- What is said of a request that goes through a chain. -/
def reportThrough (innermost : Call σ → Bool → Report σ) :
    List (BlindLayer σ) → Call σ → Bool → Report σ
  | [] => innermost
  | l :: ls => l.report (reportThrough innermost ls)

/-- A compiled chain does for both requests what the report says, if the innermost handler does. The
induction is on the layers. -/
theorem describes_reportThrough {cells : ℕ → Option (Middleware σ)} {layers : List ℕ}
    {ls : List (BlindLayer σ)} (hcells : layers.map cells = ls.map fun l => some l.toMiddleware)
    {inner : Call σ → Invocation σ} {innermost : Call σ → Bool → Report σ}
    (hinner : ∀ c kept, (kept = true → c.req.method = client) → (innermost c kept).Describes
      client other (inner c).outcome (inner (c.twin other kept)).outcome)
    (c : Call σ) (kept : Bool) (hkept : kept = true → c.req.method = client) :
    (reportThrough innermost ls c kept).Describes client other
      ((layers.foldr NextT.layer (.inner inner)).invoke cells c).outcome
      ((layers.foldr NextT.layer (.inner inner)).invoke cells (c.twin other kept)).outcome := by
  induction ls generalizing layers c kept with
  | nil =>
    obtain rfl := List.map_eq_nil_iff.mp hcells
    exact hinner c kept hkept
  | cons l ls ih =>
    cases layers with
    | nil => exact absurd hcells (by simp)
    | cons cell layers =>
      obtain ⟨hcell, hcells⟩ := List.cons.inj hcells
      have hmethods : ∀ m ∈ [(c.req.method, kept)], m.2 = true → m.1 = client :=
        List.forall_mem_singleton.mpr hkept
      rw [List.foldr_cons, NextT.invoke, NextT.invoke, hcell]
      dsimp only
      rw [l.toMiddleware_twin]
      exact Plan.describes_report (fun c kept hkept => ih hcells c kept hkept) _ hmethods []

end Lundi
