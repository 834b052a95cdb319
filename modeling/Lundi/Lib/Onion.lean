import Mathlib.Data.List.Basic

/-!
# Layered calls

A *layer* is a body of code wrapped around a continuation: it may call the continuation any number
of times, each time with an argument of its choice, go on with the answer, and finally finish with
an answer of its own. `Body` is the tree of all its possible behaviours.

* `Body.answer` runs a body over a continuation that is a plain function; `onion` composes a list
  of layers around an innermost function.
* `Body.run` runs a body over a continuation that leaves a trace of events and may end in
  undefined behaviour; its `Traced` result is the trace of the whole call. `run_eq_answer`
  relates the two.
* `Precedes p q t` says that in the trace `t` an event satisfying `p` stands before every event
  satisfying `q`. `Body.precedes_run_of_call` and `Body.precedes_run` propagate it through a
  layer.
-/

namespace Onion

variable {α β ε : Type*}

/-- The body of a layer: `finish` with an answer, or `call` the continuation and go on. -/
inductive Body (α β : Type*)
  | finish (answer : β)
  | call (arg : α) (resume : β → Body α β)

/-- What is known of a call that has ended: its answer, or nothing when its behaviour is
undefined, and the events on the way. -/
structure Traced (ε β : Type*) where
  /-- The answer; `none` stands for undefined behaviour. -/
  outcome : Option β
  /-- The events, in order. -/
  events : List ε

/-- The answer of a body over a plain continuation. -/
def Body.answer (next : α → β) : Body α β → β
  | .finish b => b
  | .call a resume => (resume (next a)).answer next

/-- The layers around `inner`, the first of the list outermost. -/
def onion (layers : List (α → Body α β)) (inner : α → β) : α → β :=
  layers.foldr (fun layer next a => (layer a).answer next) inner

/-- Run a body over a traced continuation: `onCall` is left by each call of the continuation, and
`onFinish` by the answer. Undefined behaviour inside ends everything. -/
def Body.run (next : α → Traced ε β) (onCall : ε) (onFinish : β → List ε) :
    Body α β → Traced ε β
  | .finish b => ⟨some b, onFinish b⟩
  | .call a resume =>
    match (next a).outcome with
    | none => ⟨none, onCall :: (next a).events⟩
    | some b =>
      let rest := (resume b).run next onCall onFinish
      ⟨rest.outcome, onCall :: ((next a).events ++ rest.events)⟩

/-- Over a continuation that always answers, a traced run answers as a plain run does. -/
theorem Body.run_eq_answer {next : α → Traced ε β} {plain : α → β}
    (h : ∀ a, (next a).outcome = some (plain a)) (onCall : ε) (onFinish : β → List ε)
    (body : Body α β) :
    (body.run next onCall onFinish).outcome = some (body.answer plain) := by
  induction body with
  | finish b => rfl
  | call a resume ih =>
    simp only [run, h a]
    exact ih _

/-- In `t` an event satisfying `p` stands before every event satisfying `q`. -/
def Precedes (p q : ε → Prop) (t : List ε) : Prop :=
  ∀ before e after, t = before ++ e :: after → q e → ∃ d ∈ before, p d

theorem Precedes.of_forall_not {p q : ε → Prop} {t : List ε} (h : ∀ e ∈ t, ¬ q e) :
    Precedes p q t := by
  rintro before e after rfl hq
  exact absurd hq (h e (by simp))

theorem precedes_cons_of_left {p q : ε → Prop} {e : ε} {t : List ε} (hp : p e) (hq : ¬ q e) :
    Precedes p q (e :: t) := by
  intro before d after heq hd
  cases before with
  | nil =>
    obtain ⟨rfl, -⟩ := List.cons.inj heq
    exact absurd hd hq
  | cons c before =>
    obtain ⟨rfl, -⟩ := List.cons.inj heq
    exact ⟨e, List.mem_cons_self, hp⟩

theorem Precedes.cons {p q : ε → Prop} {e : ε} {t : List ε} (h : Precedes p q t) (hq : ¬ q e) :
    Precedes p q (e :: t) := by
  intro before d after heq hd
  cases before with
  | nil =>
    obtain ⟨rfl, -⟩ := List.cons.inj heq
    exact absurd hd hq
  | cons c before =>
    obtain ⟨-, htail⟩ := List.cons.inj heq
    obtain ⟨x, hx, hp⟩ := h before d after htail hd
    exact ⟨x, List.mem_cons_of_mem _ hx, hp⟩

theorem Precedes.append {p q : ε → Prop} {s t : List ε} (hs : Precedes p q s)
    (ht : Precedes p q t) : Precedes p q (s ++ t) := by
  intro before e after heq hq
  -- The event with `q` lies in `t`, or it lies in `s`.
  rcases List.append_eq_append_iff.mp heq with ⟨mid, rfl, rfl⟩ | ⟨mid, rfl, hmid⟩
  · obtain ⟨d, hd, hp⟩ := ht mid e after rfl hq
    exact ⟨d, List.mem_append_right _ hd, hp⟩
  · cases mid with
    | nil =>
      obtain ⟨d, hd, -⟩ := ht [] e after (by simpa using hmid.symm) hq
      exact absurd hd (by simp)
    | cons c mid =>
      obtain ⟨rfl, -⟩ := List.cons.inj hmid
      exact hs before e mid rfl hq

/-- A trace that is embedded into another kind of events. -/
theorem Precedes.map {ε' : Type*} {f : ε → ε'} {p q : ε' → Prop} {t : List ε}
    (h : Precedes (fun e => p (f e)) (fun e => q (f e)) t) : Precedes p q (t.map f) := by
  intro before e after heq hq
  obtain ⟨s, rest, rfl, rfl, hrest⟩ := List.map_eq_append_iff.mp heq
  obtain ⟨d, t', rfl, rfl, rfl⟩ := List.map_eq_cons_iff.mp hrest
  obtain ⟨x, hx, hp⟩ := h s d t' rfl hq
  exact ⟨f x, List.mem_map_of_mem hx, hp⟩

/-- If calling the continuation satisfies `p`, and nothing the layer does by itself satisfies `q`,
then `p` precedes `q` in the run of the layer, whatever happens inside. -/
theorem Body.precedes_run_of_call {p q : ε → Prop} {next : α → Traced ε β} {onCall : ε}
    {onFinish : β → List ε} (hp : p onCall) (hq : ¬ q onCall)
    (hfinish : ∀ b, ∀ e ∈ onFinish b, ¬ q e) (body : Body α β) :
    Precedes p q (body.run next onCall onFinish).events := by
  cases body with
  | finish b => exact .of_forall_not (hfinish b)
  | call a resume =>
    -- The first thing that is seen of a call is `onCall`.
    rw [run]
    split <;> exact precedes_cons_of_left hp hq

/-- If `p` precedes `q` in every run of the continuation, and nothing the layer does by itself
satisfies `q`, then `p` precedes `q` in the run of the layer. -/
theorem Body.precedes_run {p q : ε → Prop} {next : α → Traced ε β} {onCall : ε}
    {onFinish : β → List ε} (hnext : ∀ a, Precedes p q (next a).events) (hq : ¬ q onCall)
    (hfinish : ∀ b, ∀ e ∈ onFinish b, ¬ q e) (body : Body α β) :
    Precedes p q (body.run next onCall onFinish).events := by
  induction body with
  | finish b => exact .of_forall_not (hfinish b)
  | call a resume ih =>
    rw [run]
    split
    · -- The behaviour inside is undefined, and nothing comes after it.
      exact (hnext a).cons hq
    · exact ((hnext a).append (ih _)).cons hq

end Onion
