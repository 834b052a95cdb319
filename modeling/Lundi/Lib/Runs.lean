import Mathlib.Data.List.Basic

/-!
# Runs of a transition system

A system is a partial step function `step : S → A → Option S` on states and actions. `Reach` are
the states that it gets to by steps that satisfy a condition `ok`, which is how a statement about
all runs, or about the runs whose steps all meet a condition, is phrased. The module gives

* `Reach.invariant`: what holds at the start and is kept by every step that is allowed holds in
  every state reached;
* `Reach.trans` and `Reach.mono`: runs are put together, and may be allowed more;
* `Reach.total`: where there is a single action, one of two states reached comes after the other;
* `Reach.of_run` and `Reach.of_run_guarded`: a list of actions that can be carried out one after the
  other, each of them allowed, leads to a state reached.
-/

namespace Runs

variable {S A : Type*}

/-- Every step is allowed. -/
def Any (_ : S) (_ : A) : Prop := True

/-- The states reached from `start` by steps that are allowed. -/
inductive Reach (step : S → A → Option S) (ok : S → A → Prop) (start : S) : S → Prop
  | start : Reach step ok start start
  | step {s s' : S} (a : A) (hs : Reach step ok start s) (hok : ok s a)
    (h : step s a = some s') : Reach step ok start s'

variable {step : S → A → Option S} {ok ok' : S → A → Prop} {start s s' : S}

namespace Reach

/-- An inductive invariant holds in every state reached. -/
theorem invariant {I : S → Prop} (h : Reach step ok start s) (hstart : I start)
    (hstep : ∀ s a s', I s → ok s a → step s a = some s' → I s') : I s := by
  induction h with
  | start => exact hstart
  | step a _ hok h ih => exact hstep _ a _ ih hok h

/-- Runs are put together. -/
theorem trans (h : Reach step ok start s) (h' : Reach step ok s s') :
    Reach step ok start s' := by
  induction h' with
  | start => exact h
  | step a _ hok hstep ih => exact .step a ih hok hstep

/-- What is allowed under a condition is allowed under a weaker one. -/
theorem mono (h : Reach step ok start s) (hle : ∀ s a, ok s a → ok' s a) :
    Reach step ok' start s := by
  induction h with
  | start => exact .start
  | step a _ hok hstep ih => exact .step a ih (hle _ a hok) hstep

/-- A state reached is the first one, or it is reached from behind the first step. -/
theorem eq_or_step (h : Reach step ok start s) :
    start = s ∨ ∃ a t, ok start a ∧ step start a = some t ∧ Reach step ok t s := by
  induction h with
  | start => exact Or.inl rfl
  | step a _ hok hstep ih =>
    rcases ih with rfl | ⟨b, t, hb, ht, hrest⟩
    · exact Or.inr ⟨a, _, hok, hstep, .start⟩
    · exact Or.inr ⟨b, t, hb, ht, .step a hrest hok hstep⟩

/-- Where there is a single action, one of two states reached comes after the other. -/
theorem total [Subsingleton A] (h : Reach step ok start s) (h' : Reach step ok start s') :
    Reach step ok s s' ∨ Reach step ok s' s := by
  induction h' with
  | start => exact Or.inr h
  | step a _ hok hstep ih =>
    rcases ih with hlater | hearlier
    · exact Or.inl (.step a hlater hok hstep)
    · rcases hearlier.eq_or_step with rfl | ⟨b, t, -, ht, hrest⟩
      · exact Or.inl (.step a .start hok hstep)
      · -- The step behind the earlier state is the one that has been taken.
        rw [Subsingleton.elim b a, hstep] at ht
        obtain rfl := Option.some_inj.mp ht
        exact Or.inr hrest

/-- A system whose steps are runs of another one, seen through a map, reaches states of that one. -/
theorem map {S' A' : Type*} {step' : S' → A' → Option S'} {allowed : S' → A' → Prop} {f : S → S'}
    (h : Reach step ok start s)
    (hstep : ∀ s a s', ok s a → step s a = some s' → Reach step' allowed (f s) (f s')) :
    Reach step' allowed (f start) (f s) := by
  induction h with
  | start => exact .start
  | step a _ hok h ih => exact ih.trans (hstep _ a _ hok h)

/-- Without a condition, any step that is possible is allowed. -/
theorem next (h : Reach step Any start s) (a : A) (hstep : step s a = some s') :
    Reach step Any start s' := .step a h trivial hstep

end Reach

/-- The state behind a list of actions, if they can be carried out one after the other. -/
def run (step : S → A → Option S) (s : S) (actions : List A) : Option S := actions.foldlM step s

@[simp]
theorem run_nil (s : S) : run step s ([] : List A) = some s := rfl

@[simp]
theorem run_cons (s : S) (a : A) (actions : List A) :
    run step s (a :: actions) = (step s a).bind fun s => run step s actions := rfl

/-- A list of actions leads to a state reached. -/
theorem Reach.of_run {actions : List A} (h : run step s actions = some s') :
    Reach step Any s s' := by
  induction actions generalizing s with
  | nil =>
    obtain rfl := Option.some_inj.mp h
    exact .start
  | cons a actions ih =>
    rw [run_cons] at h
    obtain ⟨t, ht, hrest⟩ := Option.bind_eq_some_iff.mp h
    exact (Reach.start.next a ht).trans (ih hrest)

/-- The system without the steps that are not allowed. -/
def guarded (step : S → A → Option S) (ok : S → A → Prop) [∀ s a, Decidable (ok s a)] (s : S)
    (a : A) : Option S := if ok s a then step s a else none

/-- A list of actions, each of them allowed when its turn comes, leads to a state reached. -/
theorem Reach.of_run_guarded [∀ s a, Decidable (ok s a)] {actions : List A}
    (h : run (guarded step ok) s actions = some s') : Reach step ok s s' := by
  induction actions generalizing s with
  | nil =>
    obtain rfl := Option.some_inj.mp h
    exact .start
  | cons a actions ih =>
    rw [run_cons] at h
    obtain ⟨t, ht, hrest⟩ := Option.bind_eq_some_iff.mp h
    rw [guarded, Option.ite_none_right_eq_some] at ht
    exact (Reach.step a .start ht.1 ht.2).trans (ih hrest)

end Runs
