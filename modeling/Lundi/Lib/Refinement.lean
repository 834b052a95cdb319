import Lundi.Lib.Runs

/-!
# Refinement of a total specification by a partial machine

The machine `step : C → O → Option C` may fail, the specification `spec : Q → O → Q` does not. The
machine refines the specification along a relation of their states if it can carry out every
operation that is allowed, and the states stay related.

* `Refines.run`: then a list of operations, each allowed when its turn comes, is carried out to its
  end.
-/

namespace Refinement

open Runs

variable {C Q O : Type*}

/-- An allowed operation of the machine succeeds, and leads to related states. -/
def Refines (step : C → O → Option C) (spec : Q → O → Q) (ok : C → Q → O → Prop)
    (rel : C → Q → Prop) : Prop :=
  ∀ c q op, rel c q → ok c q op → ∃ c', step c op = some c' ∧ rel c' (spec q op)

/-- Each operation of a list is allowed when its turn comes. -/
def AllowedAlong (step : C → O → Option C) (spec : Q → O → Q) (ok : C → Q → O → Prop) :
    C → Q → List O → Prop
  | _, _, [] => True
  | c, q, op :: ops =>
    ok c q op ∧ ∀ c', step c op = some c' → AllowedAlong step spec ok c' (spec q op) ops

/-- Whether a list of operations is allowed is found out by carrying it out. -/
instance (step : C → O → Option C) (spec : Q → O → Q) (ok : C → Q → O → Prop)
    [∀ c q op, Decidable (ok c q op)] :
    ∀ c q ops, Decidable (AllowedAlong step spec ok c q ops)
  | _, _, [] => isTrue trivial
  | c, q, op :: ops =>
    match h : step c op with
    | none => decidable_of_iff (ok c q op) (by simp [AllowedAlong, h])
    | some c' =>
      have := instDecidableAllowedAlong step spec ok c' (spec q op) ops
      decidable_of_iff (ok c q op ∧ AllowedAlong step spec ok c' (spec q op) ops)
        (by simp [AllowedAlong, h])

variable {step : C → O → Option C} {spec : Q → O → Q} {ok : C → Q → O → Prop} {rel : C → Q → Prop}

/-- The machine carries the operations out, and ends in a state related to the one specified. -/
theorem Refines.run (h : Refines step spec ok rel) {c : C} {q : Q} {ops : List O} (hrel : rel c q)
    (hok : AllowedAlong step spec ok c q ops) :
    ∃ c', Runs.run step c ops = some c' ∧ rel c' (ops.foldl spec q) := by
  induction ops generalizing c q with
  | nil => exact ⟨c, rfl, hrel⟩
  | cons op ops ih =>
    obtain ⟨c', hstep, hrel'⟩ := h c q op hrel hok.1
    obtain ⟨c'', hrun, hend⟩ := ih hrel' (hok.2 c' hstep)
    refine ⟨c'', ?_, hend⟩
    rw [run_cons, hstep, Option.bind_some, hrun]

end Refinement
