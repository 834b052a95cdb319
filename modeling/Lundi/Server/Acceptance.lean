import Lundi.Lib.Runs
import Lundi.Server.AcceptLoop

/-!
# What becomes of accepted connections

The accept loop with the outcomes of its calls of `async_accept` and of `set_option`. The `try`
block stands around the whole loop, so the first `system_error` ends it, while the server goes on.

* `Progress`: what the loop has done with the outcomes so far, and `Reaches.progress`: it has in
  every state reached;
* `allHanded_iff`: every connection whose accept succeeds is handed to a worker exactly when no
  accept succeeds from the first error on.
-/

namespace Lundi

open Runs

/-- The error codes that the loop tells apart. -/
inductive AcceptError
  | operationAborted
  | other (code : ℤ)
  deriving DecidableEq

/-- What a call of `async_accept` ends with, and for a connection `set_option( no_delay )`. -/
inductive AcceptOutcome (C : Type)
  | failed (e : AcceptError)
  | connected (conn : C) (noDelay : Option AcceptError)
  deriving DecidableEq

variable {C : Type}

/-- The connections whose accept succeeds. -/
def accepted : List (AcceptOutcome C) → List C
  | [] => []
  | .failed _ :: outcomes => accepted outcomes
  | .connected conn _ :: outcomes => conn :: accepted outcomes

/-- No accept succeeds from the first error on, be it one of `async_accept` or of
`set_option`. -/
def ErrorsLast : List (AcceptOutcome C) → Prop
  | [] => True
  | .connected _ none :: outcomes => ErrorsLast outcomes
  | .connected _ (some _) :: _ => False
  | .failed _ :: outcomes => accepted outcomes = []

/-- The accept loop with what it is to see and what it has done. -/
structure AcceptRun (n : ℕ) (C : Type) where
  acceptor : Acceptor n
  /-- `socket`, with what `set_option` returns for it. -/
  socket : Option (C × Option AcceptError)
  /-- The outcomes of the further calls of `async_accept`. -/
  offered : List (AcceptOutcome C)
  /-- The connections given to `spawn_safe`, with their workers. -/
  handed : List (Fin (n + 1) × C)
  /-- The error codes that have been written to the error stream. -/
  logged : List AcceptError

namespace AcceptRun

variable {n : ℕ}

/-- The server before the first connection. -/
def start (n : ℕ) (outcomes : List (AcceptOutcome C)) : AcceptRun n C :=
  ⟨.start n, none, outcomes, [], []⟩

/-- The `catch` block. -/
def report (logged : List AcceptError) (e : AcceptError) : List AcceptError :=
  if e ≠ .operationAborted then logged ++ [e] else logged

/-- One step of the loop or of a connection. -/
def step (s : AcceptRun n C) (a : AcceptAction n) : Option (AcceptRun n C) :=
  match a with
  | .accept =>
    match s.offered with
    | .connected conn noDelay :: offered =>
      (s.acceptor.step .accept).map fun acceptor =>
        { s with acceptor := acceptor, socket := some (conn, noDelay), offered := offered }
    | _ => none
  | .fail =>
    match s.socket, s.offered with
    | none, .failed e :: offered =>
      (s.acceptor.step .fail).map fun acceptor =>
        { s with acceptor := acceptor, offered := offered, logged := report s.logged e }
    | some (_, some e), _ =>
      (s.acceptor.step .fail).map fun acceptor =>
        { s with acceptor := acceptor, socket := none, logged := report s.logged e }
    | _, _ => none
  | .count =>
    match s.socket with
    | some (_, none) => (s.acceptor.step .count).map fun acceptor => { s with acceptor := acceptor }
    | _ => none
  | .spawn =>
    match s.acceptor.phase, s.socket with
    | .counted best, some (conn, _) =>
      (s.acceptor.step .spawn).map fun acceptor =>
        { s with acceptor := acceptor, socket := none, handed := s.handed ++ [(best, conn)] }
    | _, _ => none
  | a => (s.acceptor.step a).map fun acceptor => { s with acceptor := acceptor }

/-- The states reached when the calls end with these outcomes, for any order of the steps. -/
abbrev Reaches (outcomes : List (AcceptOutcome C)) (s : AcceptRun n C) : Prop :=
  Reach step Any (start n outcomes) s

/-- The loop has nothing to do any more: it has been left, or waits for a connection that does not
come. -/
def AtRest (s : AcceptRun n C) : Prop :=
  s.acceptor.phase = .ended ∨ (∃ best, s.acceptor.phase = .accepting best) ∧ s.offered = []

/-- The outcome of a connection that is handed on. -/
abbrev good (conn : C) : AcceptOutcome C := .connected conn none

/-- The outcome that the loop is dealing with, or that has ended it. -/
inductive Current : AcceptPhase n → Option (C × Option AcceptError) → List (AcceptOutcome C) → Prop
  | top : Current .top none []
  | scanning (i : ℕ) (best : Fin (n + 1)) (bestCount : ℤ) :
    Current (.scanning i best bestCount) none []
  | accepting (best : Fin (n + 1)) : Current (.accepting best) none []
  | accepted (best : Fin (n + 1)) (conn : C) (noDelay : Option AcceptError) :
    Current (.accepted best) (some (conn, noDelay)) [.connected conn noDelay]
  | counted (best : Fin (n + 1)) (conn : C) :
      Current (.counted best) (some (conn, none)) [good conn]
  | ended {bad : AcceptOutcome C} (h : ∀ conn, bad ≠ good conn) : Current .ended none [bad]

/-- What the loop has done with the outcomes so far: it has handed on the connections of the first
ones, is dealing with the next one and has not seen the rest. -/
def Progress (outcomes : List (AcceptOutcome C)) (s : AcceptRun n C) : Prop :=
  ∃ current, Current s.acceptor.phase s.socket current ∧
    outcomes = (s.handed.map Prod.snd).map good ++ (current ++ s.offered)

/-- A suspended loop has no socket in hand. -/
theorem Current.socket_eq_none {best : Fin (n + 1)} {socket : Option (C × Option AcceptError)}
    {current : List (AcceptOutcome C)} (h : Current (.accepting best) socket current) :
    socket = none := by
  cases h
  rfl

theorem progress_start (outcomes : List (AcceptOutcome C)) : Progress outcomes (start n outcomes) :=
  ⟨[], Current.top, rfl⟩

end AcceptRun

/-- How a step moves the loop. -/
inductive PhaseStep {n : ℕ} : AcceptPhase n → AcceptAction n → AcceptPhase n → Prop
  | loadFirst (best : Fin (n + 1)) (bestCount : ℤ) :
    PhaseStep .top .load (.scanning 1 best bestCount)
  | loadNext {i j : ℕ} {best best' : Fin (n + 1)} {bestCount bestCount' : ℤ} :
    PhaseStep (.scanning i best bestCount) .load (.scanning j best' bestCount')
  | wait {i : ℕ} {best : Fin (n + 1)} {bestCount : ℤ} :
    PhaseStep (.scanning i best bestCount) .wait (.accepting best)
  | accept {best : Fin (n + 1)} : PhaseStep (.accepting best) .accept (.accepted best)
  | failAccept {best : Fin (n + 1)} : PhaseStep (.accepting best) .fail .ended
  | failOption {best : Fin (n + 1)} : PhaseStep (.accepted best) .fail .ended
  | count {best : Fin (n + 1)} : PhaseStep (.accepted best) .count (.counted best)
  | spawn {best : Fin (n + 1)} : PhaseStep (.counted best) .spawn .top
  | finish {p : AcceptPhase n} (w : Fin (n + 1)) : PhaseStep p (.finish w) p

theorem Acceptor.phaseStep {n : ℕ} {s s' : Acceptor n} {a : AcceptAction n}
    (h : s.step a = some s') : PhaseStep s.phase a s'.phase := by
  cases a with
  | load =>
    rw [step] at h
    split at h
    next hphase =>
      obtain rfl := Option.some_inj.mp h
      rw [hphase]
      exact PhaseStep.loadFirst _ _
    next i best bestCount hphase =>
      split at h
      next hi =>
        obtain rfl := Option.some_inj.mp h
        rw [hphase]
        -- Whether or not the counter is lower than the best one, the scan goes on to the next.
        split <;> exact PhaseStep.loadNext
      next => exact absurd h (by simp)
    next => exact absurd h (by simp)
  | wait =>
    rw [step] at h
    split at h
    next i best bestCount hphase =>
      split at h
      next => exact absurd h (by simp)
      next =>
        obtain rfl := Option.some_inj.mp h
        rw [hphase]
        exact PhaseStep.wait
    next => exact absurd h (by simp)
  | fail =>
    rw [step] at h
    split at h
    next best hphase =>
      obtain rfl := Option.some_inj.mp h
      rw [hphase]
      exact PhaseStep.failAccept
    -- With a connection at hand it is `set_option` that fails.
    next best hphase =>
      obtain rfl := Option.some_inj.mp h
      rw [hphase]
      exact PhaseStep.failOption
    next => exact absurd h (by simp)
  | finish w =>
    rw [step] at h
    split at h
    next => exact absurd h (by simp)
    next =>
      obtain rfl := Option.some_inj.mp h
      exact PhaseStep.finish w
  | accept | count | spawn =>
    rw [step] at h
    split at h
    next best hphase =>
      obtain rfl := Option.some_inj.mp h
      rw [hphase]
      constructor
    next => exact absurd h (by simp)

namespace AcceptRun

variable {n : ℕ} {outcomes : List (AcceptOutcome C)} {s s' : AcceptRun n C}

/-- Reading counters, waiting and the end of a connection deal with no outcome. -/
theorem Current.of_phaseStep {p p' : AcceptPhase n} {a : AcceptAction n}
    {socket : Option (C × Option AcceptError)} {current : List (AcceptOutcome C)}
    (h : Current p socket current) (hstep : PhaseStep p a p')
    (ha : a = .load ∨ a = .wait ∨ ∃ w, a = .finish w) : Current p' socket current := by
  rcases ha with rfl | rfl | ⟨w, rfl⟩
  · cases hstep <;> cases h <;> constructor
  · cases hstep
    cases h
    constructor
  · cases hstep
    exact h

/-- A step that touches nothing but the phase and the counters. -/
theorem Progress.of_map (hs : Progress outcomes s) {a : AcceptAction n}
    (ha : a = .load ∨ a = .wait ∨ ∃ w, a = .finish w)
    (h : ((s.acceptor.step a).map fun acceptor => { s with acceptor := acceptor }) = some s') :
    Progress outcomes s' := by
  obtain ⟨acceptor, hacceptor, rfl⟩ := Option.map_eq_some_iff.mp h
  obtain ⟨current, hcurrent, houtcomes⟩ := hs
  exact ⟨current, hcurrent.of_phaseStep (Acceptor.phaseStep hacceptor) ha, houtcomes⟩

/-- The next outcome is taken in hand. -/
theorem Current.accept {p p' : AcceptPhase n} {socket : Option (C × Option AcceptError)}
    {current : List (AcceptOutcome C)} (h : Current p socket current)
    (hstep : PhaseStep p .accept p') (conn : C) (noDelay : Option AcceptError) :
    current = [] ∧ Current p' (some (conn, noDelay)) [.connected conn noDelay] := by
  cases hstep
  cases h
  exact ⟨rfl, Current.accepted _ conn noDelay⟩

/-- Without a connection in hand, the next outcome ends the loop. -/
theorem Current.failAccept {p p' : AcceptPhase n} {current : List (AcceptOutcome C)}
    (h : Current p none current) (hstep : PhaseStep p .fail p') (e : AcceptError) :
    current = [] ∧ Current p' (none : Option (C × Option AcceptError)) [.failed e] := by
  cases hstep with
  | failAccept =>
    cases h
    exact ⟨rfl, Current.ended fun conn h => by simp at h⟩
  | failOption => cases h

/-- The outcome in hand ends the loop, and its connection is dropped. -/
theorem Current.failOption {p p' : AcceptPhase n} {conn : C} {e : AcceptError}
    {current : List (AcceptOutcome C)} (h : Current p (some (conn, some e)) current)
    (hstep : PhaseStep p .fail p') : Current p' none current := by
  cases hstep with
  | failAccept => cases h
  | failOption =>
    cases h
    exact Current.ended fun conn' h => by simp at h

theorem Current.count {p p' : AcceptPhase n} {conn : C} {current : List (AcceptOutcome C)}
    (h : Current p (some (conn, none)) current) (hstep : PhaseStep p .count p') :
    Current p' (some (conn, none)) current := by
  cases hstep
  cases h
  exact Current.counted _ conn

/-- The connection in hand is handed on. -/
theorem Current.spawn {p p' : AcceptPhase n} {conn : C} {noDelay : Option AcceptError}
    {current : List (AcceptOutcome C)} (h : Current p (some (conn, noDelay)) current)
    (hstep : PhaseStep p .spawn p') :
    current = [good conn] ∧ Current p' (none : Option (C × Option AcceptError)) [] := by
  cases hstep
  cases h
  exact ⟨rfl, Current.top⟩

/-- Every step makes progress. -/
theorem Progress.step (hs : Progress outcomes s) {a : AcceptAction n}
    (h : s.step a = some s') : Progress outcomes s' := by
  cases a with
  | load => exact hs.of_map (Or.inl rfl) h
  | wait => exact hs.of_map (Or.inr (Or.inl rfl)) h
  | finish w => exact hs.of_map (Or.inr (Or.inr ⟨w, rfl⟩)) h
  | accept =>
    rw [AcceptRun.step] at h
    obtain ⟨current, hcurrent, houtcomes⟩ := hs
    split at h
    next conn noDelay offered hoffered =>
      -- No outcome is half way, and the next one is now.
      obtain ⟨acceptor, hacceptor, rfl⟩ := Option.map_eq_some_iff.mp h
      obtain ⟨rfl, hnext⟩ := hcurrent.accept (Acceptor.phaseStep hacceptor) conn noDelay
      refine ⟨_, hnext, ?_⟩
      rw [houtcomes, hoffered]
      rfl
    next => exact absurd h (by simp)
  | fail =>
    rw [AcceptRun.step] at h
    obtain ⟨current, hcurrent, houtcomes⟩ := hs
    split at h
    next e offered hsocket hoffered =>
      -- The call of `accept` fails, and its error is the last outcome.
      obtain ⟨acceptor, hacceptor, rfl⟩ := Option.map_eq_some_iff.mp h
      rw [hsocket] at hcurrent
      obtain ⟨rfl, hended⟩ := hcurrent.failAccept (Acceptor.phaseStep hacceptor) e
      refine ⟨_, by rwa [hsocket], ?_⟩
      rw [houtcomes, hoffered]
      rfl
    next _ conn e hsocket =>
      -- The option of a connection fails, whose outcome is the current one already.
      obtain ⟨acceptor, hacceptor, rfl⟩ := Option.map_eq_some_iff.mp h
      rw [hsocket] at hcurrent
      exact ⟨current, hcurrent.failOption (Acceptor.phaseStep hacceptor), houtcomes⟩
    next => exact absurd h (by simp)
  | count =>
    rw [AcceptRun.step] at h
    obtain ⟨current, hcurrent, houtcomes⟩ := hs
    split at h
    next conn hsocket =>
      obtain ⟨acceptor, hacceptor, rfl⟩ := Option.map_eq_some_iff.mp h
      rw [hsocket] at hcurrent
      refine ⟨current, ?_, houtcomes⟩
      rw [hsocket]
      exact hcurrent.count (Acceptor.phaseStep hacceptor)
    next => exact absurd h (by simp)
  | spawn =>
    rw [AcceptRun.step] at h
    obtain ⟨current, hcurrent, houtcomes⟩ := hs
    split at h
    next best conn noDelay hcounted hsocket =>
      obtain ⟨acceptor, hacceptor, rfl⟩ := Option.map_eq_some_iff.mp h
      rw [hsocket] at hcurrent
      obtain ⟨rfl, htop⟩ := hcurrent.spawn (Acceptor.phaseStep hacceptor)
      refine ⟨[], htop, ?_⟩
      rw [houtcomes]
      simp
    next => exact absurd h (by simp)

theorem Reaches.progress (h : Reaches outcomes s) : Progress outcomes s :=
  h.invariant (progress_start outcomes) fun _ _ _ hs _ hstep => hs.step hstep

/-! ### The connections that are handed on -/

/-- Connections without errors are followed by what counts. -/
theorem errorsLast_append (conns : List C) (rest : List (AcceptOutcome C)) :
    ErrorsLast (conns.map good ++ rest) ↔ ErrorsLast rest := by
  induction conns with
  | nil => rfl
  | cons conn conns ih => exact ih

theorem accepted_append (conns : List C) (rest : List (AcceptOutcome C)) :
    accepted (conns.map good ++ rest) = conns ++ accepted rest := by
  induction conns with
  | nil => rfl
  | cons conn conns ih => exact congrArg (conn :: ·) ih

/-- An outcome that ends the loop comes last exactly when no accept succeeds from there on. -/
theorem errorsLast_cons_iff {bad : AcceptOutcome C} (hbad : ∀ conn, bad ≠ good conn)
    (rest : List (AcceptOutcome C)) :
    ErrorsLast (bad :: rest) ↔ accepted (bad :: rest) = [] := by
  cases bad with
  | failed e => rfl
  | connected conn noDelay =>
    cases noDelay with
    | none => exact absurd rfl (hbad conn)
    | some e => simp [ErrorsLast, accepted]

/-- A loop at rest has handed on what it has accepted exactly when no accept succeeds from the
first error on. -/
theorem Progress.handed_iff (hs : Progress outcomes s) (hrest : s.AtRest) :
    s.handed.map Prod.snd = accepted outcomes ↔ ErrorsLast outcomes := by
  obtain ⟨current, hcurrent, rfl⟩ := hs
  rw [errorsLast_append, accepted_append, List.self_eq_append_right]
  rcases hrest with hended | ⟨⟨best, hphase⟩, hoffered⟩
  · rw [hended] at hcurrent
    generalize s.socket = socket at hcurrent
    cases hcurrent with
    | ended hbad => exact (errorsLast_cons_iff hbad s.offered).symm
  · rw [hphase] at hcurrent
    generalize s.socket = socket at hcurrent
    cases hcurrent
    rw [hoffered]
    exact iff_of_true rfl trivial

/-! ### The loop comes to rest -/

/-- The scan reads the next counter. -/
theorem exists_load {i : ℕ} {best : Fin (n + 1)} {bestCount : ℤ}
    (hphase : s.acceptor.phase = .scanning i best bestCount) (hi : i < n + 1) :
    ∃ s', s.step .load = some s' ∧ s'.offered = s.offered ∧
      ∃ best' bestCount', s'.acceptor.phase = .scanning (i + 1) best' bestCount' := by
  simp only [step, Acceptor.step, hphase, hi, dif_pos, Option.map_some]
  refine ⟨_, rfl, rfl, ?_⟩
  split
  · exact ⟨_, _, rfl⟩
  · exact ⟨_, _, rfl⟩

/-- From any point of the scan the loop gets to `async_accept`. -/
theorem Reaches.exists_accepting_of_scanning {i : ℕ} {best : Fin (n + 1)} {bestCount : ℤ}
    (h : Reaches outcomes s) (hphase : s.acceptor.phase = .scanning i best bestCount) :
    ∃ s' : AcceptRun n C, Reaches outcomes s' ∧ s'.offered = s.offered ∧
      ∃ best, s'.acceptor.phase = .accepting best := by
  induction hleft : n + 1 - i generalizing s i best bestCount with
  | zero =>
    -- All counters have been read.
    have hi : ¬ i < n + 1 := by omega
    have hwait : s.step .wait =
        some { s with acceptor := { s.acceptor with phase := .accepting best } } := by
      simp only [step, Acceptor.step, hphase, hi, if_false, Option.map_some]
    exact ⟨_, h.next .wait hwait, rfl, best, rfl⟩
  | succ left ih =>
    obtain ⟨t, ht, hoffered, best', bestCount', hphase'⟩ := exists_load hphase (by omega)
    rw [← hoffered]
    exact ih (h.next .load ht) hphase' (by omega)

theorem Reaches.exists_accepting (h : Reaches outcomes s) (hphase : s.acceptor.phase = .top) :
    ∃ s' : AcceptRun n C, Reaches outcomes s' ∧ s'.offered = s.offered ∧
      ∃ best, s'.acceptor.phase = .accepting best := by
  obtain ⟨t, ht, hoffered, hscanning⟩ : ∃ t, s.step .load = some t ∧ t.offered = s.offered ∧
      t.acceptor.phase = .scanning 1 0 (s.acceptor.counter 0) := by
    simp only [step, Acceptor.step, hphase, Option.map_some]
    exact ⟨_, rfl, rfl, rfl⟩
  rw [← hoffered]
  exact Reaches.exists_accepting_of_scanning (h.next .load ht) hscanning

/-- From the top of the loop some run comes to rest. -/
theorem Reaches.exists_atRest (h : Reaches outcomes s) (hphase : s.acceptor.phase = .top) :
    ∃ s' : AcceptRun n C, Reaches outcomes s' ∧ s'.AtRest := by
  induction hoffered : s.offered generalizing s with
  | nil =>
    obtain ⟨t, ht, hnone, hwait⟩ := h.exists_accepting hphase
    exact ⟨t, ht, Or.inr ⟨hwait, hnone.trans hoffered⟩⟩
  | cons outcome offered ih =>
    obtain ⟨t, ht, hnext, best, hwait⟩ := h.exists_accepting hphase
    rw [hoffered] at hnext
    obtain ⟨acceptor, socket, tOffered, handed, logged⟩ := t
    obtain ⟨phase, counter, live⟩ := acceptor
    obtain rfl : phase = .accepting best := hwait
    obtain rfl : tOffered = outcome :: offered := hnext
    obtain ⟨current, hcurrent, -⟩ := ht.progress
    obtain rfl := hcurrent.socket_eq_none
    cases outcome with
    | failed e => exact ⟨_, ht.next .fail rfl, Or.inl rfl⟩
    | connected conn noDelay =>
      -- The connection is spawned, and the loop is at its top again with one outcome less.
      have haccepted := ht.next .accept rfl
      cases noDelay with
      | some e => exact ⟨_, haccepted.next .fail rfl, Or.inl rfl⟩
      | none => exact ih ((haccepted.next .count rfl).next .spawn rfl) rfl rfl

/-- Exactly when errors keep no later connection from being accepted: the connections handed to
workers are those whose accept succeeds, in every run that has come to rest, if and only if no
accept succeeds from the first error on. -/
theorem allHanded_iff (n : ℕ) (outcomes : List (AcceptOutcome C)) :
    (∀ s : AcceptRun n C, Reaches outcomes s → s.AtRest →
      s.handed.map Prod.snd = accepted outcomes) ↔ ErrorsLast outcomes := by
  constructor
  · intro h
    have hstart : Reaches outcomes (start n outcomes) := .start
    obtain ⟨s, hs, hrest⟩ := hstart.exists_atRest rfl
    exact (hs.progress.handed_iff hrest).mp (h s hs hrest)
  · intro h s hs hrest
    exact (hs.progress.handed_iff hrest).mpr h

/-- When too many files are open once, the next connection is not handed to a worker. -/
theorem not_handed_after_emfile :
    ¬ ∀ s : AcceptRun 0 ℕ, Reaches [.failed (.other 24), .connected 1 none] s → s.AtRest →
      ∀ conn ∈ accepted [.failed (.other 24), .connected 1 none], conn ∈ s.handed.map Prod.snd := by
  intro h
  have hrun : run step (start (C := ℕ) 0 [.failed (.other 24), .connected 1 none])
      [.load, .wait, .fail] = some ⟨⟨.ended, fun _ => 0, fun _ => 0⟩, none, [.connected 1 none], [],
        [.other 24]⟩ := rfl
  exact absurd (h _ (Reach.of_run hrun) (Or.inl rfl) 1 (by simp [accepted])) (by simp)

end AcceptRun

end Lundi
