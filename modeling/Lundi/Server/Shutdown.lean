import Lundi.Lib.Runs
import Mathlib.Data.Fin.Basic
import Mathlib.Logic.Function.Basic
import Mathlib.Tactic.Basic

/-!
# Shutting down

The worker threads of `app::listen`, the connections they handle and the signal handler. A worker
runs one handler of a connection after the other, each up to the next suspension point of its
coroutine. `io_context::stop` lets the handler that is running come to its suspension point; no
other one is started, and `run` returns.

* `Settled`: what holds of a worker that has been stopped, and `settled_of_reach`: it does in every
  run in which `stop` finds no response under way;
* `drained_of_orderly`: in these runs no worker leaves a response behind, and as soon as one step
  of a run is not of this kind, some way to go on does.
-/

namespace Lundi

open Runs

/-- Where the coroutine of a connection is suspended. `keepAlive` is its local variable. -/
inductive ConnStage
  /-- In the head of a request, or in front of it. -/
  | readingHead
  /-- In the body of a request, or in the error page that refuses it. -/
  | readingBody (keepAlive : Bool)
  /-- In the handler of a request that has been dispatched. -/
  | handling (keepAlive : Bool)
  /-- In `async_write` of a response, `left` bytes of which have not been written. -/
  | writing (left : ℕ) (keepAlive : Bool)
  /-- The socket is closed. -/
  | closed
  deriving DecidableEq

namespace ConnStage

/-- A request has been dispatched, and its response has not been completely written. -/
def inFlight : ConnStage → Bool
  | handling _ => true
  | writing left _ => 0 < left
  | _ => false

/-- How far a connection can get from the head of a request. `shutting_down_` is read behind the
head, and does away with `keep_alive`. -/
def fromHead (shuttingDown : Bool) : ConnStage → Bool
  | readingBody keepAlive | handling keepAlive | writing _ keepAlive =>
    !(shuttingDown && keepAlive)
  | _ => true

/-- How far a connection can get until its next suspension point. A response that has been written
is followed by the next request, whose head may be in the buffer already; an exception closes the
connection at any point. -/
def resumesTo (shuttingDown : Bool) : ConnStage → ConnStage → Bool
  | closed, _ => false
  | _, closed => true
  | readingHead, stage => fromHead shuttingDown stage
  | readingBody k, readingBody k' | readingBody k, handling k' | readingBody k, writing _ k' =>
    k == k'
  | handling k, handling k' | handling k, writing _ k' => k == k'
  | writing 0 k, stage => k && fromHead shuttingDown stage
  | writing left k, writing left' k' => decide (left' ≤ left) && k == k'
  | _, _ => false

theorem resumesTo_closed {shuttingDown : Bool} {stage : ConnStage} (h : stage ≠ closed) :
    resumesTo shuttingDown stage closed = true := by
  cases stage <;> first | rfl | exact absurd rfl h

end ConnStage

/-- Where the thread of a worker stands. -/
inductive WorkerPhase
  /-- In `run`, between two handlers. -/
  | polling
  /-- In a handler of the connection `c`. -/
  | running (c : ℕ)
  /-- Behind `run`. -/
  | left
  deriving DecidableEq

/-- A worker: its `io_context`, its thread and its connections. -/
structure Worker where
  phase : WorkerPhase
  /-- `stop` has been called. -/
  stopped : Bool
  /-- The work guard exists. -/
  guarded : Bool
  conns : List ConnStage
  deriving DecidableEq

/-- How far the signal handler has come. -/
inductive SignalPhase
  /-- It has not been called. -/
  | waiting
  /-- `shutting_down_` is set. -/
  | flagged
  /-- The acceptor is closed. -/
  | acceptorClosed
  /-- The guards are gone, and the workers before `i` have been stopped. -/
  | stopping (i : ℕ)
  /-- `main_ctx` has been stopped. -/
  | finished
  deriving DecidableEq

/-- The server. The number of workers is at least one. -/
structure Pool (n : ℕ) where
  workers : Fin (n + 1) → Worker
  signal : SignalPhase

/-- What can happen next. -/
inductive PoolAction (n : ℕ)
  /-- The accept loop hands a connection to a worker. -/
  | connect (i : Fin (n + 1))
  /-- A worker starts a handler of one of its connections. -/
  | resume (i : Fin (n + 1)) (c : ℕ)
  /-- The handler comes to a suspension point, or to its end. -/
  | suspend (i : Fin (n + 1)) (stage : ConnStage)
  /-- `run` returns. -/
  | leave (i : Fin (n + 1))
  /-- `SIGINT` or `SIGTERM` arrives. -/
  | signal
  /-- `acceptor->close`. -/
  | closeAcceptor
  /-- `guards.clear`. -/
  | clearGuards
  /-- `stop` of the next worker. -/
  | stopWorker
  /-- `main_ctx.stop`. -/
  | stopMain

namespace Pool

variable {n : ℕ}

/-- The server when its workers have started. -/
def start (n : ℕ) : Pool n := ⟨fun _ => ⟨.polling, false, true, []⟩, .waiting⟩

/-- `shutting_down_`. -/
def shuttingDown (s : Pool n) : Bool := s.signal ≠ .waiting

/-- Change one worker. -/
def set (s : Pool n) (i : Fin (n + 1)) (w : Worker) : Pool n :=
  { s with workers := Function.update s.workers i w }

/-- One step of a worker, of the accept loop or of the signal handler. The last two run on the main
thread, so no connection is accepted behind a signal. -/
def step (s : Pool n) : PoolAction n → Option (Pool n)
  | .connect i =>
    if s.signal = .waiting then
      some (s.set i { s.workers i with conns := (s.workers i).conns ++ [.readingHead] })
    else none
  | .resume i c =>
    match (s.workers i).phase, (s.workers i).conns[c]? with
    | .polling, some stage =>
      if (s.workers i).stopped ∨ stage = .closed then none
      else some (s.set i { s.workers i with phase := .running c })
    | _, _ => none
  | .suspend i stage =>
    match (s.workers i).phase with
    | .running c =>
      match (s.workers i).conns[c]? with
      | some old =>
        if ConnStage.resumesTo s.shuttingDown old stage then
          some (s.set i { s.workers i with
            phase := .polling, conns := (s.workers i).conns.set c stage })
        else none
      | none => none
    | _ => none
  | .leave i =>
    if (s.workers i).phase = .polling ∧ ((s.workers i).stopped = true ∨
        (s.workers i).guarded = false ∧ ∀ stage ∈ (s.workers i).conns, stage = .closed) then
      some (s.set i { s.workers i with phase := .left })
    else none
  | .signal => if s.signal = .waiting then some { s with signal := .flagged } else none
  | .closeAcceptor =>
    if s.signal = .flagged then some { s with signal := .acceptorClosed } else none
  | .clearGuards =>
    if s.signal = .acceptorClosed then
      some ⟨fun i => { s.workers i with guarded := false }, .stopping 0⟩
    else none
  | .stopWorker =>
    match s.signal with
    | .stopping i =>
      if h : i < n + 1 then
        some { s.set ⟨i, h⟩ { s.workers ⟨i, h⟩ with stopped := true } with
          signal := .stopping (i + 1) }
      else none
    | _ => none
  | .stopMain =>
    match s.signal with
    | .stopping i => if i < n + 1 then none else some { s with signal := .finished }
    | _ => none

end Pool

/-- No connection but the one whose handler is running has a response under way. -/
def Worker.Quiet (w : Worker) : Prop :=
  ∀ c stage, w.conns[c]? = some stage → w.phase ≠ .running c → stage.inFlight = false

instance (w : Worker) : Decidable w.Quiet :=
  decidable_of_iff (∀ c : Fin w.conns.length, w.phase ≠ .running c →
      (w.conns.get c).inFlight = false) <| by
    constructor
    · intro h c stage hstage hphase
      obtain ⟨hlt, rfl⟩ := List.getElem?_eq_some_iff.mp hstage
      exact h ⟨c, hlt⟩ hphase
    · intro h c hphase
      exact h c _ (List.getElem?_eq_getElem c.isLt) hphase

/-- A worker that has been stopped, or has left `run`, is quiet. -/
def Worker.Settled (w : Worker) : Prop := w.stopped = true ∨ w.phase = .left → w.Quiet

namespace Pool

variable {n : ℕ}

/-- Active connections are drained: no worker that has left `run` has a response under way. -/
def Drained (s : Pool n) : Prop :=
  ∀ i, (s.workers i).phase = .left → ∀ stage ∈ (s.workers i).conns, stage.inFlight = false

/-- The condition on a step: `stop` finds no response under way at the worker except in the handler
that is running, and a handler that is running at that time leaves none behind. -/
def Orderly (s : Pool n) : PoolAction n → Prop
  | .stopWorker => ∀ i : Fin (n + 1), s.signal = .stopping i → (s.workers i).Quiet
  | .suspend i stage => (s.workers i).stopped = true → stage.inFlight = false
  | _ => True

instance (s : Pool n) : (a : PoolAction n) → Decidable (s.Orderly a)
  | .stopWorker => inferInstanceAs (Decidable (∀ i : Fin (n + 1), s.signal = .stopping i →
      (s.workers i).Quiet))
  | .suspend i stage => inferInstanceAs (Decidable ((s.workers i).stopped = true →
      stage.inFlight = false))
  | .connect _ | .resume _ _ | .leave _ | .signal | .closeAcceptor | .clearGuards | .stopMain =>
    inferInstanceAs (Decidable True)

end Pool

/-- What a step can do to a worker, and what is known of it when the step is orderly. -/
inductive WorkerMove (orderly : Prop) : Worker → Worker → Prop
  | same (w : Worker) : WorkerMove orderly w w
  | connect (w : Worker) : WorkerMove orderly w { w with conns := w.conns ++ [.readingHead] }
  | resume {w : Worker} {c : ℕ} {stage : ConnStage} (hstage : w.conns[c]? = some stage)
    (hopen : stage ≠ .closed) (hstopped : w.stopped = false) :
    WorkerMove orderly w { w with phase := .running c }
  | suspend {w : Worker} {c : ℕ} {stage : ConnStage} (hphase : w.phase = .running c)
    (hstage : orderly → w.stopped = true → stage.inFlight = false) :
    WorkerMove orderly w { w with phase := .polling, conns := w.conns.set c stage }
  | leave {w : Worker} (hphase : w.phase = .polling)
    (hdone : w.stopped = true ∨ ∀ stage ∈ w.conns, stage = .closed) :
    WorkerMove orderly w { w with phase := .left }
  | unguard (w : Worker) : WorkerMove orderly w { w with guarded := false }
  | stop {w : Worker} (h : orderly → w.Quiet) : WorkerMove orderly w { w with stopped := true }

namespace Pool

variable {n : ℕ} {s s' : Pool n}

/-- Changing one worker moves it, and the others not at all. -/
theorem workerMove_set {orderly : Prop} {i : Fin (n + 1)} {w : Worker}
    (h : WorkerMove orderly (s.workers i) w) (j : Fin (n + 1)) :
    WorkerMove orderly (s.workers j) ((s.set i w).workers j) := by
  by_cases hj : j = i
  · subst hj
    rw [set]
    simpa using h
  · rw [set]
    simp only [Function.update_of_ne hj]
    exact WorkerMove.same _

/-- What a step does to each worker. -/
theorem workerMove {a : PoolAction n} (h : s.step a = some s') (j : Fin (n + 1)) :
    WorkerMove (Orderly s a) (s.workers j) (s'.workers j) := by
  cases a with
  | connect i =>
    rw [step, Option.ite_none_right_eq_some] at h
    obtain rfl := Option.some_inj.mp h.2
    exact workerMove_set (WorkerMove.connect _) j
  | resume i c =>
    rw [step] at h
    split at h
    next stage hphase hstage =>
      -- A closed connection has no handler, and a stopped worker starts none.
      rw [Option.ite_none_left_eq_some] at h
      obtain ⟨hrun, hs'⟩ := h
      obtain rfl := Option.some_inj.mp hs'
      push Not at hrun
      exact workerMove_set (WorkerMove.resume hstage hrun.2 (by simpa using hrun.1)) j
    next => exact absurd h (by simp)
  | suspend i stage =>
    rw [step] at h
    split at h
    next c hphase =>
      split at h
      next old hold =>
        rw [Option.ite_none_right_eq_some] at h
        obtain rfl := Option.some_inj.mp h.2
        exact workerMove_set (WorkerMove.suspend hphase fun hok => hok) j
      next => exact absurd h (by simp)
    next => exact absurd h (by simp)
  | leave i =>
    rw [step, Option.ite_none_right_eq_some] at h
    obtain ⟨⟨hphase, hdone⟩, hs'⟩ := h
    obtain rfl := Option.some_inj.mp hs'
    exact workerMove_set (WorkerMove.leave hphase (hdone.imp_right And.right)) j
  | clearGuards =>
    rw [step, Option.ite_none_right_eq_some] at h
    obtain rfl := Option.some_inj.mp h.2
    exact WorkerMove.unguard _
  | stopWorker =>
    rw [step] at h
    split at h
    next i hsignal =>
      -- The loop over the worker contexts stops them one by one.
      split at h
      next hi =>
        obtain rfl := Option.some_inj.mp h
        exact workerMove_set (WorkerMove.stop fun hok => hok ⟨i, hi⟩ hsignal) j
      next => exact absurd h (by simp)
    next => exact absurd h (by simp)
  | signal | closeAcceptor =>
    rw [step, Option.ite_none_right_eq_some] at h
    obtain rfl := Option.some_inj.mp h.2
    exact WorkerMove.same _
  | stopMain =>
    rw [step] at h
    split at h
    next i hsignal =>
      rw [Option.ite_none_left_eq_some] at h
      obtain rfl := Option.some_inj.mp h.2
      exact WorkerMove.same _
    next => exact absurd h (by simp)

end Pool

namespace Worker

variable {w w' : Worker}

/-- Between two handlers, a quiet worker has no response under way. -/
theorem Quiet.of_polling (h : w.Quiet) (hphase : w.phase = .polling) :
    ∀ stage ∈ w.conns, stage.inFlight = false := by
  intro stage hmem
  obtain ⟨c, hc⟩ := List.mem_iff_getElem?.mp hmem
  exact h c stage hc (by simp [hphase])

/-- Every orderly move keeps a worker settled. -/
theorem Settled.move {orderly : Prop} (hok : orderly) (h : w.Settled)
    (hmove : WorkerMove orderly w w') : w'.Settled := by
  cases hmove with
  | same => exact h
  | connect =>
    -- The new connection has no request yet.
    intro hstopped c stage hstage hphase
    rw [List.getElem?_append] at hstage
    split at hstage
    · exact h hstopped c stage hstage hphase
    · obtain rfl := List.mem_singleton.mp (List.mem_of_getElem? hstage)
      rfl
  | resume _ _ hstopped =>
    -- A worker that has been stopped starts no handler.
    rintro (hstop | hleft)
    · exact absurd (hstopped.symm.trans hstop) (by simp)
    · exact absurd hleft (by simp)
  | suspend hphase hstage =>
    rintro (hstop | hleft)
    · intro c' stage' hstage' _
      rw [List.getElem?_set] at hstage'
      split at hstage'
      next heq =>
        split at hstage'
        · obtain rfl := Option.some_inj.mp hstage'
          exact hstage hok hstop
        · exact absurd hstage' (by simp)
      next hne =>
        apply h (Or.inl hstop) c' stage' hstage'
        rw [hphase]
        intro heq
        exact hne (WorkerPhase.running.inj heq)
    · exact absurd hleft (by simp)
  | leave hphase hdone =>
    intro _ c stage hstage _
    have hmem := List.mem_of_getElem? hstage
    rcases hdone with hstop | hclosed
    · exact (h (Or.inl hstop)).of_polling hphase stage hmem
    · rw [hclosed stage hmem]
      rfl
  | unguard => exact h
  | stop hquiet => exact fun _ => hquiet hok

/-- A handler runs for a connection that is open. -/
def Sound (w : Worker) : Prop :=
  ∀ c, w.phase = .running c → ∃ stage, w.conns[c]? = some stage ∧ stage ≠ .closed

theorem Sound.move {orderly : Prop} (h : w.Sound) (hmove : WorkerMove orderly w w') :
    w'.Sound := by
  cases hmove with
  | connect =>
    intro c hphase
    obtain ⟨stage, hstage, hopen⟩ := h c hphase
    refine ⟨stage, ?_, hopen⟩
    rw [List.getElem?_append_left (List.getElem?_eq_some_iff.mp hstage).1]
    exact hstage
  | resume hstage hopen _ =>
    intro c hphase
    obtain rfl := WorkerPhase.running.inj hphase
    exact ⟨_, hstage, hopen⟩
  | suspend => exact fun c hphase => absurd hphase (by simp)
  | leave => exact fun c hphase => absurd hphase (by simp)
  | same | unguard | stop => exact h

end Worker

namespace Pool

variable {n : ℕ} {s s' : Pool n}

/-- In an orderly run all workers are settled. -/
theorem settled_of_reach (h : Reach step Orderly (start n) s) (i : Fin (n + 1)) :
    (s.workers i).Settled := by
  have hall : ∀ i, (s.workers i).Settled := by
    apply h.invariant
    · intro i hstopped c stage hstage
      exact absurd hstage (by simp [start])
    · intro s a s' hs hok hstep i
      exact (hs i).move hok (workerMove hstep i)
  exact hall i

/-- An orderly run drains the connections. -/
theorem drained_of_reach (h : Reach step Orderly (start n) s) : Drained s := by
  intro i hleft stage hmem
  obtain ⟨c, hc⟩ := List.mem_iff_getElem?.mp hmem
  exact settled_of_reach h i (Or.inr hleft) c stage hc (by simp [hleft])

theorem sound_of_reach (h : Reach step Any (start n) s) (i : Fin (n + 1)) :
    (s.workers i).Sound := by
  have hall : ∀ i, (s.workers i).Sound := by
    apply h.invariant
    · intro i c hphase
      exact absurd hphase (by simp [start])
    · intro s a s' hs _ hstep i
      exact (hs i).move (workerMove hstep i)
  exact hall i

/-! ### Steps that are not orderly -/

/-- A worker that has been stopped between two handlers leaves, with what is under way. -/
theorem exists_leave {i : Fin (n + 1)} (hphase : (s.workers i).phase = .polling)
    (hstopped : (s.workers i).stopped = true) {stage : ConnStage}
    (hmem : stage ∈ (s.workers i).conns) (hflight : stage.inFlight = true) :
    ∃ t, Reach step Any s t ∧ ¬ Drained t := by
  have hleave : s.step (.leave i) = some (s.set i { s.workers i with phase := .left }) := by
    rw [step, if_pos ⟨hphase, Or.inl hstopped⟩]
  refine ⟨_, Reach.start.next _ hleave, fun h => ?_⟩
  have := h i (by simp [set]) stage (by simpa [set] using hmem)
  rw [hflight] at this
  exact absurd this (by simp)

/-- A worker that has been stopped leaves what is under way besides the handler that is running. -/
theorem exists_not_drained {i : Fin (n + 1)} (hsound : (s.workers i).Sound)
    (hstopped : (s.workers i).stopped = true) (hquiet : ¬ (s.workers i).Quiet) :
    ∃ t, Reach step Any s t ∧ ¬ Drained t := by
  unfold Worker.Quiet at hquiet
  push Not at hquiet
  obtain ⟨c, stage, hstage, hother, hflight⟩ := hquiet
  have hmem := List.mem_of_getElem? hstage
  rw [ne_eq, Bool.not_eq_false] at hflight
  cases hphase : (s.workers i).phase with
  | polling => exact exists_leave hphase hstopped hmem hflight
  | left =>
    -- It has left already.
    refine ⟨s, Reach.start, fun h => ?_⟩
    have := h i hphase stage hmem
    rw [hflight] at this
    exact absurd this (by simp)
  | running r =>
    -- The handler that is running may end with an exception, which closes its connection.
    obtain ⟨old, hold, hopen⟩ := hsound r hphase
    have hne : r ≠ c := by
      rintro rfl
      exact hother hphase
    have hsuspend : s.step (.suspend i .closed) = some (s.set i { s.workers i with
        phase := .polling, conns := (s.workers i).conns.set r .closed }) := by
      simp only [step, hphase, hold, ConnStage.resumesTo_closed hopen, if_true]
    have hstage' : ((s.workers i).conns.set r .closed)[c]? = some stage := by
      rw [List.getElem?_set_ne hne]
      exact hstage
    obtain ⟨t, ht, hlost⟩ : ∃ t, Reach step Any (s.set i { s.workers i with
        phase := .polling, conns := (s.workers i).conns.set r .closed }) t ∧ ¬ Drained t := by
      apply exists_leave (i := i)
      · simp [set]
      · simpa [set] using hstopped
      · simpa [set] using List.mem_of_getElem? hstage'
      · exact hflight
    exact ⟨t, (Reach.start.next _ hsuspend).trans ht, hlost⟩

/-- From a step that is not orderly, some way to go on loses a response. -/
theorem exists_not_drained_of_not_orderly (hs : Reach step Any (start n) s) {a : PoolAction n}
    (h : s.step a = some s') (hok : ¬ Orderly s a) : ∃ t, Reach step Any s' t ∧ ¬ Drained t := by
  have hsound := sound_of_reach (hs.next a h)
  cases a with
  | stopWorker =>
    simp only [Orderly] at hok
    push Not at hok
    -- The worker that is stopped has a response under way, which it loses when it leaves.
    obtain ⟨i, hsignal, hquiet⟩ := hok
    have hi : (i : ℕ) < n + 1 := i.isLt
    simp only [step, hsignal, hi, dif_pos] at h
    obtain rfl := Option.some_inj.mp h
    apply exists_not_drained (hsound i)
    · simp [set]
    · simpa [set, Worker.Quiet] using hquiet
  | suspend i stage =>
    simp only [Orderly] at hok
    push Not at hok
    -- The handler of a stopped worker leaves its response under way, and no other one starts.
    obtain ⟨hstopped, hflight⟩ := hok
    rw [ne_eq, Bool.not_eq_false] at hflight
    rw [step] at h
    split at h
    next c hphase =>
      split at h
      next old hold =>
        rw [Option.ite_none_right_eq_some] at h
        obtain rfl := Option.some_inj.mp h.2
        apply exists_leave (i := i) _ _ _ hflight
        · simp [set]
        · simpa [set] using hstopped
        · have hlt := (List.getElem?_eq_some_iff.mp hold).1
          simpa [set] using List.mem_set hlt stage
      next => exact absurd h (by simp)
    next => exact absurd h (by simp)
  | _ => exact absurd trivial hok

/-- Active connections are drained in every run in which `stop` finds no response under way at the
worker except in the handler that is running, which then leaves none behind; and as soon as a
step of a run is not of this kind, some way to go on loses a response. -/
theorem drained_of_orderly (n : ℕ) :
    (∀ s : Pool n, Reach step Orderly (start n) s → Drained s) ∧
      ∀ (s : Pool n) (a : PoolAction n) (s' : Pool n), Reach step Any (start n) s →
        s.step a = some s' → ¬ Orderly s a → ∃ t, Reach step Any s' t ∧ ¬ Drained t := by
  constructor
  · intro s hs
    exact drained_of_reach hs
  · intro s a s' hs h hok
    exact exists_not_drained_of_not_orderly hs h hok

/-- A signal arrives while a response is being written. It is written to its end before the worker
is stopped and leaves. -/
def servedActions : List (PoolAction 0) :=
  [.connect 0, .resume 0 0, .suspend 0 (.handling true), .resume 0 0, .suspend 0 (.writing 3 true),
    .signal, .resume 0 0, .suspend 0 (.writing 0 true), .closeAcceptor, .clearGuards, .stopWorker,
    .leave 0]

theorem drained_of_orderly_served :
    ∃ s : Pool 0, run (guarded step Orderly) (start 0) servedActions = some s ∧
      s.workers 0 = ⟨.left, true, false, [.writing 0 true]⟩ ∧ Drained s := by
  have hsome : (run (guarded step Orderly) (start 0) servedActions).isSome = true := by decide
  obtain ⟨s, hs⟩ := Option.isSome_iff_exists.mp hsome
  have hworker : (run (guarded step Orderly) (start 0) servedActions).map (fun s => s.workers 0) =
      some ⟨.left, true, false, [.writing 0 true]⟩ := by decide
  rw [hs, Option.map_some, Option.some_inj] at hworker
  exact ⟨s, hs, hworker, (drained_of_orderly 0).1 s (Reach.of_run_guarded hs)⟩

/-- A signal arrives while a handler waits: the worker leaves, and the request gets no response. -/
theorem not_drained_handler : ¬ ∀ s : Pool 0, Reach step Any (start 0) s → Drained s := by
  intro h
  let actions : List (PoolAction 0) := [.connect 0, .resume 0 0, .suspend 0 (.handling true),
    .signal, .closeAcceptor, .clearGuards, .stopWorker, .leave 0]
  have hsome : (run step (start 0) actions).isSome = true := rfl
  obtain ⟨s, hs⟩ := Option.isSome_iff_exists.mp hsome
  have hworker : (run step (start 0) actions).map (fun s => s.workers 0) =
      some ⟨.left, true, false, [.handling true]⟩ := rfl
  rw [hs, Option.map_some, Option.some_inj] at hworker
  have := h s (Reach.of_run hs) 0 (by rw [hworker]) (.handling true) (by simp [hworker])
  exact absurd this (by simp [ConnStage.inFlight])

end Pool

end Lundi
