import Lundi.Engine.DateCache

/-!
# The timer of the date cache

`app::spawn_date_timer`. The function object `tick` is a local variable whose closure holds one of
the two shared pointers to the timer, and the handler of the wait holds neither. A timer that is
destroyed cancels its wait, whose handler is then called with an error.

* `spawned_of_reach`: what is left of the objects on every run of the event loop;
* `date_of_reach`: which date the server sends.
-/

namespace Lundi

open Runs

/-- How a wait ends. -/
inductive WaitResult
  | expired
  | aborted
  deriving DecidableEq

/-- The date cache, the objects of `spawn_date_timer` and what the event loop knows of them. -/
structure DateTimer where
  cache : DateCache
  /-- The shared pointers to the timer, which lives while there is one. -/
  owners : ℕ
  /-- The timer has a wait that has not ended. -/
  waiting : Bool
  /-- The waits that have ended, with their handlers still to be called. -/
  ready : List WaitResult
  /-- The function object `tick` exists. -/
  tickAlive : Bool
  /-- The seconds shown by the clock when `update` was called. -/
  updates : List ℤ
  /-- A function object that was gone has been called. -/
  undefined : Bool
  /-- The dates that have been read for responses. -/
  served : List Bytes

namespace DateTimer

/-- A wait that has not ended is cancelled. -/
def cancel (s : DateTimer) : DateTimer :=
  if s.waiting then { s with waiting := false, ready := s.ready ++ [.aborted] } else s

/-- A shared pointer to the timer is destroyed; with the last one the timer is. -/
def release (s : DateTimer) : DateTimer :=
  let s := { s with owners := s.owners - 1 }
  if s.owners = 0 then s.cancel else s

/-- `std::make_shared< asio::steady_timer >( ctx )`. -/
def makeTimer (s : DateTimer) : DateTimer := { s with owners := 1 }

/-- The closure of `tick` is made, with a copy of the pointer. -/
def makeTick (s : DateTimer) : DateTimer := { s with owners := s.owners + 1, tickAlive := true }

/-- `tick`: the cache is updated, and the timer is set again. -/
def tick (s : DateTimer) (epoch : ℤ) : DateTimer :=
  let s := { s with cache := s.cache.update epoch, updates := s.updates ++ [epoch] }
  { s.cancel with waiting := true }

/-- The closure of `tick` is destroyed, and the pointer in it. -/
def destroyTick (s : DateTimer) : DateTimer := { s with tickAlive := false }.release

/-- `spawn_date_timer`, when the clock shows this second: the local variables are destroyed in the
opposite order. -/
def spawnDateTimer (s : DateTimer) (epoch : ℤ) : DateTimer :=
  (((s.makeTimer.makeTick).tick epoch).destroyTick).release

/-- The server when the event loop is about to run. The cache is made in one second and
`spawn_date_timer` is called in another, or in the same. -/
def listening (made epoch : ℤ) : DateTimer :=
  spawnDateTimer ⟨.init made, 0, false, [], false, [], false, []⟩ epoch

/-- What happens in the event loop and on the worker threads. -/
inductive TimerAction
  /-- The time of a wait is over. -/
  | expire
  /-- The handler of a wait that has ended is called, when the clock shows this second. -/
  | dispatch (epoch : ℤ)
  /-- A date is read for a response. -/
  | serve

/-- One step. -/
def step (s : DateTimer) : TimerAction → Option DateTimer
  | .expire =>
    if s.waiting then some { s with waiting := false, ready := s.ready ++ [.expired] } else none
  | .dispatch epoch =>
    match s.ready with
    | [] => none
    | .aborted :: ready => some { s with ready := ready }
    | .expired :: ready =>
      let s := { s with ready := ready }
      if s.tickAlive then some (s.tick epoch) else some { s with undefined := true }
  | .serve => some { s with served := s.served ++ [s.cache.get] }

/-- What is left once `spawn_date_timer` has returned: the timer is gone, its wait has been
cancelled, and the cache has been updated once. -/
structure Spawned (made epoch : ℤ) (s : DateTimer) : Prop where
  cache_eq : s.cache = (DateCache.init made).update epoch
  owners_eq : s.owners = 0
  waiting_eq : s.waiting = false
  ready_subset : ∀ r ∈ s.ready, r = .aborted
  updates_eq : s.updates = [epoch]
  undefined_eq : s.undefined = false
  served : ∀ date ∈ s.served, date = ((DateCache.init made).update epoch).get

/-- The two shared pointers do not outlive the call. -/
theorem spawned_listening (made epoch : ℤ) : Spawned made epoch (listening made epoch) where
  cache_eq := rfl
  owners_eq := rfl
  waiting_eq := rfl
  ready_subset := by
    intro r hr
    exact List.mem_singleton.mp hr
  updates_eq := rfl
  undefined_eq := rfl
  served := by simp [listening, spawnDateTimer, release, destroyTick, tick, makeTick, makeTimer,
    cancel]

/-- No step of the event loop calls `tick`. -/
theorem Spawned.step {made epoch : ℤ} {s s' : DateTimer} {a : TimerAction}
    (h : Spawned made epoch s) (hstep : s.step a = some s') : Spawned made epoch s' := by
  cases a with
  | expire =>
    rw [DateTimer.step, h.waiting_eq, if_neg Bool.false_ne_true] at hstep
    exact absurd hstep (by simp)
  | dispatch now =>
    rw [DateTimer.step] at hstep
    split at hstep
    · exact absurd hstep (by simp)
    next ready hready =>
      obtain rfl := Option.some_inj.mp hstep
      exact { h with ready_subset := fun r hr =>
        h.ready_subset r (by rw [hready]; exact List.mem_cons_of_mem _ hr) }
    next ready hready =>
      -- No wait has ended by itself.
      have habsurd := h.ready_subset .expired (by rw [hready]; exact List.mem_cons_self)
      exact absurd habsurd (by decide)
  | serve =>
    obtain rfl := Option.some_inj.mp hstep
    refine { h with served := fun date hdate => ?_ }
    rcases List.mem_append.mp hdate with hold | hnew
    · exact h.served date hold
    · rw [List.mem_singleton.mp hnew, h.cache_eq]

theorem spawned_of_reach {made epoch : ℤ} {s : DateTimer}
    (h : Reach step Any (listening made epoch) s) : Spawned made epoch s :=
  h.invariant (spawned_listening made epoch) fun _ _ _ hs _ hstep => hs.step hstep

/-- On every run of the event loop the cache is never updated again once `spawn_date_timer` has
returned: the handler of the wait does nothing, and in particular does not call the function object
that is gone, and every date that the server sends is the one of its start. -/
theorem date_of_reach {made epoch : ℤ} (hmade : made ≠ 0) (hyear : HasFourDigitYear made)
    (hyear' : HasFourDigitYear epoch) {s : DateTimer}
    (h : Reach step Any (listening made epoch) s) :
    s.updates = [epoch] ∧ s.undefined = false ∧ ∀ date ∈ s.served, date = httpDate epoch := by
  have hs := spawned_of_reach h
  refine ⟨hs.updates_eq, hs.undefined_eq, fun date hdate => ?_⟩
  have hshows := (DateCache.shows_init hmade hyear).update hyear'
  rw [hs.served date hdate, hshows, DateCache.lastEpoch_update]

/-- A date is served an hour after the start. -/
theorem date_of_reach_hour :
    ∃ s, Reach step Any (listening 784111777 784111777) s ∧ s.served ≠ [] ∧
      s.updates = [784111777] ∧ s.undefined = false ∧
        ∀ date ∈ s.served, date = httpDate 784111777 := by
  have hyear : HasFourDigitYear 784111777 := by decide +kernel
  -- The handler of the wait is called with an error, and then a date is read.
  have hrun : ∃ s, run step (listening 784111777 784111777) [.dispatch 784115377, .serve] =
      some s ∧ s.served ≠ [] := ⟨_, rfl, by simp⟩
  obtain ⟨s, hrun, hserved⟩ := hrun
  have hreach := Reach.of_run hrun
  exact ⟨s, hreach, hserved, date_of_reach (by decide) hyear hyear hreach⟩

end DateTimer

end Lundi
