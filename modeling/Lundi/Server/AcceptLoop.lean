import Lundi.Lib.Runs
import Mathlib.Data.Fin.Basic
import Mathlib.Data.Int.Order.Basic
import Mathlib.Logic.Function.Basic
import Mathlib.Tactic.Basic

/-!
# The accept loop

`app::accept_loop` and the connections of the workers. The loop reads the counters of the workers
one after the other, waits for a connection in `async_accept`, and gives it to the worker whose
counter was the lowest. Connections end at any time, also while the loop scans the counters or
waits; each end decrements the counter of its worker.

* `Counted`: a counter is the number of connections of its worker, which every step keeps;
* `KeepsLead`: a connection ends without taking the lead from the worker that has been chosen, and
  `leading_of_reach`: in the runs in which all do, the chosen worker is a least-loaded one;
* `assigned_to_least_loaded`: so these runs assign every connection as it is documented, and behind
  the scan a step of another kind assigns one to a worker that is not a least-loaded one.
-/

namespace Lundi

open Runs

/-- Where the accept loop stands, with the local variables that are alive there. -/
inductive AcceptPhase (n : ℕ)
  /-- At the top of the loop. -/
  | top
  /-- In the scan, in front of the counter `i`. -/
  | scanning (i : ℕ) (best : Fin (n + 1)) (bestCount : ℤ)
  /-- Suspended in `async_accept`. -/
  | accepting (best : Fin (n + 1))
  /-- With the accepted socket, in front of `fetch_add`. -/
  | accepted (best : Fin (n + 1))
  /-- With the accepted socket, in front of `spawn_safe`. -/
  | counted (best : Fin (n + 1))
  /-- Behind the `catch` block. -/
  | ended
  deriving DecidableEq

/-- The accept loop and the workers, of which there is at least one. -/
structure Acceptor (n : ℕ) where
  phase : AcceptPhase n
  /-- `conn_counts`. -/
  counter : Fin (n + 1) → ℤ
  /-- The number of connections that a worker handles. -/
  live : Fin (n + 1) → ℕ

/-- What can happen next. -/
inductive AcceptAction (n : ℕ)
  /-- The loop reads the next counter. -/
  | load
  /-- The loop calls `async_accept`. -/
  | wait
  /-- `async_accept` completes. -/
  | accept
  /-- `async_accept` or `set_option` throws a `system_error`. -/
  | fail
  /-- `fetch_add`. -/
  | count
  /-- `spawn_safe`. -/
  | spawn
  /-- A connection of a worker ends, and `conn_guard` decrements its counter. -/
  | finish (worker : Fin (n + 1))

namespace Acceptor

variable {n : ℕ}

/-- The server before the first connection. -/
def start (n : ℕ) : Acceptor n := ⟨.top, fun _ => 0, fun _ => 0⟩

/-- One step of the loop or of a connection. -/
def step (s : Acceptor n) : AcceptAction n → Option (Acceptor n)
  | .load =>
    match s.phase with
    | .top => some { s with phase := .scanning 1 0 (s.counter 0) }
    | .scanning i best bestCount =>
      if h : i < n + 1 then
        let c := s.counter ⟨i, h⟩
        some { s with
          phase := if c < bestCount then .scanning (i + 1) ⟨i, h⟩ c
            else .scanning (i + 1) best bestCount }
      else none
    | _ => none
  | .wait =>
    match s.phase with
    | .scanning i best _ => if i < n + 1 then none else some { s with phase := .accepting best }
    | _ => none
  | .accept =>
    match s.phase with
    | .accepting best => some { s with phase := .accepted best }
    | _ => none
  | .fail =>
    match s.phase with
    | .accepting _ | .accepted _ => some { s with phase := .ended }
    | _ => none
  | .count =>
    match s.phase with
    | .accepted best =>
      some { s with
        phase := .counted best
        counter := Function.update s.counter best (s.counter best + 1) }
    | _ => none
  | .spawn =>
    match s.phase with
    | .counted best =>
      some { s with
        phase := .top
        live := Function.update s.live best (s.live best + 1) }
    | _ => none
  | .finish w =>
    if s.live w = 0 then none
    else some { s with
      counter := Function.update s.counter w (s.counter w - 1)
      live := Function.update s.live w (s.live w - 1) }

/-- An accepted connection is assigned to the worker `b`: it has been accepted for it, and is about
to be counted or to be spawned. -/
def Assigns (s : Acceptor n) (b : Fin (n + 1)) : Prop :=
  s.phase = .accepted b ∨ s.phase = .counted b

end Acceptor

namespace AcceptPhase

variable {n : ℕ}

/-- How many counters the present iteration has read. -/
def loaded : AcceptPhase n → ℕ
  | top | ended => 0
  | scanning i _ _ => i
  | accepting _ | accepted _ | counted _ => n + 1

/-- The worker that has been chosen so far. -/
def best : AcceptPhase n → Option (Fin (n + 1))
  | top | ended => none
  | scanning _ b _ | accepting b | accepted b | counted b => some b

/-- The connection that is counted, but not yet spawned. -/
def pending (p : AcceptPhase n) (w : Fin (n + 1)) : ℤ := if p = .counted w then 1 else 0

end AcceptPhase

namespace Acceptor

variable {n : ℕ} {s s' : Acceptor n}

/-- A worker that has been chosen, by all or by some of the counters. -/
def Leads (s : Acceptor n) (b : Fin (n + 1)) : Prop :=
  ∀ w : Fin (n + 1), w < s.phase.loaded → s.live b ≤ s.live w

/-- The condition on a step: when a connection ends whose counter the present iteration has read,
its worker still has more connections than the one chosen so far, or the scan is over and it is the
chosen worker itself. -/
def KeepsLead (s : Acceptor n) : AcceptAction n → Prop
  | .finish w => ∀ b ∈ s.phase.best, (w : ℕ) < s.phase.loaded →
      s.live b < s.live w ∨ w = b ∧ n + 1 ≤ s.phase.loaded
  | _ => True

instance (s : Acceptor n) : (a : AcceptAction n) → Decidable (s.KeepsLead a)
  | .finish w => inferInstanceAs (Decidable (∀ b : Fin (n + 1), b ∈ s.phase.best →
      (w : ℕ) < s.phase.loaded → s.live b < s.live w ∨ w = b ∧ n + 1 ≤ s.phase.loaded))
  | .load | .wait | .accept | .fail | .count | .spawn => inferInstanceAs (Decidable True)

/-- Each counter is the number of the connections of its worker. -/
def Counted (s : Acceptor n) : Prop := ∀ w, s.counter w = s.live w + s.phase.pending w

/-- What the loop knows of the worker that it has chosen. -/
structure Leading (s : Acceptor n) : Prop where
  best_lt : ∀ b ∈ s.phase.best, (b : ℕ) < s.phase.loaded
  leads : ∀ b ∈ s.phase.best, s.Leads b
  bestCount_eq : ∀ i b c, s.phase = .scanning i b c → i < n + 1 → c = s.live b

theorem leading_start : Leading (start n) where
  best_lt b hb := by simp [start, AcceptPhase.best] at hb
  leads b hb := by simp [start, AcceptPhase.best] at hb
  bestCount_eq i b c h := by simp [start] at h

/-- Every step keeps the counters right. -/
theorem Counted.step (hs : s.Counted) {a : AcceptAction n} (h : s.step a = some s') :
    s'.Counted := by
  -- A step that moves neither counters nor connections only has to leave nothing pending.
  have hmove : ∀ p : AcceptPhase n, (∀ w, s.phase.pending w = p.pending w) →
      ({ s with phase := p } : Acceptor n).Counted := by
    intro p hp w
    exact (hs w).trans (by rw [hp])
  cases a with
  | load =>
    rw [Acceptor.step] at h
    split at h
    next hphase =>
      obtain rfl := Option.some_inj.mp h
      exact hmove _ fun w => by simp [AcceptPhase.pending, hphase]
    next i best bestCount hphase =>
      split at h
      next =>
        obtain rfl := Option.some_inj.mp h
        refine hmove _ fun w => ?_
        split <;> simp [AcceptPhase.pending, hphase]
      next => exact absurd h (by simp)
    next => exact absurd h (by simp)
  | wait =>
    rw [Acceptor.step] at h
    split at h
    next hphase =>
      rw [Option.ite_none_left_eq_some] at h
      obtain rfl := Option.some_inj.mp h.2
      exact hmove _ fun w => by simp [AcceptPhase.pending, hphase]
    next => exact absurd h (by simp)
  | accept =>
    rw [Acceptor.step] at h
    split at h
    next hphase =>
      obtain rfl := Option.some_inj.mp h
      exact hmove _ fun w => by simp [AcceptPhase.pending, hphase]
    next => exact absurd h (by simp)
  | fail =>
    rw [Acceptor.step] at h
    split at h
    next hphase =>
      obtain rfl := Option.some_inj.mp h
      exact hmove _ fun w => by simp [AcceptPhase.pending, hphase]
    next hphase =>
      obtain rfl := Option.some_inj.mp h
      exact hmove _ fun w => by simp [AcceptPhase.pending, hphase]
    next => exact absurd h (by simp)
  | count =>
    rw [Acceptor.step] at h
    split at h
    next best hphase =>
      obtain rfl := Option.some_inj.mp h
      intro w
      have hcounter := hs w
      rw [hphase] at hcounter
      -- The counter of the chosen worker is ahead of its connections by the one that is pending.
      rcases eq_or_ne w best with rfl | hne
      · simpa [AcceptPhase.pending] using hcounter
      · simpa [AcceptPhase.pending, hne, hne.symm] using hcounter
    next => exact absurd h (by simp)
  | spawn =>
    rw [Acceptor.step] at h
    split at h
    next best hphase =>
      obtain rfl := Option.some_inj.mp h
      intro w
      have hcounter := hs w
      rw [hphase] at hcounter
      -- The pending connection has become a live one.
      rcases eq_or_ne w best with rfl | hne
      · simpa [AcceptPhase.pending] using hcounter
      · simpa [AcceptPhase.pending, hne, hne.symm] using hcounter
    next => exact absurd h (by simp)
  | finish v =>
    rw [Acceptor.step, Option.ite_none_left_eq_some] at h
    obtain ⟨hpos, hs'⟩ := h
    obtain rfl := Option.some_inj.mp hs'
    intro w
    have hcounter := hs w
    rcases eq_or_ne w v with rfl | hne
    · simp only [Function.update_self, hcounter]
      omega
    · simpa [hne] using hcounter

/-- The scan has read one more counter, and goes on with a worker that leads. -/
theorem Leading.scanned {i : ℕ} {b : Fin (n + 1)} {c : ℤ} (hb : (b : ℕ) < i) (hc : c = s.live b)
    (hle : ∀ w : Fin (n + 1), (w : ℕ) < i → s.live b ≤ s.live w) :
    Leading { s with phase := .scanning i b c } where
  best_lt b' hb' := by
    obtain rfl : b = b' := Option.some_inj.mp hb'
    exact hb
  leads b' hb' w hw := by
    obtain rfl : b = b' := Option.some_inj.mp hb'
    exact hle w hw
  bestCount_eq i' b' c' h _ := by
    obtain ⟨-, rfl, rfl⟩ : i = i' ∧ b = b' ∧ c = c' := by simpa using h
    exact hc

/-- Reading the next counter. -/
theorem Leading.load (hs : s.Leading) (hcounted : s.Counted) (h : s.step .load = some s') :
    s'.Leading := by
  rw [step] at h
  split at h
  next htop =>
    -- The first counter is the lowest so far.
    obtain rfl := Option.some_inj.mp h
    refine Leading.scanned Nat.one_pos ?_ fun w hw => ?_
    · rw [hcounted, htop]
      simp [AcceptPhase.pending]
    · obtain rfl : w = 0 := Fin.ext (Nat.lt_one_iff.mp hw)
      exact le_rfl
  next i best bestCount hphase =>
    split at h
    next hi =>
      obtain rfl := Option.some_inj.mp h
      have hbest : best ∈ s.phase.best := by rw [hphase]; rfl
      have hloaded : s.phase.loaded = i := by rw [hphase]; rfl
      have hlt := hs.best_lt best hbest
      have hleads := hs.leads best hbest
      rw [Leads, hloaded] at hleads
      rw [hloaded] at hlt
      have hcount : s.counter ⟨i, hi⟩ = s.live ⟨i, hi⟩ := by
        rw [hcounted, hphase]
        simp [AcceptPhase.pending]
      have hbestCount := hs.bestCount_eq i best bestCount hphase hi
      -- A counter below the index has been read before, and the one at the index is read now.
      have hcases : ∀ w : Fin (n + 1), (w : ℕ) < i + 1 → (w : ℕ) < i ∨ w = ⟨i, hi⟩ := by
        intro w hw
        rcases Nat.lt_succ_iff_lt_or_eq.mp hw with hw | hw
        · exact Or.inl hw
        · exact Or.inr (Fin.ext hw)
      split
      next hbetter =>
        have hlower : s.live ⟨i, hi⟩ < s.live best := by omega
        refine Leading.scanned (Nat.lt_succ_self i) hcount fun w hw => ?_
        rcases hcases w hw with hw | rfl
        · exact hlower.le.trans (hleads w hw)
        · exact le_rfl
      next hbetter =>
        have hhigher : s.live best ≤ s.live ⟨i, hi⟩ := by omega
        refine Leading.scanned (hlt.trans (Nat.lt_succ_self i)) hbestCount fun w hw => ?_
        rcases hcases w hw with hw | rfl
        · exact hleads w hw
        · exact hhigher
    next => exact absurd h (by simp)
  next => exact absurd h (by simp)

/-- The loop goes on with the worker that it has chosen. -/
theorem Leading.of_chosen (hs : s.Leading) {p : AcceptPhase n} {b : Fin (n + 1)}
    {counter : Fin (n + 1) → ℤ} (hloaded : n + 1 ≤ s.phase.loaded) (hbest : b ∈ s.phase.best)
    (hp : p = .accepting b ∨ p = .accepted b ∨ p = .counted b) :
    Leading { s with phase := p, counter := counter } := by
  -- In all three phases every counter has been read.
  have hpbest : p.best = some b := by rcases hp with rfl | rfl | rfl <;> rfl
  have hploaded : p.loaded = n + 1 := by rcases hp with rfl | rfl | rfl <;> rfl
  refine ⟨fun b' hb' => ?_, fun b' hb' w _ => ?_, fun i b' c h => ?_⟩
  · rw [hploaded]
    exact b'.isLt
  · obtain rfl : b = b' := Option.some_inj.mp (hpbest.symm.trans hb')
    exact hs.leads b hbest w (w.isLt.trans_le hloaded)
  · rcases hp with rfl | rfl | rfl <;> simp at h

/-- At the top and behind the end no worker is chosen. -/
theorem Leading.of_forgotten {p : AcceptPhase n} {counter : Fin (n + 1) → ℤ}
    {live : Fin (n + 1) → ℕ} (hp : p = .top ∨ p = .ended) : Leading ⟨p, counter, live⟩ := by
  have hbest : p.best = none := by rcases hp with rfl | rfl <;> rfl
  refine ⟨fun b hb => ?_, fun b hb => ?_, fun i b c h => ?_⟩
  · simp [hbest] at hb
  · simp [hbest] at hb
  · rcases hp with rfl | rfl <;> simp at h

/-- A connection ends, and its worker does not get below the chosen one. -/
theorem Leading.finish (hs : s.Leading) {v : Fin (n + 1)} (hok : s.KeepsLead (.finish v))
    (h : s.step (.finish v) = some s') : s'.Leading := by
  rw [step, Option.ite_none_left_eq_some] at h
  obtain ⟨hpos, hs'⟩ := h
  obtain rfl := Option.some_inj.mp hs'
  refine ⟨hs.best_lt, fun b hb w hw => ?_, fun i b c hphase hi => ?_⟩
  · have hle := hs.leads b hb w hw
    change Function.update s.live v (s.live v - 1) b ≤ Function.update s.live v (s.live v - 1) w
    rw [Function.update_apply, Function.update_apply]
    rcases eq_or_ne w v with rfl | hwv
    · -- The worker of the connection has been read: it keeps the lead, or is the chosen one.
      rcases hok b hb hw with hlt | ⟨rfl, -⟩
      · have hbw : b ≠ w := by
          rintro rfl
          exact absurd hlt (lt_irrefl _)
        rw [if_neg hbw, if_pos rfl]
        omega
      · exact le_rfl
    · rw [if_neg hwv]
      split
      next hbv =>
        rw [← hbv]
        omega
      next => exact hle
  · have hb : b ∈ s.phase.best := by
      change s.phase = _ at hphase
      rw [hphase]
      rfl
    have hcount := hs.bestCount_eq i b c hphase hi
    -- In the scan no connection of the chosen worker ends.
    have hne : b ≠ v := by
      rintro rfl
      change s.phase = _ at hphase
      rcases hok b hb (hs.best_lt b hb) with hlt | ⟨-, hover⟩
      · exact absurd hlt (lt_irrefl _)
      · rw [hphase] at hover
        exact absurd hi (not_lt.mpr hover)
    change c = (Function.update s.live v (s.live v - 1) b : ℕ)
    rw [hcount, Function.update_of_ne hne]

/-- Every step that keeps the lead keeps what the loop knows. -/
theorem Leading.step (hs : s.Leading) (hcounted : s.Counted) {a : AcceptAction n}
    (hok : s.KeepsLead a) (h : s.step a = some s') : s'.Leading := by
  cases a with
  | load => exact hs.load hcounted h
  | wait =>
    rw [Acceptor.step] at h
    split at h
    next i best c hphase =>
      rw [Option.ite_none_left_eq_some] at h
      obtain ⟨hi, hs'⟩ := h
      obtain rfl := Option.some_inj.mp hs'
      exact hs.of_chosen (by rw [hphase]; exact not_lt.mp hi) (by rw [hphase]; rfl) (Or.inl rfl)
    next => exact absurd h (by simp)
  | accept =>
    rw [Acceptor.step] at h
    split at h
    next best hphase =>
      obtain rfl := Option.some_inj.mp h
      exact hs.of_chosen (by rw [hphase]; exact le_rfl) (by rw [hphase]; rfl) (Or.inr (Or.inl rfl))
    next => exact absurd h (by simp)
  | fail =>
    -- Nothing is assigned any more.
    rw [Acceptor.step] at h
    split at h
    next best hphase =>
      obtain rfl := Option.some_inj.mp h
      exact Leading.of_forgotten (Or.inr rfl)
    next best hphase =>
      obtain rfl := Option.some_inj.mp h
      exact Leading.of_forgotten (Or.inr rfl)
    next => exact absurd h (by simp)
  | count =>
    rw [Acceptor.step] at h
    split at h
    next best hphase =>
      obtain rfl := Option.some_inj.mp h
      exact hs.of_chosen (by rw [hphase]; exact le_rfl) (by rw [hphase]; rfl) (Or.inr (Or.inr rfl))
    next => exact absurd h (by simp)
  | spawn =>
    rw [Acceptor.step] at h
    split at h
    next best hphase =>
      obtain rfl := Option.some_inj.mp h
      exact Leading.of_forgotten (Or.inl rfl)
    next => exact absurd h (by simp)
  | finish w => exact hs.finish hok h

/-- In the runs whose connections leave the chosen worker its lead, the loop knows that it has. -/
theorem leading_of_reach (h : Reach step KeepsLead (start n) s) : s.Leading := by
  have hboth : s.Leading ∧ s.Counted := by
    apply h.invariant
    · exact ⟨leading_start, fun w => by simp [start, AcceptPhase.pending]⟩
    · intro s a s' hs hok hstep
      exact ⟨hs.1.step hs.2 hok hstep, hs.2.step hstep⟩
  exact hboth.1

/-- The phases in which a connection is assigned. -/
theorem Assigns.chosen {b : Fin (n + 1)} (h : s.Assigns b) :
    b ∈ s.phase.best ∧ s.phase.loaded = n + 1 := by
  rcases h with h | h <;> rw [h] <;> exact ⟨rfl, rfl⟩

/-- Behind the scan, a connection that ends and takes the lead from the chosen worker leaves its own
worker with fewer connections; if one is accepted then, it goes to the chosen worker. -/
theorem exists_assigns_of_not_keepsLead {a : AcceptAction n} (h : s.step a = some s')
    (hok : ¬ s.KeepsLead a) (hscanned : ∀ i b c, s.phase ≠ .scanning i b c) :
    ∃ t, Reach step Any s' t ∧ ∃ b w, t.Assigns b ∧ t.live w < t.live b := by
  cases a with
  | finish v =>
    simp only [KeepsLead] at hok
    push Not at hok
    obtain ⟨b, hb, hloaded, hle, hne⟩ := hok
    rw [step, Option.ite_none_left_eq_some] at h
    obtain ⟨hpos, hs'⟩ := h
    have hphase' : s'.phase = s.phase := by rw [← Option.some_inj.mp hs']
    have hover : s.phase.loaded = n + 1 := by
      cases hphase : s.phase with
      | scanning i b c => exact absurd hphase (hscanned i b c)
      | top => simp [hphase, AcceptPhase.best] at hb
      | ended => simp [hphase, AcceptPhase.best] at hb
      | _ => rfl
    have hvb : v ≠ b := fun hvb => absurd (hne hvb) (by omega)
    -- The worker of the connection was not above the chosen one, and has one connection less.
    have hlower : s'.live v < s'.live b := by
      rw [← Option.some_inj.mp hs']
      simp only [Function.update_self, Function.update_of_ne hvb.symm]
      omega
    cases hphase : s.phase with
    | scanning i b c => exact absurd hphase (hscanned i b c)
    | top => simp [hphase, AcceptPhase.best] at hb
    | ended => simp [hphase, AcceptPhase.best] at hb
    | accepting best =>
      -- The next connection is accepted.
      obtain rfl : best = b := by simpa [hphase, AcceptPhase.best] using hb
      have haccept : s'.step .accept = some { s' with phase := .accepted best } := by
        rw [step, hphase', hphase]
      exact ⟨_, Reach.start.next .accept haccept, best, v, Or.inl rfl, hlower⟩
    | accepted best =>
      obtain rfl : best = b := by simpa [hphase, AcceptPhase.best] using hb
      exact ⟨s', .start, best, v, Or.inl (hphase'.trans hphase), hlower⟩
    | counted best =>
      obtain rfl : best = b := by simpa [hphase, AcceptPhase.best] using hb
      exact ⟨s', .start, best, v, Or.inr (hphase'.trans hphase), hlower⟩
  | _ => exact absurd trivial hok

/-- In every run whose connections leave the chosen worker its lead, every accepted connection is
assigned to a worker than which no other one has fewer connections. Behind the scan this is what it
takes: a connection that ends otherwise leaves the chosen worker with more connections than another
one, and the next connection that is accepted is assigned to it. -/
theorem assigned_to_least_loaded (n : ℕ) :
    (∀ s : Acceptor n, Reach step KeepsLead (start n) s →
      ∀ b, s.Assigns b → ∀ w, s.live b ≤ s.live w) ∧
    ∀ (s : Acceptor n) (a : AcceptAction n) (s' : Acceptor n), Reach step Any (start n) s →
      s.step a = some s' → ¬ s.KeepsLead a → (∀ i b c, s.phase ≠ .scanning i b c) →
        ∃ t, Reach step Any s' t ∧ ∃ b w, t.Assigns b ∧ t.live w < t.live b := by
  refine ⟨fun s hs b hb w => ?_, fun s a s' _ h hok hscanned => ?_⟩
  · obtain ⟨hbest, hloaded⟩ := hb.chosen
    exact (leading_of_reach hs).leads b hbest w (by rw [hloaded]; exact w.isLt)
  · exact exists_assigns_of_not_keepsLead h hok hscanned

/-- One iteration with two workers. -/
def iteration : List (AcceptAction 1) := [.load, .load, .wait, .accept, .count, .spawn]

/-- The first connection ends while the loop waits for the second one, and has chosen the other
worker. -/
def leavingWorker : List (AcceptAction 1) :=
  iteration ++ [.load, .load, .wait, .finish 0, .accept]

theorem assigned_to_least_loaded_leaving :
    ∃ s : Acceptor 1, run (guarded step KeepsLead) (start 1) leavingWorker = some s ∧
      s.Assigns 1 ∧ ∀ w, s.live 1 ≤ s.live w := by
  have hsome : (run (guarded step KeepsLead) (start 1) leavingWorker).isSome = true := by decide
  obtain ⟨s, hs⟩ := Option.isSome_iff_exists.mp hsome
  have hphase : (run (guarded step KeepsLead) (start 1) leavingWorker).map phase =
      some (.accepted 1) := by decide
  rw [hs, Option.map_some, Option.some_inj] at hphase
  have hassigns : s.Assigns 1 := Or.inl hphase
  exact ⟨s, hs, hassigns, (assigned_to_least_loaded 1).1 s (Reach.of_run_guarded hs) 1 hassigns⟩

/-- With two workers that have one connection each, the first one is chosen. While the loop waits
for the next connection, the second worker becomes idle. -/
def idleWorker : List (AcceptAction 1) :=
  iteration ++ iteration ++ [.load, .load, .wait, .finish 1, .accept]

/-- The second worker is idle, the first one gets the connection. -/
theorem assigned_past_idle_worker :
    ¬ ∀ (n : ℕ) (s : Acceptor n) (b : Fin (n + 1)), Reach step Any (start n) s → s.Assigns b →
      ∀ w, s.live b ≤ s.live w := by
  intro hleast
  have hsome : (run step (start 1) idleWorker).isSome = true := rfl
  obtain ⟨s, hs⟩ := Option.isSome_iff_exists.mp hsome
  have hphase : (run step (start 1) idleWorker).map phase = some (.accepted 0) := rfl
  have hlive : (run step (start 1) idleWorker).map (fun s => (s.live 0, s.live 1)) =
      some (1, 0) := rfl
  rw [hs, Option.map_some, Option.some_inj] at hphase hlive
  obtain ⟨h0, h1⟩ := Prod.mk.inj hlive
  have hle := hleast 1 s 0 (Reach.of_run hs) (Or.inl hphase) 1
  omega

end Acceptor

end Lundi
