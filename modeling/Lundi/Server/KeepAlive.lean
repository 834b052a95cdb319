import Lundi.Server.Segmentation

/-!
# Keeping a connection open

When the loop of `handle_connection` goes on, whatever the network and the handlers do.

* `continues_of_step`: what is known of a request behind which the loop goes on;
* `length_log_le`: the number of requests on a connection;
* `length_log_le_one`: what is still served once the server is shutting down.
-/

namespace Lundi

variable {σ : Type} {env : Env} {opts : ServerOptions} {app : App σ}

/-- The request asks to close the connection. -/
def Request.asksToClose (req : Request) : Bool :=
  req.headerEquals (ascii "connection") (ascii "close")

/-- A request was answered by a single write, after everything else that happened because of it. -/
def Exchange.AnsweredLast (x : Exchange) : Prop :=
  ∃ (during : List Event) (bytes : Bytes),
    x.events = .dispatched x.request :: during.map .during ++ [.wrote bytes]

/-- The decision whether to go on is made at some time after the iteration began. -/
theorem keepAlive_of_receive {c : ConnState σ} {d : Dispatch σ}
    (h : receive env opts app c = .dispatch d) :
    ∃ now ≥ c.socket.now, d.conn.keepAlive = (c.keepAlive && !(d.request.asksToClose ||
      decide (opts.maxKeepaliveRequests > 0 ∧ opts.maxKeepaliveRequests ≤ c.requestCount + 1) ||
      env.shuttingDown now)) := by
  unfold receive at h
  split at h
  next headerEnd buffer s hread =>
    split at h
    · exact absurd h (by simp)
    next hne =>
      have hnow := (readHead_sound (Nat.pos_of_ne_zero hne) hread).now_le
      refine ⟨s.now, hnow, ?_⟩
      unfold receiveRequest at h
      simp only at h
      split at h
      · exact absurd h (by simp)
      split at h
      · -- An endpoint that takes over dispatches nothing.
        unfold handOver at h
        simp only at h
        split at h
        · split at h <;> exact absurd h (by simp)
        · exact absurd h (by simp)
        · exact absurd h (by simp)
      unfold receiveBody at h
      simp only at h
      -- The body has no part in the decision.
      split at h
      · unfold refuse at h
        simp only at h
        split at h <;> exact absurd h (by simp)
      · obtain rfl := Phase.dispatch.inj h
        rfl
      split at h
      · obtain rfl := Phase.dispatch.inj h
        rfl
      · unfold refuse at h
        simp only at h
        split at h <;> exact absurd h (by simp)
      · exact absurd h (by simp)
      · exact absurd h (by simp)
  · exact absurd h (by simp)
  · exact absurd h (by simp)

/-- What is known of a request behind which the loop goes on to `c'`. -/
structure Continues (env : Env) (opts : ServerOptions) (app : App σ) (c c' : ConnState σ)
    (x : Exchange) : Prop where
  requestCount_eq : c'.requestCount = c.requestCount + 1
  takesOver_eq : app.takesOver x.request = false
  answered : x.AnsweredLast
  keepAlive_eq : ∃ now ≥ c.socket.now, c'.keepAlive = (c.keepAlive && !(x.request.asksToClose ||
    decide (opts.maxKeepaliveRequests > 0 ∧ opts.maxKeepaliveRequests ≤ c.requestCount + 1) ||
    env.shuttingDown now))

theorem continues_of_step {c c' : ConnState σ} {x : Exchange}
    (h : step env opts app c = .next c' x) : Continues env opts app c c' x := by
  rw [step] at h
  cases hreceive : receive env opts app c with
  | stop exit y s =>
    rw [hreceive] at h
    exact absurd h (by simp)
  | dispatch d =>
    rw [hreceive] at h
    have hreceived := received_of_receive hreceive
    obtain ⟨now, hnow, hkeep⟩ := keepAlive_of_receive hreceive
    have hresponds := responds_respond env app d
    rw [show respond env app d = _ from h] at hresponds
    cases hresponds with
    | next hres hcount hkeep' hout =>
      exact ⟨hcount.trans hreceived.requestCount_eq, hreceived.takesOver_eq, ⟨_, _, rfl⟩, now, hnow,
        hkeep'.trans hkeep⟩

/-- The loop goes on only while there is no reason to close. -/
theorem Continues.of_keepAlive {c c' : ConnState σ} {x : Exchange}
    (h : Continues env opts app c c' x) (hkeep : c'.keepAlive = true) :
    x.request.asksToClose = false ∧
      (opts.maxKeepaliveRequests > 0 → (c'.requestCount : ℤ) < opts.maxKeepaliveRequests) := by
  obtain ⟨now, -, heq⟩ := h.keepAlive_eq
  rw [hkeep] at heq
  simp only [Bool.true_eq, Bool.and_eq_true, Bool.not_eq_true', Bool.or_eq_false_iff,
    decide_eq_false_iff_not] at heq
  obtain ⟨-, ⟨hclose, hlimit⟩, -⟩ := heq
  refine ⟨hclose, fun hpos => ?_⟩
  rw [h.requestCount_eq]
  push_cast
  omega

/-- An iteration that stops leaves at most one entry. -/
theorem length_toList_le_one {α : Type} (x : Option α) : x.toList.length ≤ 1 := by
  cases x <;> simp

/-- Nothing is logged behind a state in which the connection is to be closed. -/
theorem log_runFor_of_not_keepAlive {c : ConnState σ} (hkeep : c.keepAlive = false) (budget : ℕ) :
    (runFor env opts app budget c).log = [] := by
  cases budget with
  | zero => rfl
  | succ budget => rw [runFor, hkeep, if_neg Bool.false_ne_true]

/-- The number of requests behind a state of a connection, when there is a limit. The induction is
on the budget; a state in which the loop goes on is below the limit. -/
theorem length_log_le (hlimit : opts.maxKeepaliveRequests > 0) (budget : ℕ) {c : ConnState σ}
    (hkeep : c.keepAlive = true) (hcount : (c.requestCount : ℤ) < opts.maxKeepaliveRequests) :
    (c.requestCount + (runFor env opts app budget c).log.length : ℤ) ≤
      opts.maxKeepaliveRequests := by
  induction budget generalizing c with
  | zero =>
    simp only [runFor, List.length_nil]
    omega
  | succ budget ih =>
    rw [runFor, if_pos hkeep]
    cases hstep : step env opts app c with
    | stop exit x s =>
      have hone := length_toList_le_one x
      dsimp only
      omega
    | next c' x =>
      have hcontinues := continues_of_step hstep
      have hsucc := hcontinues.requestCount_eq
      dsimp only
      rw [List.length_cons]
      -- The counter has gone up by one; a connection that is kept is still below the limit.
      by_cases hkeep' : c'.keepAlive = true
      · have hrest := ih hkeep' ((hcontinues.of_keepAlive hkeep').2 hlimit)
        push_cast at hrest ⊢
        omega
      · rw [log_runFor_of_not_keepAlive (by simpa using hkeep'), List.length_nil]
        omega

/-- Once the server is shutting down, at most one more request is served. -/
theorem length_log_le_one {start : ℕ} (hdown : ∀ t ≥ start, env.shuttingDown t = true)
    (budget : ℕ) {c : ConnState σ} (hnow : start ≤ c.socket.now) :
    (runFor env opts app budget c).log.length ≤ 1 := by
  cases budget with
  | zero => simp [runFor]
  | succ budget =>
    rw [runFor]
    split
    · cases hstep : step env opts app c with
      | stop exit x s => exact length_toList_le_one x
      | next c' x =>
        -- The flag is read while the request is received.
        obtain ⟨now, hle, hkeep⟩ := (continues_of_step hstep).keepAlive_eq
        rw [hdown now (by omega), Bool.or_true, Bool.not_true, Bool.and_false] at hkeep
        dsimp only
        rw [log_runFor_of_not_keepAlive hkeep]
        rfl
    · simp

/-- Behind every request but the last the connection was kept open: the request was an ordinary one
that did not ask to close, and it was answered. -/
theorem of_mem_dropLast_log (budget : ℕ) (c : ConnState σ) :
    ∀ x ∈ (runFor env opts app budget c).log.dropLast,
      app.takesOver x.request = false ∧ x.request.asksToClose = false ∧ x.AnsweredLast := by
  induction budget generalizing c with
  | zero => simp [runFor]
  | succ budget ih =>
    rw [runFor]
    split
    · cases hstep : step env opts app c with
      | stop exit x s => cases x <;> simp
      | next c' x =>
        have hcontinues := continues_of_step hstep
        dsimp only
        -- The entry is not the last one only if the loop goes on behind it.
        by_cases hkeep : c'.keepAlive = true
        · by_cases hnil : (runFor env opts app budget c').log = []
          · simp [hnil]
          · rw [List.dropLast_cons_of_ne_nil hnil]
            exact List.forall_mem_cons.mpr ⟨⟨hcontinues.takesOver_eq,
              (hcontinues.of_keepAlive hkeep).1, hcontinues.answered⟩, ih c'⟩
        · simp [log_runFor_of_not_keepAlive (by simpa using hkeep : c'.keepAlive = false)]
    · simp

/-- On every connection, whatever the network, the handlers and the client do: there are at most
as many requests as the limit says; behind a request that asks to close, is taken over or is not
answered there is no other; and from any state in which the server is shutting down at most one
more request is served. -/
theorem keepAlive_handleConnection (env : Env) (opts : ServerOptions) (app : App σ) (user : σ)
    (incoming : Bytes) :
    let run := handleConnection env opts app user incoming
    (opts.maxKeepaliveRequests > 0 → (run.log.length : ℤ) ≤ opts.maxKeepaliveRequests) ∧
      (∀ x ∈ run.log.dropLast, app.takesOver x.request = false ∧
        x.request.asksToClose = false ∧ x.AnsweredLast) ∧
      ∀ start, (∀ t ≥ start, env.shuttingDown t = true) →
        ∀ c, Relation.ReflTransGen (Goes env opts app) (.init user incoming) c →
          start ≤ c.socket.now → ∀ budget, (runFor env opts app budget c).log.length ≤ 1 := by
  refine ⟨fun hlimit => ?_, of_mem_dropLast_log _ _, fun start hdown c _ hnow budget => ?_⟩
  · have hle : (0 + (handleConnection env opts app user incoming).log.length : ℤ) ≤
        opts.maxKeepaliveRequests :=
      length_log_le hlimit (incoming.length + 1) (c := .init user incoming) rfl hlimit
    rwa [zero_add] at hle
  · exact length_log_le_one hdown budget hnow

end Lundi
