import Lundi.Core.Exception

/-!
# Sockets

A connected TCP socket and the coroutines that use it. The network decides what becomes of each
operation: how many bytes a read delivers, whether the operation fails, or whether nothing ever
happens. A `Network` is any such sequence of decisions, so that a statement about all networks is
one about all ways the byte stream can be cut.

`Awaitable` is the type of a coroutine: it may end with a value, let an exception escape or stay
suspended forever.
-/

namespace Lundi

/-- What becomes of a socket operation. -/
inductive IoEvent
  /-- It succeeds; a read finds about this many bytes. -/
  | ready (available : ℕ)
  | fails (code : ErrorCode)
  /-- Nothing happens any more. -/
  | silent

/-- The fate of the first, the second, … operation on a socket. -/
abbrev Network := ℕ → IoEvent

/-- A socket. -/
structure Socket where
  /-- What the peer sends from now on before it closes its side. -/
  incoming : Bytes
  /-- What completed writes have sent. -/
  outgoing : Bytes
  /-- The number of operations so far. -/
  now : ℕ

/-- How a coroutine ends. -/
inductive IoResult (α : Type)
  | done (value : α)
  | raised (e : Exception)
  | suspended

/-- `asio::awaitable`. -/
def Awaitable (α : Type) := Socket → IoResult α × Socket

namespace Awaitable

variable {α β : Type}

/-- Run a coroutine. -/
def run (x : Awaitable α) (s : Socket) : IoResult α × Socket := x s

instance : Monad Awaitable where
  pure a := fun s => (.done a, s)
  bind x f := fun s =>
    match x s with
    | (.done a, s) => f a s
    | (.raised e, s) => (.raised e, s)
    | (.suspended, s) => (.suspended, s)

/-- `try` and `catch`. -/
def catching (x : Awaitable α) (handler : Exception → Awaitable α) : Awaitable α := fun s =>
  match x s with
  | (.raised e, s) => handler e s
  | r => r

/-- A coroutine that is never resumed. -/
def suspend : Awaitable α := fun s => (.suspended, s)

@[simp]
theorem run_pure (a : α) (s : Socket) : (pure a : Awaitable α).run s = (.done a, s) := rfl

theorem run_bind (x : Awaitable α) (f : α → Awaitable β) (s : Socket) :
    (x >>= f).run s = match x.run s with
      | (.done a, s) => (f a).run s
      | (.raised e, s) => (.raised e, s)
      | (.suspended, s) => (.suspended, s) := rfl

/-- What follows a step that ends with a value. -/
theorem run_bind_of_done {x : Awaitable α} {f : α → Awaitable β} {s s' : Socket} {a : α}
    (h : x.run s = (.done a, s')) : (x >>= f).run s = (f a).run s' := by
  rw [run_bind, h]

/-- A sequence that ends with a value consists of two steps that do. -/
theorem run_bind_eq_done_iff {x : Awaitable α} {f : α → Awaitable β} {s s' : Socket} {b : β} :
    (x >>= f).run s = (.done b, s') ↔
      ∃ a t, x.run s = (.done a, t) ∧ (f a).run t = (.done b, s') := by
  rw [run_bind]
  constructor
  · intro h
    split at h
    next a t hx => exact ⟨a, t, hx, h⟩
    all_goals exact absurd h (by simp)
  · rintro ⟨a, t, hx, h⟩
    rw [hx]
    exact h

/-- A value passes `catch`. -/
theorem run_catching_of_done {x : Awaitable α} {handler : Exception → Awaitable α}
    {s s' : Socket} {a : α} (h : x.run s = (.done a, s')) :
    (x.catching handler).run s = (.done a, s') := by
  change (match x.run s with | (.raised e, s) => handler e s | r => r) = _
  rw [h]

/-- The end of a coroutine in a `try` block whose `catch` block returns a value. -/
def caught (a : α) : IoResult α × Socket → IoResult α × Socket
  | (.raised _, s) => (.done a, s)
  | r => r

theorem run_catching_pure (x : Awaitable α) (a : α) (s : Socket) :
    (x.catching fun _ => pure a).run s = caught a (x.run s) := by
  have hrun : (x.catching fun _ => pure a).run s =
      match x.run s with
      | (.raised _, s) => (.done a, s)
      | r => r := rfl
  rw [hrun]
  obtain ⟨result, t⟩ := x.run s
  cases result <;> rfl

theorem caught_of_ne_raised (a : α) {r : IoResult α × Socket} (h : ∀ e, r.1 ≠ .raised e) :
    caught a r = r := by
  obtain ⟨result, t⟩ := r
  cases result with
  | raised e => exact absurd rfl (h e)
  | done b => rfl
  | suspended => rfl

/-- A `catch` block without an operation writes nothing. -/
theorem outgoing_catching (x : Awaitable α) (a : α) (s : Socket) :
    ((x.catching fun _ => pure a).run s).2.outgoing = (x.run s).2.outgoing := by
  change (match x.run s with
    | (.raised _, s) => (.done a, s)
    | r => r : IoResult α × Socket).2.outgoing = (x.run s).2.outgoing
  split
  next heq => rw [heq]
  next => rfl

end Awaitable

variable (net : Network)

/-- The error of an operation. -/
def systemError (code : ErrorCode) : Exception := .systemError code []

/-- `async_read_some` with room for `capacity` bytes: it delivers at least one byte, unless the
peer has closed its side. -/
def asyncReadSome (capacity : ℕ) : Awaitable Bytes := fun s =>
  match net s.now with
  | .ready available =>
    if s.incoming = [] then (.raised (systemError .eof), { s with now := s.now + 1 })
    else
      let n := min (max 1 available) capacity
      (.done (s.incoming.take n), { s with incoming := s.incoming.drop n, now := s.now + 1 })
  | .fails code => (.raised (systemError code), { s with now := s.now + 1 })
  | .silent => (.suspended, { s with now := s.now + 1 })

/-- `asio::async_read`: exactly `count` bytes. -/
def asyncRead (count : ℕ) : Awaitable Bytes := fun s =>
  match net s.now with
  | .ready _ =>
    if count ≤ s.incoming.length then
      (.done (s.incoming.take count),
        { s with incoming := s.incoming.drop count, now := s.now + 1 })
    else (.raised (systemError .eof), { s with incoming := [], now := s.now + 1 })
  | .fails code => (.raised (systemError code), { s with now := s.now + 1 })
  | .silent => (.suspended, { s with now := s.now + 1 })

/-- `asio::async_write`. -/
def asyncWrite (bytes : Bytes) : Awaitable Unit := fun s =>
  match net s.now with
  | .ready _ => (.done (), { s with outgoing := s.outgoing ++ bytes, now := s.now + 1 })
  | .fails code => (.raised (systemError code), { s with now := s.now + 1 })
  | .silent => (.suspended, { s with now := s.now + 1 })

/-- No operation fails or hangs. -/
def Network.Calm : Prop := ∀ t, ∃ n, net t = .ready n

variable {net}

theorem run_asyncRead (hcalm : net.Calm) {s : Socket} {bytes rest : Bytes} {count : ℕ}
    (h : s.incoming = bytes ++ rest) (hcount : bytes.length = count) :
    (asyncRead net count).run s =
      (.done bytes, { s with incoming := rest, now := s.now + 1 }) := by
  obtain ⟨n, hn⟩ := hcalm s.now
  simp [Awaitable.run, asyncRead, hn, h, ← hcount]

theorem run_asyncWrite (hcalm : net.Calm) (bytes : Bytes) (s : Socket) :
    (asyncWrite net bytes).run s =
      (.done (), { s with outgoing := s.outgoing ++ bytes, now := s.now + 1 }) := by
  obtain ⟨n, hn⟩ := hcalm s.now
  simp [Awaitable.run, asyncWrite, hn]

theorem asyncRead_sound {count : ℕ} {s s' : Socket} {bytes : Bytes}
    (h : (asyncRead net count).run s = (.done bytes, s')) :
    s.incoming = bytes ++ s'.incoming ∧ bytes.length = count ∧ s'.outgoing = s.outgoing := by
  simp only [Awaitable.run, asyncRead] at h
  split at h
  · split at h
    next hle =>
      obtain ⟨hdone, rfl⟩ := Prod.mk.inj h
      obtain rfl := IoResult.done.inj hdone
      exact ⟨(List.take_append_drop _ _).symm, List.length_take_of_le hle, rfl⟩
    next => exact absurd h (by simp)
  · exact absurd h (by simp)
  · exact absurd h (by simp)

theorem outgoing_asyncRead (net : Network) (count : ℕ) (s : Socket) :
    ((asyncRead net count).run s).2.outgoing = s.outgoing := by
  simp only [Awaitable.run, asyncRead]
  split
  · split <;> rfl
  · rfl
  · rfl

/-- A write completes, or nothing is written. -/
theorem asyncWrite_cases (net : Network) (bytes : Bytes) (s : Socket) :
    (asyncWrite net bytes).run s =
        (.done (), { s with outgoing := s.outgoing ++ bytes, now := s.now + 1 }) ∨
      ∃ result, result ≠ .done () ∧
        (asyncWrite net bytes).run s = (result, { s with now := s.now + 1 }) := by
  simp only [Awaitable.run, asyncWrite]
  split
  · exact Or.inl rfl
  · exact Or.inr ⟨_, by simp, rfl⟩
  · exact Or.inr ⟨_, by simp, rfl⟩

theorem asyncWrite_sound {bytes : Bytes} {s s' : Socket}
    (h : (asyncWrite net bytes).run s = (.done (), s')) :
    s' = { s with outgoing := s.outgoing ++ bytes, now := s.now + 1 } := by
  rcases asyncWrite_cases net bytes s with hdone | ⟨result, hresult, hfail⟩
  · exact (Prod.mk.inj (h.symm.trans hdone)).2
  · exact absurd (Prod.mk.inj (h.symm.trans hfail)).1.symm hresult

/-- A write that does not complete is the fault of the network. -/
theorem not_calm_of_run_asyncWrite {bytes : Bytes} {s s' : Socket} {result : IoResult Unit}
    (h : (asyncWrite net bytes).run s = (result, s')) (hresult : result ≠ .done ()) :
    ¬ net.Calm := by
  intro hcalm
  rw [run_asyncWrite hcalm] at h
  exact hresult (Prod.mk.inj h).1.symm

end Lundi
