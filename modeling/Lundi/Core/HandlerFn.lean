import Lundi.Lib.Ownership
import Lundi.Lib.Refinement

/-!
# Type-erased callables

`handler_fn`, which every handler and every middleware is stored in: three pointers, to a callable
on the heap, to a function that casts it back to its type and calls it, and to one that casts it
back and deletes it. A program constructs, moves, calls and destroys such objects at places of its
own, variables or elements of a vector. A cast to another type than the one that lives at an
address, a second deletion and a call of an empty object are undefined, so a run that gives a store
has made none of them. Allocation does not fail, and a call returns before the next operation.

Seen from outside, a place holds nothing, an empty object, or a callable of its own, and a move
takes it from one place to another.

* `step_refines`: what one operation does;
* `handlerFn_refines_values`: what a run does, and that nothing is left behind.
-/

namespace Lundi

open Function Ownership Refinement Runs

/-- `handler_fn`. The functions that its constructor makes for callables of one type are named by
the type. -/
structure HandlerFn (κ : Type) where
  /-- `invoke_` -/
  invoke : Option κ
  /-- `data_` -/
  data : Option ℕ
  /-- `destroy_` -/
  destroy : Option κ

namespace HandlerFn

variable {κ : Type}

/-- `handler_fn() = default`; what a move leaves behind. -/
def empty : HandlerFn κ := ⟨none, none, none⟩

/-- `operator bool`. -/
def isTruthy (h : HandlerFn κ) : Bool := h.invoke.isSome

end HandlerFn

variable {ι κ A R : Type} {F : κ → Type}

/-- A callable of some type. -/
abbrev Callable (F : κ → Type) := (k : κ) × F k

/-- The callables that have been allocated and not deleted. -/
abbrev CallableHeap (F : κ → Type) := ℕ → Option (Callable F)

/-- The objects of a program, the callables behind them, and what calls have returned. -/
structure HandlerStore (ι R : Type) (F : κ → Type) where
  /-- What lives at a place. -/
  objects : ι → Option (HandlerFn κ)
  heap : CallableHeap F
  returned : List R

/-- What a program does with its objects. -/
inductive HandlerOp (ι A : Type) (F : κ → Type)
  | default (p : ι)
  /-- The constructor from a callable, for which `new` gives the address. -/
  | construct (p : ι) (k : κ) (f : F k) (address : ℕ)
  | moveConstruct (p q : ι)
  | moveAssign (p q : ι)
  | call (p : ι) (args : A)
  | destruct (p : ι)

section Concrete

variable [DecidableEq κ]

/-- `*static_cast<DecayF*>( d )`. -/
def CallableHeap.cast (heap : CallableHeap F) (k : κ) (d : Option ℕ) : Option (F k) :=
  match d.bind heap with
  | none => none
  | some ⟨k', f⟩ => if h : k' = k then some (h ▸ f) else none

/-- `delete static_cast<DecayF*>( d )`: nothing happens to a null pointer. -/
def CallableHeap.delete (heap : CallableHeap F) (k : κ) : Option ℕ → Option (CallableHeap F)
  | none => some heap
  | some a => (heap.cast k (some a)).map fun _ => update heap a none

/-- `if( destroy_ ) destroy_( data_ )`. -/
def HandlerFn.release (heap : CallableHeap F) (h : HandlerFn κ) : Option (CallableHeap F) :=
  match h.destroy with
  | none => some heap
  | some k => heap.delete k h.data

variable [DecidableEq ι] (call : ∀ k, F k → A → R × F k)

namespace HandlerStore

/-- A place without an object, or with one that ends here, gets another one. -/
def put (s : HandlerStore ι R F) (p : ι) (h : Option (HandlerFn κ)) : HandlerStore ι R F :=
  { s with objects := update s.objects p h }

omit [DecidableEq κ] in
@[simp]
theorem objects_put (s : HandlerStore ι R F) (p : ι) (h : Option (HandlerFn κ)) :
    (s.put p h).objects = update s.objects p h := rfl

omit [DecidableEq κ] in
@[simp]
theorem heap_put (s : HandlerStore ι R F) (p : ι) (h : Option (HandlerFn κ)) :
    (s.put p h).heap = s.heap := rfl

/-- An operation. A callable may change when it is called. -/
def step (s : HandlerStore ι R F) : HandlerOp ι A F → Option (HandlerStore ι R F)
  | .default p =>
    match s.objects p with
    | none => some (s.put p (some .empty))
    | some _ => none
  | .construct p k f address =>
    match s.objects p, s.heap address with
    | none, none =>
      some { s.put p (some ⟨some k, some address, some k⟩) with
        heap := update s.heap address (some ⟨k, f⟩) }
    | _, _ => none
  | .moveConstruct p q =>
    match s.objects p, s.objects q with
    | none, some o => some ((s.put p (some o)).put q (some .empty))
    | _, _ => none
  | .moveAssign p q =>
    match s.objects p, s.objects q with
    | some this, some o =>
      if p = q then some s
      else (this.release s.heap).map fun heap =>
        { (s.put p (some o)).put q (some .empty) with heap := heap }
    | _, _ => none
  | .call p args =>
    match s.objects p with
    | none => none
    | some h =>
      match h.invoke, h.data with
      | some k, some a => (s.heap.cast k (some a)).map fun f =>
        { s with
          heap := update s.heap a (some ⟨k, (call k f args).2⟩)
          returned := s.returned ++ [(call k f args).1] }
      | _, _ => none
  | .destruct p =>
    match s.objects p with
    | none => none
    | some h => (h.release s.heap).map fun heap => { s.put p none with heap := heap }

/-- Before the program starts. -/
def start : HandlerStore ι R F := ⟨fun _ => none, fun _ => none, []⟩

end HandlerStore

end Concrete

/-! ### Values -/

/-- What a program is to see: at a place there is no object, an empty one, or one with a callable,
and calls have returned something. -/
structure HandlerValues (ι R : Type) (F : κ → Type) where
  values : ι → Option (Option (Callable F))
  returned : List R

namespace HandlerValues

variable [DecidableEq ι] (call : ∀ k, F k → A → R × F k)

def start : HandlerValues ι R F := ⟨fun _ => none, []⟩

def put (v : HandlerValues ι R F) (p : ι) (c : Option (Option (Callable F))) :
    HandlerValues ι R F :=
  { v with values := update v.values p c }

@[simp]
theorem values_put (v : HandlerValues ι R F) (p : ι) (c : Option (Option (Callable F))) :
    (v.put p c).values = update v.values p c := rfl

/-- A move takes the callable along. -/
def move (v : HandlerValues ι R F) (p q : ι) : HandlerValues ι R F :=
  (v.put p (v.values q)).put q (some none)

/-- What an operation is to do. -/
def apply (v : HandlerValues ι R F) : HandlerOp ι A F → HandlerValues ι R F
  | .default p => v.put p (some none)
  | .construct p k f _ => v.put p (some (some ⟨k, f⟩))
  | .moveConstruct p q => v.move p q
  | .moveAssign p q => if p = q then v else v.move p q
  | .call p args =>
    match v.values p with
    | some (some ⟨k, f⟩) =>
      { v.put p (some (some ⟨k, (call k f args).2⟩)) with
        returned := v.returned ++ [(call k f args).1] }
    | _ => v
  | .destruct p => v.put p none

end HandlerValues

/-- The rules that a program keeps: objects are constructed where none is and used where one is, and
only what is not empty is called. `new` gives an address that is free. -/
def HandlerOp.Allowed (s : HandlerStore ι R F) (v : HandlerValues ι R F) :
    HandlerOp ι A F → Prop
  | .default p => v.values p = none
  | .construct p _ _ address => v.values p = none ∧ s.heap address = none
  | .moveConstruct p q => v.values p = none ∧ v.values q ≠ none
  | .moveAssign p q => v.values p ≠ none ∧ v.values q ≠ none
  | .call p _ => (v.values p).join ≠ none
  | .destruct p => v.values p ≠ none

instance (s : HandlerStore ι R F) (v : HandlerValues ι R F) (op : HandlerOp ι A F) :
    Decidable (op.Allowed s v) :=
  match op with
  | .default p => inferInstanceAs (Decidable (v.values p = none))
  | .construct p _ _ address =>
    inferInstanceAs (Decidable (v.values p = none ∧ s.heap address = none))
  | .moveConstruct p q => inferInstanceAs (Decidable (v.values p = none ∧ v.values q ≠ none))
  | .moveAssign p q => inferInstanceAs (Decidable (v.values p ≠ none ∧ v.values q ≠ none))
  | .call p _ => inferInstanceAs (Decidable ((v.values p).join ≠ none))
  | .destruct p => inferInstanceAs (Decidable (v.values p ≠ none))

/-! ### Objects with the values that they stand for -/

/-- An object that holds a callable at an address, or neither. -/
def HandlerFn.holding (a : Option ℕ) (c : Option (Callable F)) : HandlerFn κ :=
  ⟨c.map Sigma.fst, a, c.map Sigma.fst⟩

/-- The objects own their callables exclusively, and stand for these values. -/
structure Represents (s : HandlerStore ι R F) (owner : ι → Option ℕ) (v : HandlerValues ι R F) :
    Prop where
  exclusive : Exclusive owner s.heap
  objects_eq : ∀ p, s.objects p = (v.values p).map (HandlerFn.holding (owner p))
  held_eq : ∀ p, held owner s.heap p = (v.values p).join
  returned_eq : s.returned = v.returned

namespace Represents

variable {s : HandlerStore ι R F} {owner : ι → Option ℕ} {v : HandlerValues ι R F} {p q : ι}

theorem start : Represents (.start : HandlerStore ι R F) (fun _ => none) .start where
  exclusive := exclusive_empty
  objects_eq := fun _ => rfl
  held_eq := fun _ => rfl
  returned_eq := rfl

variable (h : Represents s owner v)
include h

theorem objects_eq_none (hp : v.values p = none) : s.objects p = none := by
  rw [h.objects_eq, hp, Option.map_none]

theorem owner_eq_none (hp : (v.values p).join = none) : owner p = none := by
  rw [← h.exclusive.held_eq_none_iff, h.held_eq, hp]

/-- Where there is a value, there is an object. -/
theorem exists_object (hp : v.values p ≠ none) : ∃ o, s.objects p = some o := by
  obtain ⟨c, hc⟩ := Option.ne_none_iff_exists'.mp hp
  exact ⟨_, by rw [h.objects_eq, hc, Option.map_some]⟩

/-- A place with a callable owns it. -/
theorem exists_owner {c : Callable F} (hp : v.values p = some (some c)) :
    ∃ a, owner p = some a ∧ s.heap a = some c := by
  have hheld := h.held_eq p
  rw [hp, Option.join_some] at hheld
  exact Option.bind_eq_some_iff.mp hheld

omit h in
theorem ne_of_values (hp : v.values p = none) (hq : v.values q ≠ none) : p ≠ q := by
  rintro rfl
  exact hq hp

variable [DecidableEq ι]

/-- One place changes, and the heap with it. -/
theorem put {owner' : ι → Option ℕ} {heap' : CallableHeap F} {c : Option (Option (Callable F))}
    (hexclusive : Exclusive owner' heap') (howner : ∀ r, r ≠ p → owner' r = owner r)
    (hheld : held owner' heap' = update (held owner s.heap) p c.join) :
    Represents { s.put p (c.map (.holding (owner' p))) with heap := heap' } owner' (v.put p c) where
  exclusive := hexclusive
  objects_eq := by
    intro r
    by_cases hrp : r = p
    · simp [hrp]
    · simp [hrp, howner r hrp, h.objects_eq r]
  held_eq := by
    intro r
    rw [hheld]
    by_cases hrp : r = p
    · simp [hrp]
    · simp [hrp, h.held_eq r]
  returned_eq := h.returned_eq

/-- A place that owns nothing takes over what another one has. -/
theorem move (hp : owner p = none) (hpq : p ≠ q) {o : HandlerFn κ} (hq : s.objects q = some o) :
    Represents ((s.put p (some o)).put q (some .empty)) (update (update owner q none) p (owner q))
      (v.move p q) where
  exclusive := h.exclusive.transfer hp
  objects_eq := by
    intro r
    -- The object that is moved from stays, and is empty.
    by_cases hrq : r = q
    · simp [HandlerValues.move, hrq, hpq.symm, HandlerFn.holding, HandlerFn.empty]
    by_cases hrp : r = p
    · simp [HandlerValues.move, hrp, hpq, ← h.objects_eq q, hq]
    · simp [HandlerValues.move, hrp, hrq, h.objects_eq r]
  held_eq := by
    intro r
    rw [held_transfer]
    by_cases hrq : r = q
    · simp [HandlerValues.move, hrq, hpq.symm]
    by_cases hrp : r = p
    · simp [HandlerValues.move, hrp, hpq, h.held_eq q]
    · simp [HandlerValues.move, hrp, hrq, h.held_eq r]
  returned_eq := h.returned_eq

variable [DecidableEq κ]

/-- What an object holds is deleted as what it is, and its place owns nothing any more. -/
theorem exists_release {o : HandlerFn κ} (hp : s.objects p = some o) :
    ∃ heap', o.release s.heap = some heap' ∧ Exclusive (update owner p none) heap' ∧
      held (update owner p none) heap' = update (held owner s.heap) p none := by
  rw [h.objects_eq, Option.map_eq_some_iff] at hp
  obtain ⟨c, hc, rfl⟩ := hp
  cases c with
  | none =>
    have hnone : owner p = none := h.owner_eq_none (by rw [hc]; rfl)
    have hheld : held owner s.heap p = none := h.exclusive.held_eq_none_iff.mpr hnone
    refine ⟨s.heap, rfl, ?_, ?_⟩
    · rw [← hnone, update_eq_self]
      exact h.exclusive
    · rw [← hheld, update_eq_self, ← hnone, update_eq_self]
  | some c =>
    obtain ⟨a, ha, hcell⟩ := h.exists_owner hc
    refine ⟨update s.heap a none, ?_, h.exclusive.release ha, h.exclusive.held_release ha⟩
    rw [ha]
    simp [HandlerFn.release, HandlerFn.holding, CallableHeap.delete, CallableHeap.cast, hcell]

end Represents

/-! ### Refinement -/

section Refinement

variable [DecidableEq ι] [DecidableEq κ] {call : ∀ k, F k → A → R × F k}
  {s : HandlerStore ι R F} {v : HandlerValues ι R F}

/-- An operation of a program that keeps the rules is defined, and does what it is to do. -/
theorem step_refines :
    Refines (HandlerStore.step call) (HandlerValues.apply call) HandlerOp.Allowed
      fun (s : HandlerStore ι R F) v => ∃ owner, Represents s owner v := by
  rintro s v op ⟨owner, h⟩ hok
  cases op with
  | default p =>
    have hnone := h.owner_eq_none (p := p) (by rw [show v.values p = none from hok]; rfl)
    refine ⟨_, ?_, owner, h.put (p := p) (c := some none) h.exclusive (fun _ _ => rfl) ?_⟩
    · simp only [HandlerStore.step, h.objects_eq_none hok, hnone]
      rfl
    · rw [← h.exclusive.held_eq_none_iff] at hnone
      exact (update_eq_self_iff.mpr hnone.symm).symm
  | construct p k f address =>
    obtain ⟨hp, hfree⟩ := hok
    have hnone := h.owner_eq_none (p := p) (by rw [hp]; rfl)
    have hput := h.put (p := p) (c := some (some ⟨k, f⟩)) (h.exclusive.acquire hnone hfree ⟨k, f⟩)
      (fun r hrp => update_of_ne hrp _ _) (h.exclusive.held_acquire hfree ⟨k, f⟩)
    refine ⟨_, ?_, _, hput⟩
    simp only [HandlerStore.step, h.objects_eq_none hp, hfree, update_self]
    rfl
  | moveConstruct p q =>
    obtain ⟨hp, hq⟩ := hok
    obtain ⟨o, ho⟩ := h.exists_object hq
    have hnone := h.owner_eq_none (p := p) (by rw [hp]; rfl)
    refine ⟨_, ?_, _, h.move hnone (Represents.ne_of_values hp hq) ho⟩
    simp only [HandlerStore.step, h.objects_eq_none hp, ho]
  | moveAssign p q =>
    obtain ⟨hp, hq⟩ := hok
    obtain ⟨this, hthis⟩ := h.exists_object hp
    obtain ⟨o, ho⟩ := h.exists_object hq
    by_cases hpq : p = q
    · refine ⟨s, ?_, owner, ?_⟩
      · simp only [HandlerStore.step, hthis, ho, if_pos hpq]
      · rw [HandlerValues.apply, if_pos hpq]
        exact h
    · -- The callable of `p` is deleted first; then `p` takes over what `q` has.
      obtain ⟨heap', hrelease, hexclusive, hheld⟩ := h.exists_release hthis
      have hput := h.put (p := p) (c := some none) hexclusive (fun r hrp => update_of_ne hrp _ _)
        hheld
      have hmove := hput.move (update_self _ _ _) hpq
        (show _ = some o by simpa [Ne.symm hpq] using ho)
      have hvalues : (v.put p (some none)).move p q = v.apply call (.moveAssign p q) := by
        simp [HandlerValues.apply, HandlerValues.move, HandlerValues.put, hpq, Ne.symm hpq]
      refine ⟨{ (s.put p (some o)).put q (some .empty) with heap := heap' }, ?_,
        update (update (update owner p none) q none) p (update owner p none q), ?_⟩
      · simp only [HandlerStore.step, hthis, ho, if_neg hpq, hrelease]
        rfl
      · rw [← hvalues]
        simpa [HandlerStore.put] using hmove
  | call p args =>
    obtain ⟨⟨k, f⟩, hjoin⟩ := Option.ne_none_iff_exists'.mp hok
    have hc : v.values p = some (some ⟨k, f⟩) := Option.join_eq_some_iff.mp hjoin
    obtain ⟨a, ha, hcell⟩ := h.exists_owner hc
    have hput := h.put (p := p) (c := some (some ⟨k, (call k f args).2⟩))
      (h.exclusive.modify ha ⟨k, (call k f args).2⟩) (fun _ _ => rfl)
      (h.exclusive.held_modify ha ⟨k, (call k f args).2⟩)
    have hobject : s.objects p = some (HandlerFn.holding (owner p) (some ⟨k, f⟩)) := by
      rw [h.objects_eq, hc, Option.map_some]
    refine ⟨{ s with
      heap := update s.heap a (some ⟨k, (call k f args).2⟩)
      returned := s.returned ++ [(call k f args).1] }, ?_, owner, ?_⟩
    · simp [HandlerStore.step, hobject, HandlerFn.holding, ha, CallableHeap.cast, hcell]
    · -- The object is the same as before.
      have hsame : update s.objects p (some (HandlerFn.holding (owner p)
          (some ⟨k, (call k f args).2⟩))) = s.objects :=
        update_eq_self_iff.mpr hobject.symm
      simp only [HandlerValues.apply, hc]
      refine ⟨hput.exclusive, fun r => ?_, hput.held_eq, congrArg (· ++ _) h.returned_eq⟩
      have hr := hput.objects_eq r
      simp only [HandlerStore.objects_put, Option.map_some, hsame] at hr
      exact hr
  | destruct p =>
    obtain ⟨o, ho⟩ := h.exists_object hok
    obtain ⟨heap', hrelease, hexclusive, hheld⟩ := h.exists_release ho
    refine ⟨_, ?_, _, h.put (p := p) (c := none) hexclusive (fun r hrp => update_of_ne hrp _ _)
      hheld⟩
    simp only [HandlerStore.step, ho, hrelease]
    rfl

/-- A program that keeps the rules runs to its end without undefined behaviour, sees exactly the
values of its objects, and leaves nothing behind: a callable that has not been deleted is owned by
exactly one object, and when all objects are empty or gone all callables have been deleted. -/
theorem handlerFn_refines_values {ops : List (HandlerOp ι A F)}
    (hok : AllowedAlong (HandlerStore.step call) (HandlerValues.apply call) HandlerOp.Allowed
      (.start : HandlerStore ι R F) .start ops) :
    ∃ s, run (HandlerStore.step call) .start ops = some s ∧
      s.returned = (ops.foldl (HandlerValues.apply call) .start).returned ∧
      (∀ p, (s.objects p).map HandlerFn.isTruthy =
        ((ops.foldl (HandlerValues.apply call) .start).values p).map Option.isSome) ∧
      (∀ a, (s.heap a).isSome → ∃! p, (s.objects p).bind HandlerFn.data = some a) ∧
      ((∀ p, ((ops.foldl (HandlerValues.apply call) .start).values p).join = none) →
        ∀ a, s.heap a = none) := by
  obtain ⟨s, hrun, owner, h⟩ := step_refines.run ⟨_, Represents.start⟩ hok
  refine ⟨s, hrun, h.returned_eq, fun p => ?_, fun a halive => ?_, fun hnone => ?_⟩
  · rw [h.objects_eq, Option.map_map]
    congr 1
    funext c
    simp [HandlerFn.isTruthy, HandlerFn.holding]
  · have howner : ∀ p, (s.objects p).bind HandlerFn.data = owner p := by
      intro p
      rw [h.objects_eq]
      cases hp : (ops.foldl (HandlerValues.apply call) .start).values p with
      | none => exact (h.owner_eq_none (by rw [hp]; rfl)).symm
      | some c => rfl
    simp only [howner]
    exact h.exclusive.existsUnique_owner halive
  · exact h.exclusive.heap_eq_none fun p => h.owner_eq_none (hnone p)

end Refinement

/-! ### A concrete program -/

/-- Counters and functions without a state. -/
def SampleCallable : Bool → Type
  | true => ℕ
  | false => Unit

/-- A counter adds what it is called with. -/
def sampleCall : ∀ k, SampleCallable k → ℕ → ℕ × SampleCallable k
  | true => fun (n : ℕ) x => ((n + x : ℕ), (n + x : ℕ))
  | false => fun u x => (2 * x, u)

/-- A callable is replaced by a counter, which is moved once more, called twice and deleted. -/
def sampleOps : List (HandlerOp ℕ ℕ SampleCallable) :=
  [.construct 0 false () 10, .construct 1 true (3 : ℕ) 11, .moveAssign 0 1, .moveAssign 0 0,
    .moveConstruct 2 0, .call 2 4, .call 2 5, .destruct 0, .destruct 1, .destruct 2]

theorem handlerFn_refines_values_sample :
    ∃ s, run (HandlerStore.step sampleCall) .start sampleOps = some s ∧
      s.returned = (sampleOps.foldl (HandlerValues.apply sampleCall) .start).returned ∧
      (∀ p, (s.objects p).map HandlerFn.isTruthy =
        ((sampleOps.foldl (HandlerValues.apply sampleCall) .start).values p).map Option.isSome) ∧
      (∀ a, (s.heap a).isSome → ∃! p, (s.objects p).bind HandlerFn.data = some a) ∧
      ((∀ p, ((sampleOps.foldl (HandlerValues.apply sampleCall) .start).values p).join = none) →
        ∀ a, s.heap a = none) :=
  handlerFn_refines_values (by decide)

end Lundi
