import Mathlib.Data.Option.Basic
import Mathlib.Logic.Function.Basic

/-!
# Exclusive ownership

Owners hold the addresses of cells of a heap, each of them at most one. They own the heap
exclusively if every address that is held is the one of a live cell, no two owners hold the same
address, and no live cell is without an owner. Seen from outside an owner then holds a value of its
own, which is `held`.

* `Exclusive.acquire`, `Exclusive.release`, `Exclusive.transfer`, `Exclusive.modify`: what keeps it
  so;
* `held_acquire`, `held_release`, `held_transfer`, `held_modify`: no other owner sees anything of
  it;
* `Exclusive.heap_eq_none`: without owners nothing is left in the heap.
-/

namespace Ownership

open Function

variable {ι α β : Type*} {owner : ι → Option α} {heap : α → Option β}

/-- The owners hold the addresses of all live cells, each address held once. -/
structure Exclusive (owner : ι → Option α) (heap : α → Option β) : Prop where
  alive : ∀ p a, owner p = some a → (heap a).isSome
  unique : ∀ p q a, owner p = some a → owner q = some a → p = q
  owned : ∀ a, (heap a).isSome → ∃ p, owner p = some a

/-- The value that an owner holds. -/
def held (owner : ι → Option α) (heap : α → Option β) (p : ι) : Option β := (owner p).bind heap

theorem exclusive_empty :
    Exclusive (fun _ : ι => (none : Option α)) fun _ => (none : Option β) where
  alive := by simp
  unique := by simp
  owned := by simp

theorem held_eq {p : ι} {a : α} (hp : owner p = some a) : held owner heap p = heap a := by
  rw [held, hp, Option.bind_some]

namespace Exclusive

variable (h : Exclusive owner heap)
include h

/-- Who holds an address holds a value. -/
theorem held_eq_none_iff {p : ι} : held owner heap p = none ↔ owner p = none := by
  cases hp : owner p with
  | none => simp [held, hp]
  | some a =>
    rw [held_eq hp]
    have halive := h.alive p a hp
    cases ha : heap a with
    | none => exact absurd halive (by simp [ha])
    | some v => simp

theorem heap_eq_none (hnone : ∀ p, owner p = none) (a : α) : heap a = none := by
  rw [← Option.not_isSome_iff_eq_none]
  intro halive
  obtain ⟨p, hp⟩ := h.owned a halive
  exact absurd ((hnone p).symm.trans hp) (by simp)

/-- A live cell has exactly one owner. -/
theorem existsUnique_owner {a : α} (halive : (heap a).isSome) : ∃! p, owner p = some a := by
  obtain ⟨p, hp⟩ := h.owned a halive
  exact ⟨p, hp, fun q hq => h.unique q p a hq hp⟩

variable [DecidableEq ι] [DecidableEq α] {p q : ι} {a : α}

omit [DecidableEq ι] [DecidableEq α] in
/-- An address that is held is not that of a dead cell. -/
theorem ne_of_heap_eq_none (ha : heap a = none) {r : ι} {b : α} (hr : owner r = some b) :
    b ≠ a := by
  rintro rfl
  exact absurd (h.alive r b hr) (by simp [ha])

/-- An owner without a cell is given a new one. -/
theorem acquire (hp : owner p = none) (ha : heap a = none) (v : β) :
    Exclusive (update owner p (some a)) (update heap a (some v)) where
  alive := by
    intro r b hr
    by_cases hrp : r = p
    · rw [hrp, update_self] at hr
      rw [← Option.some_inj.mp hr, update_self]
      rfl
    · rw [update_of_ne hrp] at hr
      rw [update_of_ne (h.ne_of_heap_eq_none ha hr)]
      exact h.alive r b hr
  unique := by
    intro r t b hr ht
    -- Only `p` holds the new address.
    have hnew : ∀ s, owner s ≠ some a := fun s hs => h.ne_of_heap_eq_none ha hs rfl
    by_cases hrp : r = p <;> by_cases htp : t = p
    · rw [hrp, htp]
    · rw [hrp, update_self] at hr
      rw [update_of_ne htp, ← hr] at ht
      exact absurd ht (hnew t)
    · rw [htp, update_self] at ht
      rw [update_of_ne hrp, ← ht] at hr
      exact absurd hr (hnew r)
    · rw [update_of_ne hrp] at hr
      rw [update_of_ne htp] at ht
      exact h.unique r t b hr ht
  owned := by
    intro b hb
    by_cases hba : b = a
    · exact ⟨p, by rw [update_self, hba]⟩
    · rw [update_of_ne hba] at hb
      obtain ⟨r, hr⟩ := h.owned b hb
      have hrp : r ≠ p := by
        rintro rfl
        exact absurd (hp.symm.trans hr) (by simp)
      exact ⟨r, by rw [update_of_ne hrp, hr]⟩

theorem held_acquire (ha : heap a = none) (v : β) :
    held (update owner p (some a)) (update heap a (some v)) =
      update (held owner heap) p (some v) := by
  funext r
  by_cases hrp : r = p
  · rw [hrp, update_self, held, update_self, Option.bind_some, update_self]
  · rw [update_of_ne hrp, held, held, update_of_ne hrp]
    cases hr : owner r with
    | none => rfl
    | some b =>
      rw [Option.bind_some, Option.bind_some, update_of_ne (h.ne_of_heap_eq_none ha hr)]

/-- An owner gives its cell up, which dies. -/
theorem release (hp : owner p = some a) : Exclusive (update owner p none) (update heap a none) where
  alive := by
    intro r b hr
    by_cases hrp : r = p
    · exact absurd hr (by rw [hrp, update_self]; simp)
    · rw [update_of_ne hrp] at hr
      have hba : b ≠ a := by
        rintro rfl
        exact hrp (h.unique r p b hr hp)
      rw [update_of_ne hba]
      exact h.alive r b hr
  unique := by
    intro r t b hr ht
    by_cases hrp : r = p
    · exact absurd hr (by rw [hrp, update_self]; simp)
    by_cases htp : t = p
    · exact absurd ht (by rw [htp, update_self]; simp)
    rw [update_of_ne hrp] at hr
    rw [update_of_ne htp] at ht
    exact h.unique r t b hr ht
  owned := by
    intro b hb
    by_cases hba : b = a
    · exact absurd hb (by rw [hba, update_self]; simp)
    rw [update_of_ne hba] at hb
    obtain ⟨r, hr⟩ := h.owned b hb
    have hrp : r ≠ p := by
      rintro rfl
      exact hba (Option.some_inj.mp (hr.symm.trans hp))
    exact ⟨r, by rw [update_of_ne hrp, hr]⟩

theorem held_release (hp : owner p = some a) :
    held (update owner p none) (update heap a none) = update (held owner heap) p none := by
  funext r
  by_cases hrp : r = p
  · rw [hrp, update_self, held, update_self, Option.bind_none]
  · rw [update_of_ne hrp, held, held, update_of_ne hrp]
    cases hr : owner r with
    | none => rfl
    | some b =>
      have hba : b ≠ a := by
        rintro rfl
        exact hrp (h.unique r p b hr hp)
      rw [Option.bind_some, Option.bind_some, update_of_ne hba]

omit [DecidableEq ι] in
/-- The value in a cell is replaced. -/
theorem modify (hp : owner p = some a) (v : β) : Exclusive owner (update heap a (some v)) where
  alive := by
    intro r b hr
    by_cases hba : b = a
    · rw [hba, update_self]
      rfl
    · rw [update_of_ne hba]
      exact h.alive r b hr
  unique := h.unique
  owned := by
    intro b hb
    by_cases hba : b = a
    · exact ⟨p, by rw [hba, hp]⟩
    · rw [update_of_ne hba] at hb
      exact h.owned b hb

theorem held_modify (hp : owner p = some a) (v : β) :
    held owner (update heap a (some v)) = update (held owner heap) p (some v) := by
  funext r
  by_cases hrp : r = p
  · rw [hrp, update_self, held_eq hp, update_self]
  · rw [update_of_ne hrp, held, held]
    cases hr : owner r with
    | none => rfl
    | some b =>
      have hba : b ≠ a := by
        rintro rfl
        exact hrp (h.unique r p b hr hp)
      rw [Option.bind_some, Option.bind_some, update_of_ne hba]

omit [DecidableEq α] in
/-- An owner without a cell takes over what another one holds. -/
theorem transfer (hp : owner p = none) :
    Exclusive (update (update owner q none) p (owner q)) heap where
  alive := by
    intro r b hr
    by_cases hrp : r = p
    · rw [hrp, update_self] at hr
      exact h.alive q b hr
    rw [update_of_ne hrp] at hr
    by_cases hrq : r = q
    · exact absurd hr (by rw [hrq, update_self]; simp)
    · rw [update_of_ne hrq] at hr
      exact h.alive r b hr
  unique := by
    -- An owner that holds an address now is `p` with the one of `q`, or it holds it still.
    have hcases : ∀ r b, update (update owner q none) p (owner q) r = some b →
        (r = p ∧ owner q = some b) ∨ (r ≠ p ∧ r ≠ q ∧ owner r = some b) := by
      intro r b hr
      by_cases hrp : r = p
      · rw [hrp, update_self] at hr
        exact Or.inl ⟨hrp, hr⟩
      rw [update_of_ne hrp] at hr
      by_cases hrq : r = q
      · exact absurd hr (by rw [hrq, update_self]; simp)
      · rw [update_of_ne hrq] at hr
        exact Or.inr ⟨hrp, hrq, hr⟩
    intro r t b hr ht
    rcases hcases r b hr with ⟨hrp, hqb⟩ | ⟨-, hrq, hrb⟩ <;>
      rcases hcases t b ht with ⟨htp, hqb'⟩ | ⟨-, htq, htb⟩
    · rw [hrp, htp]
    · exact absurd (h.unique t q b htb hqb) htq
    · exact absurd (h.unique r q b hrb hqb') hrq
    · exact h.unique r t b hrb htb
  owned := by
    intro b hb
    obtain ⟨r, hr⟩ := h.owned b hb
    by_cases hrq : r = q
    · exact ⟨p, by rw [update_self, ← hrq, hr]⟩
    · have hrp : r ≠ p := by
        rintro rfl
        exact absurd (hp.symm.trans hr) (by simp)
      exact ⟨r, by rw [update_of_ne hrp, update_of_ne hrq, hr]⟩

end Exclusive

theorem held_transfer [DecidableEq ι] (p q : ι) :
    held (update (update owner q none) p (owner q)) heap =
      update (update (held owner heap) q none) p (held owner heap q) := by
  funext r
  by_cases hrp : r = p
  · rw [hrp, update_self, held, update_self, held]
  rw [update_of_ne hrp, held, update_of_ne hrp]
  by_cases hrq : r = q
  · rw [hrq, update_self, update_self, Option.bind_none]
  · rw [update_of_ne hrq, update_of_ne hrq, held]

end Ownership
