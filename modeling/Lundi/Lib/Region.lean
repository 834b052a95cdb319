import Mathlib.Data.List.Basic

/-!
# Checked access to a region of memory

A region is the list of its cells, and a place is the number of cells in front of it. Loads, stores
and moves give nothing when they touch a cell outside the region, so that a program that gives
something has stayed inside.

* `load_eq_some`, `exists_store`, `exists_move`: what is inside succeeds, and keeps the size;
* `take_of_store`: what the cells hold afterwards.
-/

namespace Region

variable {α : Type*}

/-- The `len` cells at a place. -/
def load (mem : List α) (pos len : ℕ) : Option (List α) :=
  if pos + len ≤ mem.length then some ((mem.drop pos).take len) else none

/-- The region after cells have been written at a place. -/
def store (mem : List α) (pos : ℕ) (xs : List α) : Option (List α) :=
  if pos + xs.length ≤ mem.length then
    some (mem.take pos ++ xs ++ mem.drop (pos + xs.length))
  else none

/-- The region after `len` cells have been moved, also to a place that overlaps the old one. -/
def move (mem : List α) (src dst len : ℕ) : Option (List α) :=
  (load mem src len).bind (store mem dst)

variable {mem mem' : List α} {pos src dst len n : ℕ} {xs : List α}

theorem load_eq_some (h : pos + len ≤ mem.length) :
    load mem pos len = some ((mem.drop pos).take len) := if_pos h

theorem load_eq_none (h : mem.length < pos + len) : load mem pos len = none :=
  if_neg (Nat.not_le.mpr h)

theorem store_eq_some (h : pos + xs.length ≤ mem.length) :
    store mem pos xs = some (mem.take pos ++ xs ++ mem.drop (pos + xs.length)) := if_pos h

/-- What a store has done. -/
theorem eq_of_store (h : store mem pos xs = some mem') :
    pos + xs.length ≤ mem.length ∧
      mem' = mem.take pos ++ xs ++ mem.drop (pos + xs.length) := by
  rw [store, Option.ite_none_right_eq_some] at h
  exact ⟨h.1, (Option.some_inj.mp h.2).symm⟩

theorem length_of_store (h : store mem pos xs = some mem') : mem'.length = mem.length := by
  obtain ⟨hle, rfl⟩ := eq_of_store h
  simp only [List.length_append, List.length_take, List.length_drop]
  omega

/-- In front of the stored cells nothing changes. -/
theorem take_of_store (h : store mem pos xs = some mem') (hn : n ≤ xs.length) :
    mem'.take (pos + n) = mem.take pos ++ xs.take n := by
  obtain ⟨hle, rfl⟩ := eq_of_store h
  have hfront : (mem.take pos).length = pos := List.length_take_of_le (by omega)
  rw [List.append_assoc, List.take_append, List.take_append, hfront, Nat.add_sub_cancel_left,
    List.take_of_length_le (by omega), Nat.sub_eq_zero_of_le hn, List.take_zero, List.append_nil]

/-- A store inside succeeds, and keeps the size. -/
theorem exists_store (h : pos + xs.length ≤ mem.length) :
    ∃ mem', store mem pos xs = some mem' ∧ mem'.length = mem.length :=
  ⟨_, store_eq_some h, length_of_store (store_eq_some h)⟩

/-- A move inside puts the cells to their new place as they were before. -/
theorem exists_move (hsrc : src + len ≤ mem.length) (hdst : dst + len ≤ mem.length) :
    ∃ mem', move mem src dst len = some mem' ∧ mem'.length = mem.length ∧
      mem'.take (dst + len) = mem.take dst ++ (mem.drop src).take len := by
  have hlen : ((mem.drop src).take len).length = len :=
    List.length_take_of_le (by rw [List.length_drop]; omega)
  obtain ⟨mem', hstore, hsize⟩ := exists_store (show dst + _ ≤ mem.length from hlen.symm ▸ hdst)
  refine ⟨mem', ?_, hsize, ?_⟩
  · rw [move, load_eq_some hsrc, Option.bind_some, hstore]
  · rw [take_of_store hstore (Nat.le_of_eq hlen.symm),
      List.take_of_length_le (Nat.le_of_eq hlen)]

end Region
