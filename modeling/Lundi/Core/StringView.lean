import Lundi.Core.Bytes

/-!
# String views

A `std::string_view` is a storage, an offset into it and a length. The model keeps next to them
the bytes the view was made from, so that functions on views can be written as functions on
bytes; whether the storage still holds these bytes at a later time is the question `Denotes`
answers for a given memory.
-/

namespace Lundi

/-- The memory a view points into. -/
inductive Storage
  /-- A default-constructed view points nowhere. -/
  | null
  /-- The vector of the connection's read buffer, as it stood before its next reallocation. -/
  | readBuffer (generation : ℕ)
  /-- A temporary `std::string`, freed at the end of the full expression that creates it. -/
  | temporary
  deriving DecidableEq

/-- A `std::string_view`. -/
structure StringView where
  /-- The memory the view points into. -/
  storage : Storage
  /-- The position of its first byte there. -/
  offset : ℕ
  /-- The bytes it was made from. -/
  bytes : Bytes

/-- The storages that are alive, with their bytes. -/
abbrev Memory := Storage → Option Bytes

namespace StringView

/-- `std::string_view{}`. -/
def empty : StringView := ⟨.null, 0, []⟩

/-- `size`. -/
def size (v : StringView) : ℕ := v.bytes.length

/-- `substr( pos, n )`. -/
def substr (v : StringView) (pos n : ℕ) : StringView :=
  ⟨v.storage, v.offset + pos, (v.bytes.drop pos).take n⟩

/-- `substr( pos )`. -/
def substrFrom (v : StringView) (pos : ℕ) : StringView :=
  ⟨v.storage, v.offset + pos, v.bytes.drop pos⟩

@[simp]
theorem bytes_substr (v : StringView) (pos n : ℕ) :
    (v.substr pos n).bytes = (v.bytes.drop pos).take n := rfl

@[simp]
theorem bytes_substrFrom (v : StringView) (pos : ℕ) :
    (v.substrFrom pos).bytes = v.bytes.drop pos := rfl

@[simp]
theorem bytes_empty : empty.bytes = [] := rfl

/-- The view is empty and points nowhere, or its storage is alive and still holds its bytes. -/
def Denotes (mem : Memory) (v : StringView) : Prop :=
  (v.storage = .null ∧ v.bytes = []) ∨
    ∃ data, mem v.storage = some data ∧ v.offset + v.bytes.length ≤ data.length ∧
      (data.drop v.offset).take v.bytes.length = v.bytes

theorem denotes_empty (mem : Memory) : empty.Denotes mem := Or.inl ⟨rfl, rfl⟩

/-- A view into storage that has been freed denotes nothing. -/
theorem not_denotes_of_freed {mem : Memory} {v : StringView} (hnull : v.storage ≠ .null)
    (hfreed : mem v.storage = none) : ¬ v.Denotes mem := by
  rintro (⟨h, -⟩ | ⟨data, h, -⟩)
  · exact hnull h
  · rw [hfreed] at h
    exact absurd h (by simp)

/-- A part of a view that lies inside it is as good as the view. -/
theorem Denotes.substr {mem : Memory} {v : StringView} (h : v.Denotes mem) {pos : ℕ}
    (hpos : pos ≤ v.bytes.length) (n : ℕ) : (v.substr pos n).Denotes mem := by
  rcases h with ⟨hnull, hbytes⟩ | ⟨data, hdata, hlen, heq⟩
  · exact Or.inl ⟨hnull, by simp [hbytes]⟩
  · refine Or.inr ⟨data, hdata, ?_, ?_⟩
    · simp only [StringView.substr, List.length_take, List.length_drop]
      omega
    · have hsub : (v.bytes.drop pos).take n =
          ((data.drop (v.offset + pos)).take (v.bytes.length - pos)).take n := by
        conv_lhs => rw [← heq]
        rw [List.drop_take, List.drop_drop]
      simp only [StringView.substr, List.length_take, List.length_drop]
      rw [hsub, List.take_take]

/-- `substr( pos )` is `substr( pos, n )` for every `n` that reaches the end. -/
theorem substrFrom_eq_substr (v : StringView) (pos : ℕ) :
    v.substrFrom pos = v.substr pos (v.bytes.length - pos) := by
  simp [substrFrom, substr, List.take_of_length_le]

end StringView

end Lundi
