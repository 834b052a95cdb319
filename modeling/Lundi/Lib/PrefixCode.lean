import Mathlib.Data.List.Basic

/-!
# Prefix codes

A prefix code writes each symbol as a word, so that no word is empty and no word is the beginning
of another one. A text made of words then has only one reading.

* `flatMap_injective`: unique decoding;
* `IsPrefixCode.of_header`: words with a header that says how long the rest is.
-/

namespace PrefixCode

variable {α β : Type*}

/-- A code in which no word is empty or the beginning of another one. -/
structure IsPrefixCode (code : α → List β) : Prop where
  ne_nil : ∀ a, code a ≠ []
  eq_of_append_eq : ∀ {a b : α} {s t : List β}, code a ++ s = code b ++ t → a = b

variable {code : α → List β}

/-- A text has at most one reading. -/
theorem IsPrefixCode.flatMap_injective (h : IsPrefixCode code) :
    Function.Injective (List.flatMap code) := by
  intro as
  induction as with
  | nil =>
    rintro (_ | ⟨b, bs⟩) heq
    · rfl
    · rw [List.flatMap_nil, List.flatMap_cons] at heq
      exact absurd (List.append_eq_nil_iff.mp heq.symm).1 (h.ne_nil b)
  | cons a as ih =>
    rintro (_ | ⟨b, bs⟩) heq
    · rw [List.flatMap_nil, List.flatMap_cons] at heq
      exact absurd (List.append_eq_nil_iff.mp heq).1 (h.ne_nil a)
    · rw [List.flatMap_cons, List.flatMap_cons] at heq
      obtain rfl := h.eq_of_append_eq heq
      rw [ih (List.append_cancel_left heq)]

/-- Words that consist of a header and a rest: the headers can be told apart in front of any text,
the header determines the length of the rest, and the two together determine the symbol. -/
theorem IsPrefixCode.of_header (header rest : α → List β)
    (hcode : ∀ a, code a = header a ++ rest a) (hne : ∀ a, header a ≠ [])
    (hheader : ∀ {a b : α} {s t : List β}, header a ++ s = header b ++ t → header a = header b)
    (hlength : ∀ {a b : α}, header a = header b → (rest a).length = (rest b).length)
    (hinj : ∀ {a b : α}, header a = header b → rest a = rest b → a = b) :
    IsPrefixCode code where
  ne_nil a := by
    rw [hcode]
    exact List.append_ne_nil_of_left_ne_nil (hne a) _
  eq_of_append_eq := by
    intro a b s t heq
    rw [hcode, hcode, List.append_assoc, List.append_assoc] at heq
    have hsame := hheader heq
    rw [hsame] at heq
    obtain ⟨hrest, -⟩ := List.append_inj (List.append_cancel_left heq) (hlength hsame)
    exact hinj hsame hrest

/-- Texts without a delimiter can be told apart in front of it. -/
theorem eq_of_append_cons_eq {d : β} {a b s t : List β} (ha : d ∉ a) (hb : d ∉ b)
    (h : a ++ d :: s = b ++ d :: t) : a = b := by
  induction a generalizing b with
  | nil =>
    rcases b with _ | ⟨y, b⟩
    · rfl
    · obtain ⟨rfl, -⟩ := List.cons.inj h
      exact absurd List.mem_cons_self hb
  | cons x a ih =>
    rcases b with _ | ⟨y, b⟩
    · obtain ⟨rfl, -⟩ := List.cons.inj h
      exact absurd List.mem_cons_self ha
    · obtain ⟨rfl, hrest⟩ := List.cons.inj h
      rw [ih (List.not_mem_of_not_mem_cons ha) (List.not_mem_of_not_mem_cons hb) hrest]

end PrefixCode
