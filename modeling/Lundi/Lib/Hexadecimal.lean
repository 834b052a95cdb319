import Mathlib.Data.List.Basic
import Mathlib.Tactic.IntervalCases

/-!
# Hexadecimal numerals as byte strings

`hex n` is the numeral of `n` in lower-case ASCII hexadecimal digits without leading zeros.
`hex_injective` says that different numbers have different numerals, and `mem_hex` which bytes
can stand in one.
-/

namespace Hexadecimal

/-- The byte of a digit. -/
def digit (d : ℕ) : UInt8 := d.digitChar.toNat.toUInt8

/-- The numeral of `n`, without leading zeros. -/
def hex (n : ℕ) : List UInt8 := (Nat.toDigits 16 n).map fun c => c.toNat.toUInt8

/-- The last digit stands behind the numeral of the quotient. -/
theorem hex_eq (n : ℕ) :
    hex n = if n < 16 then [digit n] else hex (n / 16) ++ [digit (n % 16)] := by
  rw [hex, Nat.toDigits_eq_if (by omega)]
  split
  · rfl
  · rw [List.map_append]
    rfl

theorem hex_ne_nil (n : ℕ) : hex n ≠ [] := by
  rw [hex_eq]
  split <;> simp

/-- Different digits have different bytes. -/
theorem digit_inj {d e : ℕ} (hd : d < 16) (he : e < 16) (h : digit d = digit e) : d = e := by
  have hall : ∀ i j : Fin 16, digit i = digit j → i = j := by decide
  exact congrArg Fin.val (hall ⟨d, hd⟩ ⟨e, he⟩ h)

/-- A byte of a numeral is the byte of a digit. -/
theorem mem_hex {n : ℕ} {b : UInt8} (h : b ∈ hex n) : ∃ d < 16, b = digit d := by
  induction n using Nat.strong_induction_on with
  | _ n ih =>
    rw [hex_eq] at h
    split at h
    next hn => exact ⟨n, hn, List.mem_singleton.mp h⟩
    next hn =>
      rcases List.mem_append.mp h with h | h
      · exact ih (n / 16) (by omega) h
      · exact ⟨n % 16, Nat.mod_lt _ (by omega), List.mem_singleton.mp h⟩

/-- The digits are letters and decimal digits. -/
theorem forall_mem_hex {p : UInt8 → Prop} (h : ∀ i : Fin 16, p (digit i)) (n : ℕ) :
    ∀ b ∈ hex n, p b := by
  intro b hb
  obtain ⟨d, hd, rfl⟩ := mem_hex hb
  exact h ⟨d, hd⟩

/-- Different numbers have different numerals. -/
theorem hex_injective : Function.Injective hex := by
  intro m
  induction m using Nat.strong_induction_on with
  | _ m ih =>
    intro n h
    rw [hex_eq m, hex_eq n] at h
    -- Two numerals agree in their last digits, and in what stands in front of them.
    split_ifs at h with hm hn hn
    · exact digit_inj hm hn (List.singleton_inj.mp h)
    · have hlen := congrArg List.length h
      have hpos := List.length_pos_iff.mpr (hex_ne_nil (n / 16))
      rw [List.length_append, List.length_singleton] at hlen
      simp only [List.length_singleton] at hlen
      omega
    · have hlen := congrArg List.length h
      have hpos := List.length_pos_iff.mpr (hex_ne_nil (m / 16))
      rw [List.length_append, List.length_singleton] at hlen
      simp only [List.length_singleton] at hlen
      omega
    · obtain ⟨hfront, hlast⟩ := List.append_inj' h rfl
      have hdiv : m / 16 = n / 16 := ih (m / 16) (by omega) hfront
      have hmod : m % 16 = n % 16 :=
        digit_inj (Nat.mod_lt _ (by omega)) (Nat.mod_lt _ (by omega)) (List.singleton_inj.mp hlast)
      omega

/-- A numeral has at most as many digits as the power of the base above its number. -/
theorem length_hex_le {k n : ℕ} (h : n < 16 ^ (k + 1)) : (hex n).length ≤ k + 1 := by
  induction k generalizing n with
  | zero => rw [hex_eq, if_pos (by simpa using h), List.length_singleton]
  | succ k ih =>
    rw [hex_eq]
    split
    · simp
    · rw [List.length_append, List.length_singleton]
      have hdiv := ih (n := n / 16) (by rw [pow_succ] at h; omega)
      omega

example : hex 26 = [49, 97] := by decide

end Hexadecimal
