import Mathlib.Algebra.Group.Nat.Defs
import Mathlib.Data.List.Basic

/-!
# Byte strings

`std::string` and the contents of a `std::string_view` are byte strings. Literals are written
with `ascii`, and `toLower` is `std::tolower` in the C locale, the comparison behind every
case-insensitive lookup. Lengths and positions are of type `size_t`; where a sum of them may wrap
around, `wrap` is its value.
-/

namespace Lundi

/-- A byte string: the value of a `std::string`. -/
abbrev Bytes := List UInt8

/-- The bytes of an ASCII literal. -/
def ascii (s : String) : Bytes := s.toList.map fun c => c.toNat.toUInt8

/-- Carriage return. -/
abbrev cr : UInt8 := 13
/-- Line feed. -/
abbrev lf : UInt8 := 10
/-- Space. -/
abbrev sp : UInt8 := 32
/-- Horizontal tab. -/
abbrev tab : UInt8 := 9
/-- Colon. -/
abbrev colon : UInt8 := 58
/-- Slash. -/
abbrev slash : UInt8 := 47

/-- The line terminator `"\r\n"`. -/
abbrev crlf : Bytes := [cr, lf]

/-- The value of a sum of `size_t`. -/
def wrap (n : ℕ) : ℕ := n % 2 ^ 64

theorem wrap_of_lt {n : ℕ} (h : n < 2 ^ 64) : wrap n = n := Nat.mod_eq_of_lt h

/-- `std::tolower` in the C locale. -/
def toLower (b : UInt8) : UInt8 := if 65 ≤ b ∧ b ≤ 90 then b + 32 else b

/-- Byte-wise comparison of two strings ignoring ASCII case, as `request::header_equals` and
`request::find_header_ci` spell it out: equal sizes, then equal lower-case bytes. -/
def equalsIgnoreCase (a b : Bytes) : Bool := a.map toLower == b.map toLower

/-- The blanks that `find_first_not_of( " \t" )` skips. -/
def isBlank (b : UInt8) : Bool := b == sp || b == tab

end Lundi
