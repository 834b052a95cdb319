import Lundi.Core.ParseHeaders

/-!
# Percent-encoding

The encoding that `url_decode` undoes, and what the decoder does to text that has not been
encoded.

* `Encodes.urlDecode_append`: an encoded string is decoded to itself, whatever follows it;
* `urlDecode_append_slash`: no escape goes across a slash;
* `undecoded_of_nonSlash_eq`: text that keeps its bytes other than slashes holds no plus and no
  escape.
-/

namespace Lundi

open Search

/-! ### The decoder -/

/-- Three bytes that the decoder takes together. -/
def StartsEscape (l : Bytes) : Prop :=
  ∃ h d rest, l = 37 :: h :: d :: rest ∧ 0 ≤ hexVal h ∧ 0 ≤ hexVal d

theorem urlDecode_escape {h d : UInt8} (hh : 0 ≤ hexVal h) (hd : 0 ≤ hexVal d) (rest : Bytes) :
    urlDecode (37 :: h :: d :: rest) =
      UInt8.ofNat (hexVal h * 16 + hexVal d).toNat :: urlDecode rest := by
  rw [urlDecode, if_pos ⟨rfl, hh, hd⟩]

/-- Elsewhere it takes a single byte. -/
theorem urlDecode_cons {c : UInt8} {rest : Bytes} (h : ¬ StartsEscape (c :: rest)) :
    urlDecode (c :: rest) = decodePlus c :: urlDecode rest := by
  match rest with
  | [] => rfl
  | [_] => rfl
  | a :: b :: t =>
    rw [urlDecode, if_neg]
    rintro ⟨rfl, ha, hb⟩
    exact h ⟨a, b, t, rfl, ha, hb⟩

/-- The decoder reads its input escape by escape and byte by byte. -/
theorem decode_induction {motive : Bytes → Prop} (nil : motive [])
    (escape : ∀ h d rest, 0 ≤ hexVal h → 0 ≤ hexVal d → motive rest →
      motive (37 :: h :: d :: rest))
    (byte : ∀ c rest, ¬ StartsEscape (c :: rest) → motive rest → motive (c :: rest))
    (l : Bytes) : motive l := by
  induction hlen : l.length using Nat.strong_induction_on generalizing l with
  | _ n ih =>
    cases l with
    | nil => exact nil
    | cons c rest =>
      rw [List.length_cons] at hlen
      by_cases h : StartsEscape (c :: rest)
      · obtain ⟨a, b, t, heq, ha, hb⟩ := h
        obtain ⟨rfl, rfl⟩ := List.cons.inj heq
        rw [List.length_cons, List.length_cons] at hlen
        exact escape a b t ha hb (ih _ (by omega) t rfl)
      · exact byte c rest h (ih _ (by omega) rest rfl)

theorem not_startsEscape_of_ne {c : UInt8} (h : c ≠ 37) (rest : Bytes) :
    ¬ StartsEscape (c :: rest) := by
  rintro ⟨a, b, t, heq, -⟩
  exact h (List.cons.inj heq).1

/-- A slash is not a digit. -/
theorem not_startsEscape_append_slash {c : UInt8} {rest : Bytes}
    (h : ¬ StartsEscape (c :: rest)) (l : Bytes) :
    ¬ StartsEscape (c :: rest ++ slash :: l) := by
  have hslash : ¬ 0 ≤ hexVal slash := by decide
  rintro ⟨a, b, t, heq, ha, hb⟩
  match rest with
  | [] =>
    obtain ⟨-, rfl, -⟩ : c = 37 ∧ slash = a ∧ l = b :: t := by simpa using heq
    exact hslash ha
  | [_] =>
    obtain ⟨-, -, rfl, -⟩ : c = 37 ∧ _ = a ∧ slash = b ∧ l = t := by simpa using heq
    exact hslash hb
  | x :: y :: rest =>
    obtain ⟨rfl, rfl, rfl, -⟩ : c = 37 ∧ x = a ∧ y = b ∧ rest ++ slash :: l = t := by
      simpa using heq
    exact h ⟨x, y, rest, rfl, ha, hb⟩

/-- No escape goes across a slash. -/
theorem urlDecode_append_slash (x l : Bytes) :
    urlDecode (x ++ slash :: l) = urlDecode x ++ slash :: urlDecode l := by
  induction x using decode_induction with
  | nil => exact urlDecode_cons (not_startsEscape_of_ne (by decide) l)
  | escape a b rest ha hb ih =>
    rw [urlDecode_escape ha hb, List.cons_append, List.cons_append, List.cons_append,
      urlDecode_escape ha hb, ih, List.cons_append]
  | byte c rest h ih =>
    have happend := not_startsEscape_append_slash h l
    rw [List.cons_append] at happend ⊢
    rw [urlDecode_cons happend, urlDecode_cons h, ih, List.cons_append]

/-! ### Text that is left alone -/

/-- Text without a plus and without an escape. -/
structure Undecoded (l : Bytes) : Prop where
  plus_notMem : 43 ∉ l
  not_escape : ∀ h d, 0 ≤ hexVal h → 0 ≤ hexVal d → ¬ [37, h, d] <:+: l

theorem undecoded_nil : Undecoded [] where
  plus_notMem := List.not_mem_nil
  not_escape _ _ _ _ h := absurd (List.eq_nil_of_infix_nil h) (by simp)

theorem undecoded_cons {c : UInt8} {rest : Bytes} :
    Undecoded (c :: rest) ↔ c ≠ 43 ∧ ¬ StartsEscape (c :: rest) ∧ Undecoded rest := by
  constructor
  · rintro ⟨hplus, hescape⟩
    refine ⟨fun h => hplus (h ▸ List.mem_cons_self), ?_, ?_, ?_⟩
    · rintro ⟨a, b, t, heq, ha, hb⟩
      exact hescape a b ha hb (heq ▸ (List.prefix_append [37, a, b] t).isInfix)
    · exact fun h => hplus (List.mem_cons_of_mem c h)
    · exact fun a b ha hb h => hescape a b ha hb (List.infix_cons h)
  · rintro ⟨hplus, hescape, hrest⟩
    constructor
    · intro h
      rcases List.mem_cons.mp h with rfl | h
      · exact hplus rfl
      · exact hrest.plus_notMem h
    · intro a b ha hb h
      rcases List.infix_cons_iff.mp h with ⟨t, ht⟩ | h
      · exact hescape ⟨a, b, t, ht.symm, ha, hb⟩
      · exact hrest.not_escape a b ha hb h

/-- The decoder copies such text. -/
theorem urlDecode_eq_self {l : Bytes} (h : Undecoded l) : urlDecode l = l := by
  induction l with
  | nil => rfl
  | cons c rest ih =>
    obtain ⟨hplus, hescape, hrest⟩ := undecoded_cons.mp h
    rw [urlDecode_cons hescape, ih hrest, decodePlus, if_neg hplus]

theorem undecoded_of_notMem {l : Bytes} (hpercent : 37 ∉ l) (hplus : 43 ∉ l) : Undecoded l where
  plus_notMem := hplus
  not_escape _ _ _ _ h := hpercent (h.subset List.mem_cons_self)

/-- The test for escapes in front of the decoder does not matter. -/
theorem decodePath_eq (raw : Bytes) : decodePath raw = urlDecode raw := by
  rw [decodePath]
  split
  next h =>
    rw [find_singleton_eq_none_iff, find_singleton_eq_none_iff] at h
    exact (urlDecode_eq_self (undecoded_of_notMem h.1 h.2)).symm
  next => rfl

/-- The bytes other than slashes. -/
def nonSlash (l : Bytes) : Bytes := l.filter (· ≠ slash)

theorem nonSlash_append (x l : Bytes) : nonSlash (x ++ l) = nonSlash x ++ nonSlash l :=
  List.filter_append x l

@[simp]
theorem nonSlash_slash (l : Bytes) : nonSlash (slash :: l) = nonSlash l :=
  List.filter_cons_of_neg (by simp)

theorem nonSlash_cons {b : UInt8} (h : b ≠ slash) (l : Bytes) :
    nonSlash (b :: l) = b :: nonSlash l :=
  List.filter_cons_of_pos (by simpa using h)

/-- Any other byte is one more. -/
theorem length_nonSlash_append_cons {b : UInt8} (h : b ≠ slash) (x l : Bytes) :
    (nonSlash (x ++ b :: l)).length = (nonSlash x).length + ((nonSlash l).length + 1) := by
  rw [nonSlash_append, nonSlash_cons h, List.length_append, List.length_cons]

theorem length_nonSlash_cons_le (b : UInt8) (l : Bytes) :
    (nonSlash (b :: l)).length ≤ (nonSlash l).length + 1 := by
  by_cases h : b = slash
  · subst h
    rw [nonSlash_slash]
    exact Nat.le_succ _
  · rw [nonSlash_cons h, List.length_cons]

/-- Digits are not slashes. -/
theorem ne_slash_of_hexVal {b : UInt8} (h : 0 ≤ hexVal b) : b ≠ slash := by
  rintro rfl
  exact absurd h (by decide)

theorem nonSlash_escape {h d : UInt8} (hh : 0 ≤ hexVal h) (hd : 0 ≤ hexVal d) (rest : Bytes) :
    nonSlash (37 :: h :: d :: rest) = 37 :: h :: d :: nonSlash rest := by
  rw [nonSlash_cons (by decide), nonSlash_cons (ne_slash_of_hexVal hh),
    nonSlash_cons (ne_slash_of_hexVal hd)]

/-- Decoding adds no bytes other than slashes. -/
theorem length_nonSlash_urlDecode_le (l : Bytes) :
    (nonSlash (urlDecode l)).length ≤ (nonSlash l).length := by
  induction l using decode_induction with
  | nil => exact le_rfl
  | escape a b rest ha hb ih =>
    have hshort := length_nonSlash_cons_le (UInt8.ofNat (hexVal a * 16 + hexVal b).toNat)
      (urlDecode rest)
    rw [urlDecode_escape ha hb, nonSlash_escape ha hb]
    simp only [List.length_cons]
    omega
  | byte c rest h ih =>
    rw [urlDecode_cons h]
    by_cases hc : c = slash
    · subst hc
      have hplus : decodePlus slash = slash := rfl
      rwa [hplus, nonSlash_slash, nonSlash_slash]
    · have hshort := length_nonSlash_cons_le (decodePlus c) (urlDecode rest)
      rw [nonSlash_cons hc, List.length_cons]
      omega

/-- Text that keeps its bytes other than slashes has been left alone. -/
theorem undecoded_of_nonSlash_eq {l : Bytes} (h : nonSlash (urlDecode l) = nonSlash l) :
    Undecoded l := by
  induction l using decode_induction with
  | nil => exact undecoded_nil
  | escape a b rest ha hb ih =>
    -- Three bytes have become at most one.
    have hle := length_nonSlash_urlDecode_le rest
    have hshort := length_nonSlash_cons_le (UInt8.ofNat (hexVal a * 16 + hexVal b).toNat)
      (urlDecode rest)
    have hlen := congrArg List.length h
    rw [urlDecode_escape ha hb, nonSlash_escape ha hb] at hlen
    simp only [List.length_cons] at hlen
    omega
  | byte c rest hescape ih =>
    rw [urlDecode_cons hescape] at h
    rw [undecoded_cons]
    by_cases hc : c = slash
    · subst hc
      have hplus : decodePlus slash = slash := rfl
      rw [hplus, nonSlash_slash, nonSlash_slash] at h
      exact ⟨by decide, hescape, ih h⟩
    · by_cases hplus : c = 43
      · -- A plus has become a space.
        subst hplus
        have hspace : decodePlus 43 = sp := rfl
        rw [hspace, nonSlash_cons (by decide), nonSlash_cons hc] at h
        exact absurd (List.cons.inj h).1 (by decide)
      · rw [decodePlus, if_neg hplus, nonSlash_cons hc, nonSlash_cons hc] at h
        exact ⟨hplus, hescape, ih (List.cons.inj h).2⟩

/-! ### The encoder -/

/-- The unreserved characters of a URI. -/
def isUnreserved (b : UInt8) : Bool :=
  65 ≤ b && b ≤ 90 || 97 ≤ b && b ≤ 122 || 48 ≤ b && b ≤ 57 ||
    b == 45 || b == 46 || b == 95 || b == 126

/-- An encoding whose writer is free for every byte: it is written as an escape, in digits of either
case, or as itself when it may stand literally, and a space also as a plus. -/
inductive Encodes (literal : UInt8 → Bool) : Bytes → Bytes → Prop
  | nil : Encodes literal [] []
  | literal {b : UInt8} {s e : Bytes} (hb : literal b = true) (tail : Encodes literal s e) :
    Encodes literal (b :: s) (b :: e)
  | plus {s e : Bytes} (tail : Encodes literal s e) : Encodes literal (sp :: s) (43 :: e)
  | escape {b h d : UInt8} {s e : Bytes} (hh : 0 ≤ hexVal h) (hd : 0 ≤ hexVal d)
    (hvalue : hexVal h * 16 + hexVal d = b.toNat) (tail : Encodes literal s e) :
    Encodes literal (b :: s) (37 :: h :: d :: e)

/-- An encoded string is decoded to itself, whatever follows it. -/
theorem Encodes.urlDecode_append {literal : UInt8 → Bool} (hpercent : literal 37 = false)
    (hplus : literal 43 = false) {s e : Bytes} (h : Encodes literal s e) (rest : Bytes) :
    urlDecode (e ++ rest) = s ++ urlDecode rest := by
  induction h with
  | nil => rfl
  | @literal b s e hb _ ih =>
    have hne : b ≠ 37 := fun h37 => by simp [h37, hpercent] at hb
    have hne' : b ≠ 43 := fun h43 => by simp [h43, hplus] at hb
    rw [List.cons_append, urlDecode_cons (not_startsEscape_of_ne hne _), ih, decodePlus,
      if_neg hne', List.cons_append]
  | @plus s e _ ih =>
    rw [List.cons_append, urlDecode_cons (not_startsEscape_of_ne (by decide) _), ih, decodePlus,
      if_pos rfl, List.cons_append]
  | @escape b h d s e hh hd hvalue _ ih =>
    rw [List.cons_append, List.cons_append, List.cons_append, urlDecode_escape hh hd, ih, hvalue,
      Int.toNat_natCast, UInt8.ofNat_toNat, List.cons_append]

/-- The bytes of an encoding are literals, pluses, percent signs and digits. -/
theorem Encodes.notMem {literal : UInt8 → Bool} {s e : Bytes} (h : Encodes literal s e) {c : UInt8}
    (hliteral : literal c = false) (hplus : c ≠ 43) (hpercent : c ≠ 37) (hhex : hexVal c < 0) :
    c ∉ e := by
  have hdigit : ∀ d, 0 ≤ hexVal d → c ≠ d := by
    rintro d hd rfl
    omega
  induction h with
  | nil => exact List.not_mem_nil
  | literal hb _ ih =>
    rw [List.mem_cons, not_or]
    refine ⟨?_, ih⟩
    rintro rfl
    simp [hliteral] at hb
  | plus _ ih =>
    rw [List.mem_cons, not_or]
    exact ⟨hplus, ih⟩
  | escape hh hd _ _ ih =>
    simp only [List.mem_cons, not_or]
    exact ⟨hpercent, hdigit _ hh, hdigit _ hd, ih⟩

/-- All bytes but the unreserved characters are written as escapes, in digits of either case. -/
inductive PercentEncoded : Bytes → Bytes → Prop
  | nil : PercentEncoded [] []
  | unreserved {b : UInt8} {s e : Bytes} (hb : isUnreserved b = true) (tail : PercentEncoded s e) :
    PercentEncoded (b :: s) (b :: e)
  | escape {b h d : UInt8} {s e : Bytes} (hb : isUnreserved b = false) (hh : 0 ≤ hexVal h)
    (hd : 0 ≤ hexVal d) (hvalue : hexVal h * 16 + hexVal d = b.toNat)
    (tail : PercentEncoded s e) : PercentEncoded (b :: s) (37 :: h :: d :: e)

/-- Writing only what is necessary as escapes is one of the choices. -/
theorem PercentEncoded.encodes {s e : Bytes} (h : PercentEncoded s e) :
    Encodes isUnreserved s e := by
  induction h with
  | nil => exact .nil
  | unreserved hb _ ih => exact .literal hb ih
  | escape _ hh hd hvalue _ ih => exact .escape hh hd hvalue ih

theorem urlDecode_append_of_encoded {s e : Bytes} (h : PercentEncoded s e) (rest : Bytes) :
    urlDecode (e ++ rest) = s ++ urlDecode rest :=
  h.encodes.urlDecode_append (by decide) (by decide) rest

/-- No query starts in an encoded string. -/
theorem PercentEncoded.question_notMem {s e : Bytes} (h : PercentEncoded s e) : 63 ∉ e :=
  h.encodes.notMem (by decide) (by decide) (by decide) (by decide)

/-- An upper-case hexadecimal digit. -/
def hexDigit (n : ℕ) : UInt8 := UInt8.ofNat (if n < 10 then 48 + n else 55 + n)

/-- Percent-encoding with upper-case digits. -/
def percentEncode (s : Bytes) : Bytes :=
  s.flatMap fun b =>
    if isUnreserved b then [b] else [37, hexDigit (b.toNat / 16), hexDigit (b.toNat % 16)]

theorem hexVal_hexDigit {n : ℕ} (h : n < 16) : hexVal (hexDigit n) = n := by
  revert n
  decide

theorem percentEncoded_percentEncode (s : Bytes) : PercentEncoded s (percentEncode s) := by
  induction s with
  | nil => exact .nil
  | cons b s ih =>
    rw [percentEncode, List.flatMap_cons]
    cases hb : isUnreserved b with
    | true => exact .unreserved hb ih
    | false =>
      have hlt := b.toNat_lt
      have hh := hexVal_hexDigit (show b.toNat / 16 < 16 by omega)
      have hd := hexVal_hexDigit (show b.toNat % 16 < 16 by omega)
      refine .escape hb (by omega) (by omega) ?_ ih
      rw [hh, hd]
      omega

end Lundi
