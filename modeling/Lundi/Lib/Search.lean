import Mathlib.Data.List.Basic
import Mathlib.Data.List.Infix
import Mathlib.Data.Nat.Find

/-!
# First occurrence of a pattern

`find p l` is the position at which the list `p` first occurs in the list `l`, the meaning of
`std::string_view::find` and of `memmem`. The module gives

* `find_eq_some_iff` and `find_eq_none_iff`: the specification of the search;
* `findFrom_eq_some_iff` and `findFrom_eq_none_iff`: the same for a search from a position on;
* `find_append_of_eq_some`: text appended behind an occurrence does not move it;
* `find_append_of_forall_not_prefix`: a stretch in which no occurrence starts can be skipped;
* `not_prefix_drop_append_of_find_eq_none`: after a failed search only the last
  `p.length - 1` positions have to be looked at again when text is appended;
* `find_pair_append` and `find_singleton_append`: the delimiters used by line-based formats;
* `infix_intercalate_iff`: where a pattern without the separator stands in a joined list;
* `find_append_cons_of_notMem`, `find_append_cons_cons_append` and `find_concat_append`: elements
  that the pattern does not contain, or contains at its end only, cut the text in two.
-/

namespace Search

variable {α : Type*} [DecidableEq α]

/-- The position of the first occurrence of `p` in a list. -/
def find (p : List α) : List α → Option ℕ
  | [] => if p = [] then some 0 else none
  | a :: l => if p <+: a :: l then some 0 else (find p l).map (· + 1)

/-- The position of the first occurrence of `p` in `l` that starts at `pos` or later. -/
def findFrom (p l : List α) (pos : ℕ) : Option ℕ :=
  (find p (l.drop pos)).map (· + pos)

omit [DecidableEq α] in
/-- An occurrence behind the first element is the first one exactly when none is at the front. -/
theorem first_succ_iff {p l : List α} {a : α} {i : ℕ} :
    (p <+: (a :: l).drop (i + 1) ∧ ∀ j < i + 1, ¬ p <+: (a :: l).drop j) ↔
      ¬ p <+: a :: l ∧ p <+: l.drop i ∧ ∀ j < i, ¬ p <+: l.drop j := by
  rw [Nat.forall_lt_succ_left, and_left_comm]
  rfl

/-- `find` returns `i` exactly when `p` stands at `i` and at no earlier position. -/
theorem find_eq_some_iff {p l : List α} {i : ℕ} :
    find p l = some i ↔ p <+: l.drop i ∧ ∀ j < i, ¬ p <+: l.drop j := by
  -- Behind the first position both sides speak of the tail, by `first_succ_iff`.
  induction l generalizing i with
  | nil =>
    rw [find]
    by_cases hp : p = []
    · rw [if_pos hp, hp]
      cases i with
      | zero => simp
      | succ i => exact iff_of_false (by simp) fun h => h.2 0 (Nat.succ_pos i) List.nil_prefix
    · simp [hp]
  | cons a l ih =>
    rw [find]
    by_cases hp : p <+: a :: l
    · rw [if_pos hp]
      cases i with
      | zero => simp [hp]
      | succ i =>
        rw [first_succ_iff]
        simp [hp]
    · rw [if_neg hp, Option.map_eq_some_iff]
      cases i with
      | zero => simp [hp]
      | succ i =>
        rw [first_succ_iff, ← ih]
        simp [hp]

/-- The pattern is found at the start exactly when the list begins with it. -/
theorem find_eq_zero_iff {p l : List α} : find p l = some 0 ↔ p <+: l := by
  rw [find_eq_some_iff, List.drop_zero, and_iff_left]
  exact fun j hj => absurd hj (Nat.not_lt_zero j)

/-- `find` fails exactly when `p` stands at no position. -/
theorem find_eq_none_iff {p l : List α} :
    find p l = none ↔ ∀ j, ¬ p <+: l.drop j := by
  constructor
  · intro h j hj
    -- A least such position would have been returned.
    classical
    have hex : ∃ k, p <+: l.drop k := ⟨j, hj⟩
    have hk : find p l = some (Nat.find hex) := by
      rw [find_eq_some_iff]
      exact ⟨Nat.find_spec hex, fun i hi => Nat.find_min hex hi⟩
    rw [h] at hk
    exact absurd hk (by simp)
  · intro h
    cases hf : find p l with
    | none => rfl
    | some i =>
      rw [find_eq_some_iff] at hf
      exact absurd hf.1 (h i)

/-- An occurrence that is found lies inside the list. -/
theorem length_le_of_find_eq_some {p l : List α} {i : ℕ} (h : find p l = some i) :
    i + p.length ≤ l.length := by
  rw [find_eq_some_iff] at h
  obtain ⟨hat, hbefore⟩ := h
  have hlen := hat.length_le
  rw [List.length_drop] at hlen
  rcases Nat.eq_zero_or_pos i with rfl | hi
  · omega
  · rcases p with _ | ⟨a, p⟩
    · exact absurd (by simp) (hbefore 0 hi)
    · simp only [List.length_cons] at hlen ⊢
      omega

/-- Text appended behind an occurrence does not move it. -/
theorem find_append_of_eq_some {p l : List α} {i : ℕ} (h : find p l = some i) (r : List α) :
    find p (l ++ r) = some i := by
  have hlen := length_le_of_find_eq_some h
  rw [find_eq_some_iff] at h ⊢
  obtain ⟨hat, hbefore⟩ := h
  refine ⟨?_, fun j hj hpre => hbefore j hj ?_⟩
  · rw [List.drop_append_of_le_length (by omega)]
    exact hat.trans (List.prefix_append _ _)
  · rw [List.drop_append_of_le_length (by omega)] at hpre
    exact List.prefix_of_prefix_length_le hpre (List.prefix_append _ _)
      (by rw [List.length_drop]; omega)

/-- An occurrence found in `l ++ r` that ends inside `l` is found in `l`. -/
theorem find_of_find_append {p l r : List α} {i : ℕ} (h : find p (l ++ r) = some i)
    (hi : i + p.length ≤ l.length) : find p l = some i := by
  rw [find_eq_some_iff] at h ⊢
  obtain ⟨hat, hbefore⟩ := h
  refine ⟨?_, fun j hj hpre => hbefore j hj ?_⟩
  · rw [List.drop_append_of_le_length (by omega)] at hat
    exact List.prefix_of_prefix_length_le hat (List.prefix_append _ _)
      (by rw [List.length_drop]; omega)
  · rw [List.drop_append_of_le_length (by omega)]
    exact hpre.trans (List.prefix_append _ _)

/-- After a failed search in `l`, an occurrence in `l ++ r` cannot end inside `l`. -/
theorem not_prefix_drop_append_of_find_eq_none {p l : List α} (h : find p l = none)
    (r : List α) {j : ℕ} (hj : j + p.length ≤ l.length) : ¬ p <+: (l ++ r).drop j := by
  intro hpre
  rw [find_eq_none_iff] at h
  rw [List.drop_append_of_le_length (by omega)] at hpre
  exact h j (List.prefix_of_prefix_length_le hpre (List.prefix_append _ _)
    (by rw [List.length_drop]; omega))

/-- `findFrom` returns the first occurrence that starts at `pos` or later. -/
theorem findFrom_eq_some_iff {p l : List α} {pos i : ℕ} :
    findFrom p l pos = some i ↔
      pos ≤ i ∧ p <+: l.drop i ∧ ∀ j, pos ≤ j → j < i → ¬ p <+: l.drop j := by
  rw [findFrom, Option.map_eq_some_iff]
  constructor
  · rintro ⟨k, hk, rfl⟩
    obtain ⟨hat, hbefore⟩ := find_eq_some_iff.mp hk
    refine ⟨Nat.le_add_left pos k, by rwa [List.drop_drop, Nat.add_comm] at hat, ?_⟩
    intro j hle hlt
    have hrest := hbefore (j - pos) (by omega)
    rwa [List.drop_drop, Nat.add_sub_cancel' hle] at hrest
  · rintro ⟨hle, hat, hbefore⟩
    refine ⟨i - pos, find_eq_some_iff.mpr ⟨?_, fun j hj => ?_⟩, Nat.sub_add_cancel hle⟩
    · rwa [List.drop_drop, Nat.add_sub_cancel' hle]
    · rw [List.drop_drop]
      exact hbefore (pos + j) (Nat.le_add_right pos j) (by omega)

theorem findFrom_eq_none_iff {p l : List α} {pos : ℕ} :
    findFrom p l pos = none ↔ ∀ j, pos ≤ j → ¬ p <+: l.drop j := by
  rw [findFrom, Option.map_eq_none_iff, find_eq_none_iff]
  constructor
  · intro h j hle
    have hrest := h (j - pos)
    rwa [List.drop_drop, Nat.add_sub_cancel' hle] at hrest
  · intro h j
    rw [List.drop_drop]
    exact h (pos + j) (Nat.le_add_right pos j)

/-- Positions at which no occurrence starts can be skipped. -/
theorem findFrom_eq_findFrom {p l : List α} {pos k : ℕ} (hle : pos ≤ k)
    (h : ∀ j, pos ≤ j → j < k → ¬ p <+: l.drop j) : findFrom p l pos = findFrom p l k := by
  cases hk : findFrom p l k with
  | none =>
    rw [findFrom_eq_none_iff] at hk ⊢
    intro j hj
    rcases Nat.lt_or_ge j k with hjk | hjk
    · exact h j hj hjk
    · exact hk j hjk
  | some i =>
    rw [findFrom_eq_some_iff] at hk ⊢
    obtain ⟨hki, hat, hbefore⟩ := hk
    refine ⟨hle.trans hki, hat, fun j hj hji => ?_⟩
    rcases Nat.lt_or_ge j k with hjk | hjk
    · exact h j hj hjk
    · exact hbefore j hjk hji

/-- If no occurrence starts before `k`, the search may start at `k`. -/
theorem find_eq_findFrom {p l : List α} {k : ℕ} (h : ∀ j < k, ¬ p <+: l.drop j) :
    find p l = findFrom p l k := by
  have hzero : find p l = findFrom p l 0 := by simp [findFrom]
  rw [hzero]
  exact findFrom_eq_findFrom (Nat.zero_le k) fun j _ hj => h j hj

/-- A stretch in which no occurrence starts can be skipped. -/
theorem find_append_of_forall_not_prefix {p a b : List α}
    (h : ∀ j < a.length, ¬ p <+: (a ++ b).drop j) :
    find p (a ++ b) = (find p b).map (· + a.length) := by
  rw [find_eq_findFrom h, findFrom, List.drop_left]

omit [DecidableEq α] in
/-- A pattern cannot stand where the text does not contain its first element. -/
theorem length_le_of_cons_prefix_drop {c : α} {p a b : List α} {j : ℕ} (h : c ∉ a)
    (hpre : c :: p <+: (a ++ b).drop j) : a.length ≤ j := by
  by_contra hj
  rw [List.drop_append_of_le_length (by omega), List.drop_eq_getElem_cons (by omega),
    List.cons_append, List.cons_prefix_cons] at hpre
  apply h
  rw [hpre.1]
  exact List.getElem_mem _

/-- A single delimiter is found behind a text that does not contain it. -/
theorem find_singleton_append {c : α} {a : List α} (h : c ∉ a) (b : List α) :
    find [c] (a ++ c :: b) = some a.length := by
  rw [find_eq_some_iff]
  refine ⟨by simp, fun j hj hpre => ?_⟩
  exact absurd (length_le_of_cons_prefix_drop h hpre) (by omega)

/-- The search for a single delimiter fails exactly when the text does not contain it. -/
theorem find_singleton_eq_none_iff {c : α} {l : List α} : find [c] l = none ↔ c ∉ l := by
  constructor
  · intro h hmem
    obtain ⟨a, b, rfl⟩ := List.append_of_mem hmem
    rw [find_eq_none_iff] at h
    exact h a.length (by simp)
  · intro h
    rw [find_eq_none_iff]
    intro j hj
    exact h (List.mem_of_mem_drop (hj.subset List.mem_cons_self))

/-- A single delimiter that is found is the first one. -/
theorem eq_append_of_find_singleton {c : α} {l : List α} {i : ℕ} (h : find [c] l = some i) :
    c ∉ l.take i ∧ l = l.take i ++ c :: l.drop (i + 1) := by
  have hlen := length_le_of_find_eq_some h
  rw [List.length_singleton] at hlen
  obtain ⟨hat, hbefore⟩ := find_eq_some_iff.mp h
  constructor
  · intro hmem
    obtain ⟨j, hj, rfl⟩ := List.mem_take_iff_getElem.mp hmem
    apply hbefore j (by omega)
    rw [List.drop_eq_getElem_cons (by omega)]
    exact List.cons_prefix_cons.mpr ⟨rfl, List.nil_prefix⟩
  · rw [List.drop_eq_getElem_cons (by omega), List.cons_prefix_cons] at hat
    rw [hat.1, ← List.drop_eq_getElem_cons, List.take_append_drop]

/-- A two-element delimiter is found behind a text that does not contain it, also when that
text ends in the delimiter's first element. -/
theorem find_pair_append {x y : α} (hxy : x ≠ y) {a : List α} (h : ¬ [x, y] <:+: a)
    (b : List α) : find [x, y] (a ++ x :: y :: b) = some a.length := by
  rw [find_eq_some_iff]
  refine ⟨by simp, fun j hj hpre => h ?_⟩
  rw [List.drop_append_of_le_length (by omega)] at hpre
  have hinf : [x, y] <:+: a.drop j := by
    -- The delimiter lies in `a`, or just its first element does.
    match hd : a.drop j with
    | [] => simp at hd; omega
    | [c] =>
      rw [hd] at hpre
      simp [List.cons_prefix_cons] at hpre
      exact absurd hpre.2.symm hxy
    | c :: d :: t =>
      rw [hd] at hpre
      simp only [List.cons_append, List.cons_prefix_cons] at hpre
      obtain ⟨rfl, rfl, -⟩ := hpre
      exact ⟨[], t, rfl⟩
  exact hinf.trans (List.drop_suffix j a).isInfix

/-! ### Elements that cut the text -/

omit [DecidableEq α] in
/-- Where a pattern stands, the text has its elements. -/
theorem getElem?_of_prefix_drop {p l : List α} {j i : ℕ} (h : p <+: l.drop j) (hi : i < p.length) :
    l[j + i]? = p[i]? := by
  obtain ⟨rest, hrest⟩ := h
  have hget : (l.drop j)[i]? = l[j + i]? := List.getElem?_drop
  rw [← hget, ← hrest, List.getElem?_append_left hi]

omit [DecidableEq α] in
/-- A pattern stands inside a text exactly when it stands at some position. -/
theorem infix_iff_exists_prefix_drop {p l : List α} : p <:+: l ↔ ∃ j, p <+: l.drop j := by
  constructor
  · rintro ⟨front, back, rfl⟩
    refine ⟨front.length, back, ?_⟩
    rw [List.append_assoc, List.drop_left]
  · rintro ⟨j, h⟩
    exact h.isInfix.trans (List.drop_suffix j l).isInfix

/-- The search fails exactly when the pattern does not stand inside the text. -/
theorem find_eq_none_iff_not_isInfix {p l : List α} : find p l = none ↔ ¬ p <:+: l := by
  rw [find_eq_none_iff, infix_iff_exists_prefix_drop, not_exists]

omit [DecidableEq α] in
/-- A pattern stands in front of an element that it does not contain, or behind it. -/
theorem prefix_drop_append_cons {p a b : List α} {c : α} {j : ℕ} (hc : c ∉ p)
    (h : p <+: (a ++ c :: b).drop j) (hj : j ≤ a.length) : p <+: a.drop j := by
  have hlen : j + p.length ≤ a.length := by
    by_contra hlong
    have hget := getElem?_of_prefix_drop h (show a.length - j < p.length by omega)
    rw [Nat.add_sub_cancel' hj, List.getElem?_append_right le_rfl, Nat.sub_self] at hget
    exact hc (List.mem_of_getElem? hget.symm)
  rw [List.drop_append_of_le_length hj] at h
  exact List.prefix_of_prefix_length_le h (List.prefix_append _ _)
    (by rw [List.length_drop]; omega)

omit [DecidableEq α] in
theorem infix_append_cons_iff {p a b : List α} {c : α} (hc : c ∉ p) :
    p <:+: a ++ c :: b ↔ p <:+: a ∨ p <:+: b := by
  constructor
  · intro h
    obtain ⟨j, hj⟩ := infix_iff_exists_prefix_drop.mp h
    rcases Nat.lt_or_ge a.length j with hlt | hle
    · right
      obtain ⟨k, rfl⟩ := Nat.exists_eq_add_of_lt hlt
      have hdrop : (a ++ c :: b).drop (a.length + k + 1) = b.drop k := by
        rw [Nat.add_assoc, List.drop_length_add_append, List.drop_succ_cons]
      rw [hdrop] at hj
      exact infix_iff_exists_prefix_drop.mpr ⟨k, hj⟩
    · exact Or.inl (infix_iff_exists_prefix_drop.mpr ⟨j, prefix_drop_append_cons hc hj hle⟩)
  · rintro (h | h)
    · exact h.trans (List.prefix_append a (c :: b)).isInfix
    · exact (List.infix_cons h).trans (List.suffix_append a (c :: b)).isInfix

omit [DecidableEq α] in
/-- A pattern without the separator stands in a joined list exactly when it stands in a part. -/
theorem infix_intercalate_iff {p : List α} {c : α} (hp : p ≠ []) (hc : c ∉ p)
    {parts : List (List α)} : p <:+: [c].intercalate parts ↔ ∃ part ∈ parts, p <:+: part := by
  induction parts with
  | nil => simp [hp]
  | cons part parts ih =>
    rcases eq_or_ne parts [] with rfl | hparts
    · simp
    · have hcons : [c].intercalate (part :: parts) = part ++ c :: [c].intercalate parts := by
        rw [List.intercalate_cons_of_ne_nil hparts, List.append_assoc, List.singleton_append]
      rw [hcons, infix_append_cons_iff hc, ih, List.exists_mem_cons_iff]

/-- The search goes on behind an element that the pattern does not contain. -/
theorem find_append_cons_of_notMem {p a : List α} {c : α} (hc : c ∉ p) (ha : ¬ p <:+: a)
    (b : List α) : find p (a ++ c :: b) = (find p b).map (· + (a.length + 1)) := by
  have hskip : ∀ j < (a ++ [c]).length, ¬ p <+: ((a ++ [c]) ++ b).drop j := by
    intro j hj hpre
    rw [List.length_append, List.length_singleton] at hj
    rw [List.append_assoc, List.singleton_append] at hpre
    exact ha (infix_iff_exists_prefix_drop.mpr
      ⟨j, prefix_drop_append_cons hc hpre (Nat.le_of_lt_succ hj)⟩)
  have h := find_append_of_forall_not_prefix hskip
  rwa [List.append_assoc, List.singleton_append, List.length_append, List.length_singleton] at h

/-- Behind two elements that the pattern does not contain, it is found where it stands. -/
theorem find_append_cons_cons_append {p a : List α} {c d : α} (hp : p ≠ []) (hc : c ∉ p)
    (hd : d ∉ p) (ha : ¬ p <:+: a) (b : List α) :
    find p (a ++ c :: d :: (p ++ b)) = some (a.length + 2) := by
  have hnil : ¬ p <:+: [] := fun h => hp (List.eq_nil_of_infix_nil h)
  have hhere : find p (p ++ b) = some 0 := find_eq_zero_iff.mpr (List.prefix_append p b)
  have hnext := find_append_cons_of_notMem hd hnil (p ++ b)
  rw [List.nil_append, hhere] at hnext
  rw [find_append_cons_of_notMem hc ha, hnext]
  simp only [Option.map_some, List.length_nil]
  congr 1
  omega

/-- A pattern that ends in a delimiter, in a text with the delimiter: it stands in front of the
first one, or behind it. -/
theorem find_concat_append {w a : List α} {c : α} (hw : c ∉ w) (ha : c ∉ a) (b : List α) :
    find (w ++ [c]) (a ++ c :: b) =
      if w <:+ a then some (a.length - w.length)
      else (find (w ++ [c]) b).map (· + (a.length + 1)) := by
  -- An occurrence has the delimiter at its end, and no delimiter stands in `a`.
  have hends : ∀ j ≤ a.length, w ++ [c] <+: (a ++ c :: b).drop j →
      j + w.length = a.length ∧ w = a.drop j := by
    intro j hj hpre
    have hlast := getElem?_of_prefix_drop hpre (show w.length < (w ++ [c]).length by simp)
    rw [List.getElem?_append_right le_rfl, Nat.sub_self, List.getElem?_cons_zero] at hlast
    have hle : a.length ≤ j + w.length := by
      by_contra hlt
      rw [List.getElem?_append_left (by omega)] at hlast
      exact ha (List.mem_of_getElem? hlast)
    have hfront := prefix_drop_append_cons hw ((List.prefix_append w [c]).trans hpre) hj
    have hlen := hfront.length_le
    rw [List.length_drop] at hlen
    exact ⟨by omega, hfront.eq_of_length (by rw [List.length_drop]; omega)⟩
  split
  next hsuffix =>
    obtain ⟨front, rfl⟩ := hsuffix
    rw [find_eq_some_iff, List.length_append, Nat.add_sub_cancel]
    constructor
    · rw [List.append_assoc, List.drop_left]
      exact ⟨b, by simp⟩
    · intro j hj hpre
      have heq := (hends j (by rw [List.length_append]; omega) hpre).1
      rw [List.length_append] at heq
      omega
  next hnot =>
    have hskip : ∀ j < (a ++ [c]).length, ¬ w ++ [c] <+: ((a ++ [c]) ++ b).drop j := by
      intro j hj hpre
      rw [List.length_append, List.length_singleton] at hj
      rw [List.append_assoc, List.singleton_append] at hpre
      obtain ⟨-, heq⟩ := hends j (Nat.le_of_lt_succ hj) hpre
      exact hnot (heq ▸ List.drop_suffix j a)
    have h := find_append_of_forall_not_prefix hskip
    rwa [List.append_assoc, List.singleton_append, List.length_append, List.length_singleton] at h

end Search
