import Mathlib.Data.List.Basic
import Mathlib.Data.List.Infix

/-!
# Pieces of a list between separators

`pieces sep l` are the non-empty stretches of `l` between occurrences of the separator `sep`, the
segments of a path. The module gives

* `pieces_append_cons`: a separator cuts the pieces in two;
* `mem_pieces` and `pieces_intercalate`: pieces are non-empty and free of separators, and lists of
  such pieces are read back after they have been joined;
* `pieces_append_iff`: two lists can be concatenated without fusing pieces exactly when one of
  them is empty or there is a separator where they meet;
* `isNormal_iff`: the lists that are a separator in front of their joined pieces.
-/

namespace Pieces

variable {α : Type*} [DecidableEq α] {sep : α}

/-- The non-empty stretches between separators. -/
def pieces (sep : α) (l : List α) : List (List α) := (l.splitOn sep).filter (· ≠ [])

@[simp]
theorem pieces_nil : pieces sep [] = [] := by simp [pieces]

/-- A separator cuts the pieces in two. -/
theorem pieces_append_cons (a b : List α) :
    pieces sep (a ++ sep :: b) = pieces sep a ++ pieces sep b := by
  rw [pieces, List.splitOn_append_cons_self, List.filter_append]
  rfl

/-- A separator in front belongs to no piece. -/
@[simp]
theorem pieces_cons_self (l : List α) : pieces sep (sep :: l) = pieces sep l := by
  have h : pieces sep ([] ++ sep :: l) = pieces sep [] ++ pieces sep l := pieces_append_cons [] l
  simpa using h

/-- A non-empty stretch without separators is one piece. -/
theorem pieces_of_notMem {a : List α} (h : sep ∉ a) (hne : a ≠ []) : pieces sep a = [a] := by
  rw [pieces, List.splitOn_eq_singleton h]
  simp [hne]

/-- The stretch in front of the first separator is a piece, unless it is empty. -/
theorem pieces_append_cons_of_notMem {a : List α} (h : sep ∉ a) (b : List α) :
    pieces sep (a ++ sep :: b) = (if a = [] then [] else [a]) ++ pieces sep b := by
  rw [pieces_append_cons]
  split
  next hnil => rw [hnil, pieces_nil]
  next hne => rw [pieces_of_notMem h hne]

/-- A list has no separator, or a first one. -/
theorem notMem_or_eq_append (sep : α) (l : List α) :
    sep ∉ l ∨ ∃ a b, sep ∉ a ∧ l = a ++ sep :: b := by
  by_cases h : sep ∈ l
  · obtain ⟨a, b, rfl, hnot⟩ := List.eq_append_cons_of_mem h
    exact Or.inr ⟨a, b, hnot, rfl⟩
  · exact Or.inl h

/-- Induction along the separators. -/
theorem cut_induction {motive : List α → Prop} (sep : α)
    (last : ∀ a, sep ∉ a → motive a)
    (cut : ∀ a b, sep ∉ a → motive b → motive (a ++ sep :: b)) (l : List α) : motive l := by
  induction hlen : l.length using Nat.strong_induction_on generalizing l with
  | _ n ih =>
    rcases notMem_or_eq_append sep l with h | ⟨a, b, h, rfl⟩
    · exact last l h
    · apply cut a b h
      apply ih b.length _ b rfl
      rw [← hlen, List.length_append, List.length_cons]
      omega

/-- Pieces are non-empty and free of separators. -/
theorem mem_pieces {l p : List α} (h : p ∈ pieces sep l) : p ≠ [] ∧ sep ∉ p := by
  induction l using cut_induction sep with
  | last a ha =>
    by_cases hne : a = []
    · simp [hne] at h
    · rw [pieces_of_notMem ha hne, List.mem_singleton] at h
      exact h ▸ ⟨hne, ha⟩
  | cut a b ha ih =>
    rw [pieces_append_cons_of_notMem ha, List.mem_append] at h
    rcases h with h | h
    · split at h
      · exact absurd h List.not_mem_nil
      next hne => exact List.mem_singleton.mp h ▸ ⟨hne, ha⟩
    · exact ih h

/-- A list without separators has none to take out. -/
theorem filter_ne_of_notMem {a : List α} (h : sep ∉ a) : a.filter (· ≠ sep) = a := by
  rw [List.filter_eq_self]
  intro x hx
  simpa using ne_of_mem_of_not_mem hx h

/-- All but the separators is in the pieces. -/
theorem flatten_pieces (l : List α) : (pieces sep l).flatten = l.filter (· ≠ sep) := by
  induction l using cut_induction sep with
  | last a ha =>
    by_cases hne : a = []
    · simp [hne]
    · rw [pieces_of_notMem ha hne, List.flatten_singleton, filter_ne_of_notMem ha]
  | cut a b ha ih =>
    rw [pieces_append_cons_of_notMem ha, List.flatten_append, ih, List.filter_append,
      filter_ne_of_notMem ha, List.filter_cons_of_neg (by simp)]
    split
    next hnil => rw [hnil, List.flatten_nil]
    next => rw [List.flatten_singleton]

/-- What is joined from pieces is cut into them again. -/
theorem pieces_intercalate {ps : List (List α)} (h : ∀ p ∈ ps, p ≠ [] ∧ sep ∉ p) :
    pieces sep ([sep].intercalate ps) = ps := by
  by_cases hps : ps = []
  · simp [hps]
  · rw [pieces, List.splitOn_intercalate sep (fun p hp => (h p hp).2) hps, List.filter_eq_self]
    intro p hp
    simpa using (h p hp).1

omit [DecidableEq α] in
/-- A joined list holds what its pieces hold, and separators. -/
theorem notMem_intercalate {c : α} (hc : c ≠ sep) {ps : List (List α)} (h : ∀ p ∈ ps, c ∉ p) :
    c ∉ [sep].intercalate ps := by
  induction ps with
  | nil => exact List.not_mem_nil
  | cons p ps ih =>
    obtain ⟨hp, hps⟩ := List.forall_mem_cons.mp h
    cases ps with
    | nil => rwa [List.intercalate_singleton]
    | cons q qs =>
      rw [List.intercalate_cons_cons, List.append_assoc, List.singleton_append, List.mem_append,
        List.mem_cons, not_or, not_or]
      exact ⟨hp, hc, ih hps⟩

/-! ### Concatenation -/

/-- Where a piece ends and another begins without a separator between them, the two become
one. -/
theorem length_pieces_append {a b : List α} (ha : a ≠ []) (hb : b ≠ [])
    (hlast : a.getLast? ≠ some sep) (hhead : b.head? ≠ some sep) :
    (pieces sep (a ++ b)).length + 1 = (pieces sep a).length + (pieces sep b).length := by
  induction a using cut_induction sep with
  | last a hnot =>
    -- The first piece of `b` grows by `a`.
    rw [pieces_of_notMem hnot ha, List.length_singleton, Nat.add_comm 1]
    congr 1
    rcases notMem_or_eq_append sep b with hb' | ⟨c, d, hc, rfl⟩
    · rw [pieces_of_notMem (by simp [hnot, hb']) (by simp [ha]), pieces_of_notMem hb' hb,
        List.length_singleton, List.length_singleton]
    · have hne : c ≠ [] := by
        rintro rfl
        simp at hhead
      rw [← List.append_assoc, pieces_append_cons_of_notMem (by simp [hnot, hc]),
        pieces_append_cons_of_notMem hc, if_neg (by simp [ha]), if_neg hne, List.length_append,
        List.length_append, List.length_singleton, List.length_singleton]
  | cut c d hnot ih =>
    have hd : d ≠ [] := by
      rintro rfl
      simp at hlast
    have hlast' : d.getLast? ≠ some sep := by
      rw [List.getLast?_append_of_ne_nil _ (by simp), List.getLast?_cons] at hlast
      rw [List.getLast?_eq_some_getLast hd] at hlast ⊢
      simpa using hlast
    have := ih hd hlast'
    rw [List.append_assoc, List.cons_append, pieces_append_cons_of_notMem hnot,
      pieces_append_cons_of_notMem hnot, List.length_append, List.length_append]
    omega

/-- Pieces are not fused exactly when one of the lists is empty or a separator stands where they
meet. -/
theorem pieces_append_iff {a b : List α} :
    pieces sep (a ++ b) = pieces sep a ++ pieces sep b ↔
      a = [] ∨ b = [] ∨ a.getLast? = some sep ∨ b.head? = some sep := by
  constructor
  · intro h
    by_contra hcon
    push Not at hcon
    obtain ⟨ha, hb, hlast, hhead⟩ := hcon
    have hlen := length_pieces_append ha hb hlast hhead
    rw [h, List.length_append] at hlen
    omega
  · rintro (rfl | rfl | h | h)
    · simp
    · simp
    · obtain ⟨c, rfl⟩ := List.getLast?_eq_some_iff.mp h
      rw [List.append_assoc, List.cons_append, List.nil_append, pieces_append_cons,
        pieces_append_cons, pieces_nil, List.append_nil]
    · obtain ⟨c, rfl⟩ := List.head?_eq_some_iff.mp h
      rw [pieces_append_cons, pieces_cons_self]

/-- Concatenation never makes more pieces. -/
theorem length_pieces_append_le (a b : List α) :
    (pieces sep (a ++ b)).length ≤ (pieces sep a).length + (pieces sep b).length := by
  by_cases h : pieces sep (a ++ b) = pieces sep a ++ pieces sep b
  · rw [h, List.length_append]
  · rw [pieces_append_iff] at h
    push Not at h
    obtain ⟨ha, hb, hlast, hhead⟩ := h
    have := length_pieces_append ha hb hlast hhead
    omega

/-- If concatenation makes as many, no pieces are fused. -/
theorem pieces_append_of_length {a b : List α}
    (h : (pieces sep (a ++ b)).length = (pieces sep a).length + (pieces sep b).length) :
    pieces sep (a ++ b) = pieces sep a ++ pieces sep b := by
  rw [pieces_append_iff]
  by_contra hcon
  push Not at hcon
  obtain ⟨ha, hb, hlast, hhead⟩ := hcon
  have := length_pieces_append ha hb hlast hhead
  omega

/-! ### Normal lists -/

/-- A separator in front, no two in a row, and none at the end of a list with pieces. -/
def IsNormal (sep : α) (l : List α) : Prop :=
  l.head? = some sep ∧ ¬ [sep, sep] <:+: l ∧ (l.getLast? = some sep → l = [sep])

instance (l : List α) : Decidable (IsNormal sep l) :=
  inferInstanceAs (Decidable (_ ∧ _ ∧ _))

omit [DecidableEq α] in
/-- Two separators in a row do not begin in a stretch without separators. -/
theorem infix_of_infix_append {a l : List α} (h : sep ∉ a) (hinf : [sep, sep] <:+: a ++ l) :
    [sep, sep] <:+: l := by
  induction a with
  | nil => exact hinf
  | cons x a ih =>
    rw [List.mem_cons, not_or] at h
    rw [List.cons_append, List.infix_cons_iff] at hinf
    rcases hinf with hpre | hinf
    · exact absurd (List.cons_prefix_cons.mp hpre).1 h.1
    · exact ih h.2 hinf

omit [DecidableEq α] in
theorem intercalate_cons_ne_nil {p : List α} (h : p ≠ []) (ps : List (List α)) :
    [sep].intercalate (p :: ps) ≠ [] := by
  cases ps with
  | nil => rwa [List.intercalate_singleton]
  | cons q qs => simp [List.intercalate_cons_cons]

omit [DecidableEq α] in
/-- What is joined from pieces behind a separator is normal. -/
theorem isNormal_cons_intercalate {ps : List (List α)} (h : ∀ p ∈ ps, p ≠ [] ∧ sep ∉ p) :
    IsNormal sep (sep :: [sep].intercalate ps) := by
  induction ps with
  | nil => simp [IsNormal, List.infix_cons_iff]
  | cons p ps ih =>
    obtain ⟨⟨hne, hnot⟩, hps⟩ := List.forall_mem_cons.mp h
    have hfront : ∀ l, ¬ [sep, sep] <+: sep :: (p ++ l) := by
      intro l hpre
      obtain ⟨x, p, rfl⟩ := List.exists_cons_of_ne_nil hne
      have hx := (List.cons_prefix_cons.mp (List.cons_prefix_cons.mp hpre).2).1
      exact hnot (hx ▸ List.mem_cons_self)
    cases ps with
    | nil =>
      rw [List.intercalate_singleton]
      refine ⟨rfl, fun hinf => ?_, fun hlast => ?_⟩
      · -- A doubled separator would be at the front or inside the piece.
        rcases List.infix_cons_iff.mp hinf with hpre | hinf
        · exact hfront [] (by rwa [List.append_nil])
        · exact hnot (hinf.subset List.mem_cons_self)
      · rw [List.getLast?_cons, List.getLast?_eq_some_getLast hne] at hlast
        have hmem := List.getLast_mem hne
        rw [← Option.some_inj.mp hlast] at hnot
        exact absurd hmem hnot
    | cons q qs =>
      obtain ⟨-, hinf, hlast⟩ := ih hps
      rw [List.intercalate_cons_cons, List.append_assoc, List.singleton_append]
      refine ⟨rfl, fun hinf' => ?_, fun hlast' => ?_⟩
      · rcases List.infix_cons_iff.mp hinf' with hpre | hinf'
        · exact hfront _ hpre
        · exact hinf (infix_of_infix_append hnot hinf')
      · -- The last element is that of the rest, which is not the separator.
        rw [← List.cons_append, List.getLast?_append_of_ne_nil _ (by simp)] at hlast'
        exact absurd (List.cons.inj (hlast hlast')).2
          (intercalate_cons_ne_nil (hps q List.mem_cons_self).1 qs)

/-- The normal lists are a separator in front of their joined pieces. -/
theorem isNormal_iff {l : List α} :
    IsNormal sep l ↔ l = sep :: [sep].intercalate (pieces sep l) := by
  constructor
  · rintro ⟨hhead, hinf, hlast⟩
    obtain ⟨t, rfl⟩ := List.head?_eq_some_iff.mp hhead
    rw [pieces_cons_self]
    congr 1
    induction t using cut_induction sep with
    | last a ha =>
      by_cases hne : a = []
      · simp [hne]
      · rw [pieces_of_notMem ha hne, List.intercalate_singleton]
    | cut a b ha ih =>
      -- What stands behind the first piece is normal as well, so that the hypothesis joins it.
      have hsuffix : sep :: b <:+ sep :: (a ++ sep :: b) := ⟨sep :: a, by simp⟩
      have hne : a ≠ [] := by
        rintro rfl
        exact hinf ⟨[], b, rfl⟩
      have hend : (sep :: b).getLast? ≠ some sep := by
        intro h
        have := hlast (by
          rw [← List.cons_append, List.getLast?_append_of_ne_nil _ (by simp)]
          exact h)
        simp at this
      have hb : b ≠ [] := by
        rintro rfl
        simp at hend
      have hjoin := ih rfl (fun h => hinf (h.trans hsuffix.isInfix)) fun h => absurd h hend
      rw [pieces_append_cons_of_notMem ha, if_neg hne]
      have hpieces : pieces sep b ≠ [] := by
        intro hnil
        rw [hnil] at hjoin
        exact hb (by simpa using hjoin)
      rw [List.singleton_append, List.intercalate_cons_of_ne_nil hpieces, ← hjoin]
      simp
  · intro h
    rw [h]
    exact isNormal_cons_intercalate fun p hp => mem_pieces hp

end Pieces
