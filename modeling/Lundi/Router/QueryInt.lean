import Lundi.Router.Matching

/-!
# Integer query parameters

`request::query` and `request::query_int`. Both look for the parameters with a name, but `query`
takes the first one as it is, while `query_int` is content with an integer at the front of a value
and goes on to the next parameter when there is none. A value is read as a route segment
`<int:..>` reads it only when the integer is the whole value of the first parameter
(`queryIntAgrees_iff`).
-/

namespace Lundi

open Decimal

namespace Request

/-- `query`: the value of the first parameter with the name. -/
def query (req : Request) (name : Bytes) : Option Bytes :=
  (req.queryParams.find? fun q => q.name == name).map QueryEntry.value

/-- The loop of `query_int`. -/
def queryIntLoop (name : Bytes) : List QueryEntry → Option ℤ
  | [] => none
  | q :: params =>
    if q.name = name then
      match fromCharsInt q.value with
      | .ok (val, _) => some val
      | .error _ => queryIntLoop name params
    else queryIntLoop name params

/-- `query_int`. -/
def queryInt (req : Request) (name : Bytes) : Option ℤ := queryIntLoop name req.queryParams

end Request

/-! ### Integers at the front of a value -/

/-- The value begins with the decimal form of an `int`, and no digit follows it. -/
def StartsWithInt (val : Bytes) (n : ℤ) : Prop :=
  ∃ numeral rest, val = numeral ++ rest ∧ IsIntNumeral numeral n ∧
    ∀ b ∈ rest.head?, isDigit b = false

theorem IsIntNumeral.startsWithInt {val : Bytes} {n : ℤ} (h : IsIntNumeral val n) :
    StartsWithInt val n :=
  ⟨val, [], by simp, h, by simp⟩

/-- `from_chars` stops behind the numeral. -/
theorem fromCharsInt_append {numeral rest : Bytes} {n : ℤ} (h : IsIntNumeral numeral n)
    (hrest : ∀ b ∈ rest.head?, isDigit b = false) :
    fromCharsInt (numeral ++ rest) = .ok (n, numeral.length) := by
  rw [← fromCharsInt_eq_ok_iff.mpr h]
  obtain ⟨⟨hnum, -⟩ | ⟨digits, rfl, hnum, -⟩, -⟩ := h
  · -- The numeral is not empty, so that the first byte is the same.
    have hhead : (numeral ++ rest).head? = numeral.head? :=
      List.head?_append_of_ne_nil _ hnum.1
    have hnot : numeral.head? ≠ some 45 := fun hneg =>
      absurd (hnum.2 45 (List.mem_of_mem_head? hneg)) (by decide)
    simp only [fromCharsInt, hhead, hnot, if_false, takeWhile_isDigit_append hnum.2 hrest,
      List.takeWhile_eq_self_iff.mpr hnum.2]
  · simp only [fromCharsInt, List.cons_append, List.head?_cons, if_true, List.drop_succ_cons,
      List.drop_zero, takeWhile_isDigit_append hnum.2 hrest,
      List.takeWhile_eq_self_iff.mpr hnum.2]

/-- What `from_chars` accepts without a look at its end pointer. -/
theorem exists_fromCharsInt_eq_ok_iff {val : Bytes} {n : ℤ} :
    (∃ size, fromCharsInt val = .ok (n, size)) ↔ StartsWithInt val n := by
  constructor
  · rintro ⟨size, h⟩
    -- The digits that are read, with the sign in front of them, are the numeral.
    have hsplit : ∀ s : Bytes, s = s.takeWhile isDigit ++ s.dropWhile isDigit :=
      fun s => List.takeWhile_append_dropWhile.symm
    have hdigits : ∀ s : Bytes, ∀ b ∈ s.takeWhile isDigit, isDigit b = true :=
      fun s b hb => List.mem_takeWhile_imp hb
    have hstop : ∀ s : Bytes, ∀ b ∈ (s.dropWhile isDigit).head?, isDigit b = false := by
      intro s b hb
      have hnot := List.head?_dropWhile_not isDigit s
      rw [Option.mem_def.mp hb] at hnot
      exact hnot
    by_cases hneg : val.head? = some 45
    · obtain ⟨s, rfl⟩ := List.head?_eq_some_iff.mp hneg
      simp only [fromCharsInt, List.head?_cons, if_true, List.drop_succ_cons, List.drop_zero,
        readInt_eq_ok_iff] at h
      obtain ⟨hne, hval, hrange, -⟩ := h
      refine ⟨45 :: s.takeWhile isDigit, s.dropWhile isDigit, ?_, ⟨?_, hrange⟩, hstop s⟩
      · rw [List.cons_append, ← hsplit]
      · exact Or.inr ⟨_, rfl, ⟨hne, hdigits s⟩, hval⟩
    · simp only [fromCharsInt, hneg, if_false] at h
      rw [readInt_eq_ok_iff] at h
      obtain ⟨hne, hval, hrange, -⟩ := h
      exact ⟨val.takeWhile isDigit, val.dropWhile isDigit, hsplit val,
        ⟨Or.inl ⟨⟨hne, hdigits val⟩, hval⟩, hrange⟩, hstop val⟩
  · rintro ⟨numeral, rest, rfl, h, hrest⟩
    exact ⟨numeral.length, fromCharsInt_append h hrest⟩

/-- A value begins with at most one integer. -/
theorem StartsWithInt.unique {val : Bytes} {n m : ℤ} (hn : StartsWithInt val n)
    (hm : StartsWithInt val m) : n = m := by
  obtain ⟨sizeN, hn⟩ := exists_fromCharsInt_eq_ok_iff.mpr hn
  obtain ⟨sizeM, hm⟩ := exists_fromCharsInt_eq_ok_iff.mpr hm
  rw [hn, Except.ok.injEq, Prod.mk.injEq] at hm
  exact hm.1

/-! ### The parameters with a name -/

/-- The values of the parameters with the name, in their order. -/
def valuesNamed (name : Bytes) (params : List QueryEntry) : List Bytes :=
  (params.filter fun q => q.name == name).map QueryEntry.value

/-- `query` returns the first of the values. -/
theorem query_eq_head? (req : Request) (name : Bytes) :
    req.query name = (valuesNamed name req.queryParams).head? := by
  rw [Request.query, valuesNamed, List.head?_map, List.head?_filter]

/-- `query_int` finds nothing exactly when no value begins with an integer. -/
theorem queryIntLoop_eq_none_iff {name : Bytes} {params : List QueryEntry} :
    Request.queryIntLoop name params = none ↔
      ∀ v ∈ valuesNamed name params, ∀ n, ¬ StartsWithInt v n := by
  induction params with
  | nil => simp [Request.queryIntLoop, valuesNamed]
  | cons q params ih =>
    by_cases hname : q.name = name
    · have hcons : valuesNamed name (q :: params) = q.value :: valuesNamed name params := by
        simp [valuesNamed, hname]
      rw [Request.queryIntLoop, if_pos hname, hcons, List.forall_mem_cons, ← ih]
      -- The loop stops at a value that begins with an integer, and tries the next one otherwise.
      cases hread : fromCharsInt q.value with
      | ok r =>
        obtain ⟨n, size⟩ := r
        have hstarts := exists_fromCharsInt_eq_ok_iff.mp ⟨size, hread⟩
        simp only [reduceCtorEq, false_iff, not_and]
        exact fun h => absurd hstarts (h n)
      | error e =>
        have hnone : ∀ n, ¬ StartsWithInt q.value n := fun n h => by
          obtain ⟨size, hok⟩ := exists_fromCharsInt_eq_ok_iff.mpr h
          rw [hread] at hok
          cases hok
        simp [hnone]
    · have hcons : valuesNamed name (q :: params) = valuesNamed name params := by
        simp [valuesNamed, hname]
      rw [Request.queryIntLoop, if_neg hname, hcons, ih]

/-- An integer at the front of the first value is what `query_int` returns. -/
theorem queryIntLoop_of_startsWithInt {name v : Bytes} {params : List QueryEntry} {n : ℤ}
    (hfirst : (valuesNamed name params).head? = some v) (hv : StartsWithInt v n) :
    Request.queryIntLoop name params = some n := by
  obtain ⟨size, hread⟩ := exists_fromCharsInt_eq_ok_iff.mpr hv
  induction params with
  | nil => cases hfirst
  | cons q params ih =>
    by_cases hname : q.name = name
    · obtain rfl : q.value = v := by simpa [valuesNamed, hname] using hfirst
      simp only [Request.queryIntLoop, if_pos hname, hread]
    · rw [Request.queryIntLoop, if_neg hname]
      exact ih (by simpa [valuesNamed, hname] using hfirst)

/-! ### Agreement with integer routes -/

/-- A route segment `<int:..>` accepts the text with this value. -/
def IntSegmentAccepts (val : Bytes) (n : ℤ) : Prop :=
  ∀ param : Bytes, matchSegments 0 [.paramInt param] [val] [] = (true, [⟨param, .int n⟩])

theorem intSegmentAccepts_iff {val : Bytes} {n : ℤ} :
    IntSegmentAccepts val n ↔ IsIntNumeral val n := by
  rw [← fromCharsInt_eq_ok_iff, IntSegmentAccepts]
  constructor
  · intro h
    have hempty := h []
    rw [matchSegments] at hempty
    split at hempty
    next num consumed hread =>
      split at hempty
      · cases hempty
      next hsize =>
        rw [hread, not_not.mp hsize]
        simpa [matchSegments] using hempty
    · cases hempty
  · intro h param
    simp [matchSegments, h]

/-- `query_int` agrees with `query` and with integer routes: it is `n` exactly when `query` has a
value, and a route segment `<int:..>` accepts that value with `n`. -/
def QueryIntAgrees (req : Request) (name : Bytes) : Prop :=
  ∀ n, req.queryInt name = some n ↔ ∃ v, req.query name = some v ∧ IntSegmentAccepts v n

/-- They agree exactly when no value of the name begins with an integer, or the first value is an
integer as a whole. -/
theorem queryIntAgrees_iff (req : Request) (name : Bytes) :
    QueryIntAgrees req name ↔
      (∀ v ∈ valuesNamed name req.queryParams, ∀ n, ¬ StartsWithInt v n) ∨
        ∃ v n, (valuesNamed name req.queryParams).head? = some v ∧ IsIntNumeral v n := by
  simp only [QueryIntAgrees, query_eq_head?, intSegmentAccepts_iff, Request.queryInt]
  constructor
  · intro h
    cases hres : Request.queryIntLoop name req.queryParams with
    | none => exact Or.inl (queryIntLoop_eq_none_iff.mp hres)
    | some n =>
      obtain ⟨v, hfirst, hv⟩ := (h n).mp hres
      exact Or.inr ⟨v, n, hfirst, hv⟩
  · rintro (hnone | ⟨v, n, hfirst, hv⟩) m
    · rw [queryIntLoop_eq_none_iff.mpr hnone]
      refine iff_of_false (by simp) ?_
      rintro ⟨v, hfirst, hv⟩
      exact hnone v (List.mem_of_mem_head? hfirst) m hv.startsWithInt
    · rw [queryIntLoop_of_startsWithInt hfirst hv.startsWithInt, hfirst]
      constructor
      · rintro ⟨rfl⟩
        exact ⟨v, rfl, hv⟩
      · rintro ⟨w, ⟨rfl⟩, hw⟩
        rw [hv.startsWithInt.unique hw.startsWithInt]

/-- They do not agree on `?page=12abc`. -/
theorem not_queryIntAgrees :
    ¬ ∀ (req : Request) (name : Bytes), QueryIntAgrees req name := by
  intro h
  have hread := (h { Request.empty with queryParams := [⟨ascii "page", ascii "12abc"⟩] }
    (ascii "page") 12).mp (by decide)
  obtain ⟨v, hv, haccepts⟩ := hread
  obtain rfl : v = ascii "12abc" := (Option.some.inj hv).symm
  exact absurd (haccepts []) (by decide)

end Lundi
