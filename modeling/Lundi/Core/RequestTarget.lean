import Lundi.Core.HeaderParsing
import Lundi.Core.PercentEncoding
import Lundi.Lib.Pieces
import Mathlib.Data.List.TakeWhile

/-!
# The request target

A target is an encoded path and an encoded query behind a question mark.

* `path_parseHeaders` and `queryParams_parseHeaders`: the two parts of the target are decoded,
  whether the path takes the way without escapes or not;
* `parseQueryString_eq`: a query is cut at ampersands, and empty pairs are left out;
* `parseHeaders_of_encodesTarget`: whatever choices a client makes when it encodes a path and a list
  of pairs, they are read as they were.
-/

namespace Lundi

open Search Pieces

/-- Question mark. -/
abbrev questionMark : UInt8 := 63
/-- Ampersand. -/
abbrev ampersand : UInt8 := 38

/-! ### The parts of a target -/

/-- The part of a target in front of a query. -/
def beforeQuery (target : Bytes) : Bytes := target.takeWhile (· ≠ 63)

/-- The query of a target. -/
def afterQuery (target : Bytes) : Bytes := (target.dropWhile (· ≠ 63)).drop 1

theorem beforeQuery_of_notMem {target : Bytes} (h : 63 ∉ target) :
    beforeQuery target = target := by
  rw [beforeQuery, List.takeWhile_eq_self_iff]
  intro b hb
  simpa using ne_of_mem_of_not_mem hb h

theorem afterQuery_of_notMem {target : Bytes} (h : 63 ∉ target) : afterQuery target = [] := by
  rw [afterQuery, List.dropWhile_eq_nil_iff.mpr]
  · rfl
  · intro b hb
    simpa using ne_of_mem_of_not_mem hb h

theorem beforeQuery_append_cons {a : Bytes} (h : 63 ∉ a) (b : Bytes) :
    beforeQuery (a ++ 63 :: b) = a := by
  rw [beforeQuery, List.takeWhile_append_of_pos, List.takeWhile_cons_of_neg (by simp),
    List.append_nil]
  intro x hx
  simpa using ne_of_mem_of_not_mem hx h

theorem afterQuery_append_cons {a : Bytes} (h : 63 ∉ a) (b : Bytes) :
    afterQuery (a ++ 63 :: b) = b := by
  rw [afterQuery, List.dropWhile_append_of_pos, List.dropWhile_cons_of_neg (by simp)]
  · rfl
  · intro x hx
    simpa using ne_of_mem_of_not_mem hx h

/-- The path and the query are decoded from the target. -/
theorem target_parseHeaders (data : StringView) :
    (parseHeaders data).path = urlDecode (beforeQuery (parseHeaders data).rawPath.bytes) ∧
      (parseHeaders data).queryParams =
        parseQueryString (afterQuery (parseHeaders data).rawPath.bytes) := by
  unfold parseHeaders
  split
  · exact ⟨rfl, rfl⟩
  · simp only
    unfold parseRequestLine
    split
    · exact ⟨rfl, rfl⟩
    · split
      · exact ⟨rfl, rfl⟩
      · simp only
        split
        next q hq =>
          obtain ⟨hnot, hcut⟩ := eq_append_of_find_singleton hq
          simp only [decodePath_eq]
          constructor
          · conv_rhs => rw [hcut, beforeQuery_append_cons hnot]
          · conv_rhs => rw [hcut, afterQuery_append_cons hnot]
        next hnone =>
          have hnot := find_singleton_eq_none_iff.mp hnone
          rw [decodePath_eq, beforeQuery_of_notMem hnot, afterQuery_of_notMem hnot]
          exact ⟨rfl, rfl⟩

/-- The path is decoded from the target. -/
theorem path_parseHeaders (data : StringView) :
    (parseHeaders data).path = urlDecode (beforeQuery (parseHeaders data).rawPath.bytes) :=
  (target_parseHeaders data).1

theorem queryParams_parseHeaders (data : StringView) :
    (parseHeaders data).queryParams =
      parseQueryString (afterQuery (parseHeaders data).rawPath.bytes) :=
  (target_parseHeaders data).2

/-- The head starts with a request line: a method, a target and a version behind single spaces. -/
structure HasRequestLine (data : StringView) (method target : Bytes) : Prop where
  sp_notMem_method : sp ∉ method
  sp_notMem_target : sp ∉ target
  line : ∃ version rest, ¬ crlf <:+: method ++ sp :: (target ++ sp :: version) ∧
    data.bytes = (method ++ sp :: (target ++ sp :: version)) ++ cr :: lf :: rest

/-! ### The query -/

theorem parseQueryLoop_eq {budget : ℕ} {qs : Bytes} (h : qs.length ≤ budget) :
    parseQueryLoop budget qs = (pieces ampersand qs).map parseQueryPair := by
  induction qs using cut_induction ampersand generalizing budget with
  | last a ha =>
    by_cases hnil : a = []
    · subst hnil
      cases budget <;> rfl
    · obtain ⟨rest, rfl⟩ : ∃ rest, budget = rest + 1 :=
        Nat.exists_eq_add_one.mpr (lt_of_lt_of_le (List.length_pos_of_ne_nil hnil) h)
      rw [parseQueryLoop, if_neg hnil, pieces_of_notMem ha hnil]
      simp only [find_singleton_eq_none_iff.mpr ha]
      rfl
  | cut a b ha ih =>
    rw [List.length_append, List.length_cons] at h
    obtain ⟨rest, rfl⟩ : ∃ rest, budget = rest + 1 := ⟨budget - 1, by omega⟩
    rw [parseQueryLoop, if_neg (by simp), pieces_append_cons_of_notMem ha]
    simp only [find_singleton_append ha, List.take_left]
    rw [List.drop_length_add_append 1, List.drop_one, List.tail_cons, ih (by omega),
      List.map_append]
    split <;> rfl

/-- The pairs are the pieces between ampersands. -/
theorem parseQueryString_eq (qs : Bytes) :
    parseQueryString qs = (pieces ampersand qs).map parseQueryPair :=
  parseQueryLoop_eq le_rfl

/-! ### Encoded targets -/

/-- The bytes that may stand literally in a path. -/
def isPathLiteral (b : UInt8) : Bool := isUnreserved b || b == slash

/-- A pair as it is written in a query. -/
def EncodesPair (entry : QueryEntry) (text : Bytes) : Prop :=
  ∃ name value, Encodes isUnreserved entry.name name ∧ Encodes isUnreserved entry.value value ∧
    text = name ++ 61 :: value

/-- A path and a list of pairs as they are written in a target. Without pairs the question mark may
be left out. -/
inductive EncodesTarget : Bytes → List QueryEntry → Bytes → Prop
  | path {p e : Bytes} (hp : Encodes isPathLiteral p e) : EncodesTarget p [] e
  | query {p e : Bytes} {entries : List QueryEntry} {texts : List Bytes}
    (hp : Encodes isPathLiteral p e) (hq : List.Forall₂ EncodesPair entries texts) :
    EncodesTarget p entries (e ++ questionMark :: [ampersand].intercalate texts)

theorem Encodes.urlDecode_path {p e : Bytes} (h : Encodes isPathLiteral p e) :
    urlDecode e = p := by
  have hdecode := h.urlDecode_append (by decide) (by decide) []
  rwa [List.append_nil, urlDecode, List.append_nil] at hdecode

theorem Encodes.urlDecode_query {s e : Bytes} (h : Encodes isUnreserved s e) :
    urlDecode e = s := by
  have hdecode := h.urlDecode_append (by decide) (by decide) []
  rwa [List.append_nil, urlDecode, List.append_nil] at hdecode

/-- A written pair is read as it was. -/
theorem EncodesPair.parseQueryPair_eq {entry : QueryEntry} {text : Bytes}
    (h : EncodesPair entry text) : parseQueryPair text = entry := by
  obtain ⟨name, value, hname, hvalue, rfl⟩ := h
  have hnot : 61 ∉ name := hname.notMem (by decide) (by decide) (by decide) (by decide)
  rw [parseQueryPair]
  simp only [find_singleton_append hnot, List.take_left]
  rw [List.drop_length_add_append 1, List.drop_one, List.tail_cons, hname.urlDecode_query,
    hvalue.urlDecode_query]

/-- A written pair holds no byte that has a meaning in a request line, other than its equals
sign. -/
theorem EncodesPair.notMem {entry : QueryEntry} {text : Bytes} (h : EncodesPair entry text)
    {c : UInt8} (hliteral : isUnreserved c = false) (hplus : c ≠ 43) (hpercent : c ≠ 37)
    (hequals : c ≠ 61) (hhex : hexVal c < 0) : c ∉ text := by
  obtain ⟨name, value, hname, hvalue, rfl⟩ := h
  rw [List.mem_append, List.mem_cons, not_or, not_or]
  exact ⟨hname.notMem hliteral hplus hpercent hhex, hequals,
    hvalue.notMem hliteral hplus hpercent hhex⟩

theorem EncodesPair.ne_nil {entry : QueryEntry} {text : Bytes} (h : EncodesPair entry text) :
    text ≠ [] := by
  obtain ⟨name, value, -, -, rfl⟩ := h
  simp

theorem encodesPair_of_mem {entries : List QueryEntry} {texts : List Bytes}
    (h : List.Forall₂ EncodesPair entries texts) :
    ∀ text ∈ texts, ∃ entry, EncodesPair entry text := by
  induction h with
  | nil => simp
  | cons hpair _ ih => exact List.forall_mem_cons.mpr ⟨⟨_, hpair⟩, ih⟩

/-- The written pairs, joined by ampersands, are read as they were. -/
theorem parseQueryString_intercalate {entries : List QueryEntry} {texts : List Bytes}
    (h : List.Forall₂ EncodesPair entries texts) :
    parseQueryString ([ampersand].intercalate texts) = entries := by
  have hpieces : ∀ text ∈ texts, text ≠ [] ∧ ampersand ∉ text := by
    intro text htext
    obtain ⟨entry, hpair⟩ := encodesPair_of_mem h text htext
    exact ⟨hpair.ne_nil, hpair.notMem (by decide) (by decide) (by decide) (by decide) (by decide)⟩
  rw [parseQueryString_eq, pieces_intercalate hpieces]
  induction h with
  | nil => rfl
  | cons hpair _ ih =>
    rw [List.map_cons, hpair.parseQueryPair_eq, ih (List.forall_mem_cons.mp hpieces).2]

/-- No space ends a target early. -/
theorem EncodesTarget.sp_notMem {p target : Bytes} {entries : List QueryEntry}
    (h : EncodesTarget p entries target) : sp ∉ target := by
  have hpath : ∀ {e : Bytes}, Encodes isPathLiteral p e → sp ∉ e := fun hp =>
    hp.notMem (by decide) (by decide) (by decide) (by decide)
  cases h with
  | path hp => exact hpath hp
  | @query e _ texts hp hq =>
    have hquery : sp ∉ [ampersand].intercalate texts :=
      notMem_intercalate (by decide) fun text htext => by
        obtain ⟨entry, hpair⟩ := encodesPair_of_mem hq text htext
        exact hpair.notMem (by decide) (by decide) (by decide) (by decide) (by decide)
    rw [List.mem_append, List.mem_cons, not_or, not_or]
    exact ⟨hpath hp, by decide, hquery⟩

/-- The parts of a target stand for the path and the pairs. -/
theorem EncodesTarget.decoded {p target : Bytes} {entries : List QueryEntry}
    (h : EncodesTarget p entries target) :
    urlDecode (beforeQuery target) = p ∧ parseQueryString (afterQuery target) = entries := by
  have hnot : ∀ {e : Bytes}, Encodes isPathLiteral p e → 63 ∉ e := fun hp =>
    hp.notMem (by decide) (by decide) (by decide) (by decide)
  cases h with
  | path hp =>
    rw [beforeQuery_of_notMem (hnot hp), afterQuery_of_notMem (hnot hp)]
    exact ⟨hp.urlDecode_path, rfl⟩
  | query hp hq =>
    rw [beforeQuery_append_cons (hnot hp), afterQuery_append_cons (hnot hp)]
    exact ⟨hp.urlDecode_path, parseQueryString_intercalate hq⟩

/-- A path and a list of pairs come back from a request line with any encoding of them. -/
theorem parseHeaders_of_encodesTarget {p target : Bytes} {entries : List QueryEntry}
    (h : EncodesTarget p entries target) {method version rest : Bytes} (hm : sp ∉ method)
    (hline : ¬ crlf <:+: method ++ sp :: (target ++ sp :: version)) {data : StringView}
    (hdata : data.bytes = (method ++ sp :: (target ++ sp :: version)) ++ cr :: lf :: rest) :
    (parseHeaders data).path = p ∧ (parseHeaders data).queryParams = entries := by
  obtain ⟨-, htarget⟩ := requestLine_parseHeaders hm h.sp_notMem hline hdata
  rw [path_parseHeaders, queryParams_parseHeaders, htarget]
  exact h.decoded

theorem encodesTarget_search : EncodesTarget (ascii " /") [⟨ascii "&", ascii " "⟩]
    (ascii "+/" ++ questionMark :: [ampersand].intercalate [ascii "%26=%20"]) :=
  .query (.plus (.literal (by decide) .nil))
    (.cons ⟨ascii "%26", ascii "%20", .escape (by decide) (by decide) (by decide) .nil,
      .escape (by decide) (by decide) (by decide) .nil, rfl⟩ .nil)

/-- A space as a plus and as an escape, and an ampersand in a name. -/
theorem parseHeaders_search :
    (parseHeaders ⟨.null, 0, ascii "GET +/?%26=%20 HTTP/1.1\r\n"⟩).path = ascii " /" ∧
      (parseHeaders ⟨.null, 0, ascii "GET +/?%26=%20 HTTP/1.1\r\n"⟩).queryParams =
        [⟨ascii "&", ascii " "⟩] :=
  @parseHeaders_of_encodesTarget _ _ _ encodesTarget_search (ascii "GET") (ascii "HTTP/1.1") []
    (by decide) (by decide) _ rfl

end Lundi
