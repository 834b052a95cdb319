import Lundi.Core.HeaderFields
import Lundi.Core.ParseHeaders

/-!
# What the header parser stores

`parse_headers` compared with what the head says.

* `fieldsRead_parseHeaders`: the parser stores the first `MAX_HEADERS` fields of the head;
* `findHeaderCi_eq`: a lookup finds the first of them with the name;
* `requestLine_parseHeaders`: the method and the target of the request line;
* `headViews_parseHeaders_denote`: the views of the request are parts of the head.
-/

namespace Lundi

open Search

/-- The names and values in a header array. -/
def HeaderArray.stored (headers : HeaderArray) : List (Bytes × Bytes) :=
  headers.entries.map fun e => (e.name.bytes, e.value.bytes)

/-- The names and values that a request has. -/
def fieldsRead (req : Request) : List (Bytes × Bytes) := req.headers.stored

theorem HeaderArray.length_stored_le (headers : HeaderArray) :
    headers.stored.length ≤ maxHeaders := by
  rw [stored, List.length_map]
  exact headers.length_le

/-! ### The header array -/

/-- A header lookup finds the first stored field with the name. -/
theorem findHeaderCi_eq (req : Request) (name : Bytes) :
    (req.findHeaderCi name).map StringView.bytes = (valuesOf name (fieldsRead req)).head? := by
  rw [Request.findHeaderCi, valuesOf, fieldsRead, HeaderArray.stored]
  induction req.headers.entries with
  | nil => rfl
  | cons e entries ih =>
    rw [List.find?_cons, List.map_cons, List.filter_cons]
    by_cases he : equalsIgnoreCase e.name.bytes name = true
    · simp [he]
    · simpa [he] using ih

/-- The first non-blank is where `dropWhile` stops. -/
theorem dropWhile_eq_drop_findIdx? (p : UInt8 → Bool) (l : Bytes) :
    l.dropWhile p = match l.findIdx? fun b => !p b with
      | some i => l.drop i
      | none => [] := by
  induction l with
  | nil => rfl
  | cons b l ih =>
    by_cases hb : p b = true
    · rw [List.dropWhile_cons_of_pos hb, ih, List.findIdx?_cons]
      simp only [hb, Bool.not_true]
      cases l.findIdx? fun b => !p b <;> rfl
    · rw [List.dropWhile_cons_of_neg hb, List.findIdx?_cons]
      simp [hb]

/-- The stored entry of a line has the name and the value of its field. -/
theorem headerEntryOf_bytes {hline : StringView} {c : ℕ} (h : find [colon] hline.bytes = some c) :
    fieldOf hline.bytes =
      some ((headerEntryOf hline c).name.bytes, (headerEntryOf hline c).value.bytes) := by
  have hvalue : (headerEntryOf hline c).value.bytes =
      (hline.bytes.drop (c + 1)).dropWhile isBlank := by
    rw [headerEntryOf, dropWhile_eq_drop_findIdx?]
    cases (hline.bytes.drop (c + 1)).findIdx? fun b => !isBlank b with
    | none => rfl
    | some skip => simp [List.drop_drop]
  rw [fieldOf, h, hvalue]
  simp [headerEntryOf]

/-- What a line adds to the fields read so far. -/
theorem stored_storeHeaderLine (headers : HeaderArray) (hline : StringView) :
    (storeHeaderLine headers hline).stored =
      (headers.stored ++ (fieldOf hline.bytes).toList).take maxHeaders := by
  unfold storeHeaderLine
  split
  next h =>
    have hnone : fieldOf hline.bytes = none := by rw [fieldOf, h]; rfl
    rw [hnone, Option.toList_none, List.append_nil,
      List.take_of_length_le headers.length_stored_le]
  next c h =>
    rw [HeaderArray.stored, HeaderArray.entries_add, headerEntryOf_bytes h, List.map_take,
      List.map_append]
    rfl

/-- Cutting a front part first does not matter. -/
theorem take_append_take {α : Type*} (n : ℕ) (l r : List α) :
    (l.take n ++ r).take n = (l ++ r).take n := by
  rw [List.take_append, List.take_append, List.take_take, Nat.min_self, List.length_take]
  congr 2
  omega

/-- The loop reads the lines from its position on, up to the first empty one. -/
theorem stored_parseHeaderLoop (data : StringView) (budget pos : ℕ) (headers : HeaderArray)
    (hbudget : data.size < budget + pos) :
    (parseHeaderLoop data budget pos headers).stored =
      (headers.stored ++ ((terminatedLines (data.bytes.drop pos)).takeWhile (· ≠ [])).filterMap
        fieldOf).take maxHeaders := by
  have hstop : ∀ headers : HeaderArray, headers.stored = (headers.stored ++ []).take maxHeaders :=
    fun headers => by rw [List.append_nil, List.take_of_length_le headers.length_stored_le]
  induction budget generalizing pos headers with
  | zero =>
    -- The budget is larger than what is left, so nothing is left.
    have hnil : data.bytes.drop pos = [] := List.drop_eq_nil_of_le (by
      change data.size ≤ pos
      omega)
    rw [hnil, parseHeaderLoop]
    exact hstop headers
  | succ budget ih =>
    rw [parseHeaderLoop, terminatedLines_eq, findFrom]
    split
    next hpos =>
      cases hfind : find crlf (data.bytes.drop pos) with
      | none => exact hstop headers
      | some i =>
        simp only [Option.map_some]
        rcases Nat.eq_zero_or_pos i with rfl | hi
        · -- An empty line ends the head.
          rw [if_pos (by omega)]
          simpa using hstop headers
        · -- Any other line is stored, and the loop goes on behind its terminator.
          have hlen := length_le_of_find_eq_some hfind
          rw [List.length_drop] at hlen
          have hline : (data.substr pos (i + pos - pos)).bytes = (data.bytes.drop pos).take i := by
            rw [StringView.bytes_substr, Nat.add_sub_cancel]
          have hne : (data.bytes.drop pos).take i ≠ [] := by
            intro hnil
            have := congrArg List.length hnil
            rw [List.length_take_of_le (by rw [List.length_drop]; omega)] at this
            exact hi.ne' this
          have hnext : data.bytes.drop (i + pos + 2) = (data.bytes.drop pos).drop (i + 2) := by
            rw [List.drop_drop]
            congr 1
            omega
          rw [if_neg (by omega), ih _ _ (by omega), stored_storeHeaderLine, take_append_take, hline,
            hnext, List.takeWhile_cons_of_pos (by simpa using hne), List.append_assoc,
            List.filterMap_cons]
          cases fieldOf ((data.bytes.drop pos).take i) <;> rfl
    next hpos =>
      have hnil : data.bytes.drop pos = [] := List.drop_eq_nil_of_le (by
        change data.size ≤ pos
        omega)
      rw [hnil]
      exact hstop headers

theorem parseRequestLine_headers (line : StringView) :
    (parseRequestLine line).headers = .empty := by
  unfold parseRequestLine
  split
  · rfl
  · split
    · rfl
    · simp only
      split <;> rfl

theorem parseRequestLine_body (line : StringView) : (parseRequestLine line).body = .empty := by
  unfold parseRequestLine
  split
  · rfl
  · split
    · rfl
    · simp only
      split <;> rfl

/-- The parser leaves the body empty. -/
theorem body_parseHeaders (data : StringView) : (parseHeaders data).body = .empty := by
  unfold parseHeaders
  split
  · rfl
  · exact parseRequestLine_body _

theorem params_parseHeaders (data : StringView) : (parseHeaders data).params = [] := by
  unfold parseHeaders
  split
  · rfl
  · simp only
    unfold parseRequestLine
    split
    · rfl
    · split
      · rfl
      · simp only
        split <;> rfl

/-- The parser stores the first `MAX_HEADERS` fields of the head. -/
theorem fieldsRead_parseHeaders (data : StringView) :
    fieldsRead (parseHeaders data) = (fields data.bytes).take maxHeaders := by
  rw [fieldsRead, parseHeaders, fields, headerLines, terminatedLines_eq]
  cases hfind : find crlf data.bytes with
  | none => rfl
  | some lineEnd =>
    have hlen := length_le_of_find_eq_some hfind
    simp only [parseRequestLine_headers]
    rw [stored_parseHeaderLoop _ _ _ _ (by omega), List.drop_succ_cons, List.drop_zero]
    rfl

/-! ### The request line -/

/-- The parts of a request line are cut at its first two spaces. -/
theorem requestLine_parseHeaders {data : StringView} {m t v rest : Bytes} (hm : sp ∉ m)
    (ht : sp ∉ t) (hline : ¬ crlf <:+: m ++ sp :: (t ++ sp :: v))
    (h : data.bytes = (m ++ sp :: (t ++ sp :: v)) ++ cr :: lf :: rest) :
    (parseHeaders data).method.bytes = m ∧ (parseHeaders data).rawPath.bytes = t := by
  have hend : find crlf data.bytes = some (m ++ sp :: (t ++ sp :: v)).length := by
    rw [h]
    exact find_pair_append (by decide) hline rest
  have hbytes : (data.substr 0 (m ++ sp :: (t ++ sp :: v)).length).bytes =
      m ++ sp :: (t ++ sp :: v) := by
    rw [StringView.bytes_substr, List.drop_zero, h, List.take_left]
  have hsp1 : find [sp] (m ++ sp :: (t ++ sp :: v)) = some m.length :=
    find_singleton_append hm _
  have hdrop : (m ++ sp :: (t ++ sp :: v)).drop (m.length + 1) = t ++ sp :: v :=
    List.drop_length_add_append 1
  have hsp2 : findFrom [sp] (m ++ sp :: (t ++ sp :: v)) (m.length + 1) =
      some (t.length + (m.length + 1)) := by
    rw [findFrom, hdrop, find_singleton_append ht]
    rfl
  have hlen : t.length + (m.length + 1) - m.length - 1 = t.length := by omega
  rw [parseHeaders, hend]
  simp only [parseRequestLine, hbytes, hsp1, hsp2]
  -- A query changes the decoded path, but not the target.
  split
  all_goals
    simp only [StringView.bytes_substr, List.drop_zero, h, List.take_left, hdrop, hlen]
    exact ⟨trivial, trivial⟩

/-! ### The views -/

/-- The views that `parse_headers` makes. -/
def Request.headViews (req : Request) : List StringView :=
  req.method :: req.rawPath :: req.headers.entries.flatMap fun e => [e.name, e.value]

/-- The name and the value of an entry denote. -/
def HeaderEntry.Denotes (mem : Memory) (e : HeaderEntry) : Prop :=
  e.name.Denotes mem ∧ e.value.Denotes mem

variable {mem : Memory}

theorem headerEntryOf_denotes {hline : StringView} (h : hline.Denotes mem) {c : ℕ}
    (hc : find [colon] hline.bytes = some c) : (headerEntryOf hline c).Denotes mem := by
  have hlen := length_le_of_find_eq_some hc
  rw [List.length_singleton] at hlen
  refine ⟨h.substr (Nat.zero_le _) _, ?_⟩
  rw [headerEntryOf]
  simp only
  split
  next skip hskip =>
    have hlt : skip < (hline.bytes.drop (c + 1)).length := by
      rw [List.findIdx?_eq_some_iff_getElem] at hskip
      exact hskip.1
    rw [List.length_drop] at hlt
    rw [StringView.substrFrom_eq_substr]
    exact h.substr (by omega) _
  -- A value of blanks only is the empty view.
  next => exact StringView.denotes_empty mem

theorem parseHeaderLoop_denotes {data : StringView} (hdata : data.Denotes mem) (budget pos : ℕ)
    {headers : HeaderArray} (h : ∀ e ∈ headers.entries, e.Denotes mem) :
    ∀ e ∈ (parseHeaderLoop data budget pos headers).entries, e.Denotes mem := by
  induction budget generalizing pos headers with
  | zero => exact h
  | succ budget ih =>
    rw [parseHeaderLoop]
    split
    next hpos =>
      split
      · exact h
      next nextEnd hnext =>
        split
        · exact h
        · refine ih _ fun e he => ?_
          have hline := hdata.substr (show pos ≤ data.bytes.length from hpos.le) (nextEnd - pos)
          unfold storeHeaderLine at he
          split at he
          · exact h e he
          next c hc =>
            rw [HeaderArray.entries_add] at he
            rcases List.mem_append.mp (List.mem_of_mem_take he) with hold | hnew
            · exact h e hold
            · obtain rfl := List.mem_singleton.mp hnew
              exact headerEntryOf_denotes hline hc
    next => exact h

/-- The method and the path are parts of the request line, or empty. -/
theorem parseRequestLine_denotes {line : StringView} (hline : line.Denotes mem) :
    (parseRequestLine line).method.Denotes mem ∧ (parseRequestLine line).rawPath.Denotes mem := by
  have hempty := StringView.denotes_empty mem
  unfold parseRequestLine
  split
  · exact ⟨hempty, hempty⟩
  next sp1 hsp1 =>
    have hlen := length_le_of_find_eq_some hsp1
    split
    · exact ⟨hempty, hempty⟩
    next sp2 hsp2 =>
      have hmethod := hline.substr (Nat.zero_le _) sp1
      have hpath := hline.substr (show sp1 + 1 ≤ line.bytes.length from hlen) (sp2 - sp1 - 1)
      simp only
      split <;> exact ⟨hmethod, hpath⟩

/-- While the head is in memory, all views that the parser makes denote. -/
theorem headViews_parseHeaders_denote {data : StringView} (hdata : data.Denotes mem) :
    ∀ v ∈ (parseHeaders data).headViews, v.Denotes mem := by
  unfold parseHeaders
  split
  · -- Without a line terminator there is no request line, and the request is the empty one.
    intro v hv
    have hempty : v = .empty := by
      simpa [Request.headViews, Request.empty, HeaderArray.empty] using hv
    rw [hempty]
    exact StringView.denotes_empty mem
  next lineEnd hend =>
    obtain ⟨hmethod, hpath⟩ := parseRequestLine_denotes (hdata.substr (Nat.zero_le _) lineEnd)
    have hnone : ∀ e ∈ (parseRequestLine (data.substr 0 lineEnd)).headers.entries,
        e.Denotes mem := by
      rw [parseRequestLine_headers]
      simp [HeaderArray.empty]
    have hheaders := parseHeaderLoop_denotes hdata data.size (lineEnd + 2) hnone
    intro v hv
    simp only [Request.headViews, List.mem_cons, List.mem_flatMap, List.not_mem_nil,
      or_false] at hv
    rcases hv with rfl | rfl | ⟨e, he, rfl | rfl⟩
    · exact hmethod
    · exact hpath
    · exact (hheaders e he).1
    · exact (hheaders e he).2

/-- The method of a request is empty or a part of the head. -/
theorem storage_method_parseHeaders {data : StringView}
    (h : (parseHeaders data).method.bytes ≠ []) :
    (parseHeaders data).method.storage = data.storage := by
  revert h
  unfold parseHeaders
  split
  · intro h
    exact absurd rfl h
  · simp only
    unfold parseRequestLine
    split
    · intro h
      exact absurd rfl h
    · split
      · intro h
        exact absurd rfl h
      · simp only
        split <;> exact fun _ => rfl

end Lundi
