import Lundi.Core.Bytes
import Lundi.Lib.Pieces
import Lundi.Lib.Search
import Mathlib.Data.List.DropRight
import Mathlib.Logic.Function.Basic

/-!
# Cookies

`detail::parse_cookies`. The loop is a fold over the segments between semicolons
(`parseCookies_eq`), and each segment is looked at on its own: `storeSegment_pair` and
`storeSegment_other` say what it adds to the map. A header that is put together from cookies with
distinct names, with spaces and other segments in between, is read as these cookies
(`parseCookies_text`).
-/

namespace Lundi

open Search Pieces

/-- The map of names to values. -/
abbrev CookieMap := Bytes → Option Bytes

/-- Semicolon. -/
abbrev semicolon : UInt8 := 59
/-- Equals sign. -/
abbrev equalsSign : UInt8 := 61

/-- What a turn of the loop does with a `pair`. -/
def storePair (pair : Bytes) (cookies : CookieMap) : CookieMap :=
  if pair = [] then cookies
  else
    match find [equalsSign] pair with
    | none => cookies
    | some eq =>
      Function.update cookies ((pair.take eq).rdropWhile (· == sp)) (some (pair.drop (eq + 1)))

/-- The loop of `parse_cookies`. Each turn but the last one removes a semicolon. -/
def parseCookiesLoop : ℕ → Bytes → CookieMap → CookieMap
  | 0, _, cookies => cookies
  | budget + 1, cookieHeader, cookies =>
    if cookieHeader = [] then cookies
    else
      let cookieHeader := cookieHeader.dropWhile (· == sp)
      match find [semicolon] cookieHeader with
      | none => storePair cookieHeader cookies
      | some semi =>
        parseCookiesLoop budget (cookieHeader.drop (semi + 1))
          (storePair (cookieHeader.take semi) cookies)

/-- `detail::parse_cookies`. -/
def parseCookies (cookieHeader : Bytes) : CookieMap :=
  parseCookiesLoop cookieHeader.length cookieHeader fun _ => none

/-! ### The loop is a fold over the segments -/

/-- A turn of the loop on the segment in front of the next semicolon. -/
def storeSegment (cookies : CookieMap) (segment : Bytes) : CookieMap :=
  storePair (segment.dropWhile (· == sp)) cookies

/-- Spaces are not removed beyond a semicolon. -/
theorem dropWhile_append_semicolon (a b : Bytes) :
    (a ++ semicolon :: b).dropWhile (· == sp) = a.dropWhile (· == sp) ++ semicolon :: b := by
  induction a with
  | nil => rfl
  | cons c a ih =>
    rw [List.cons_append, List.dropWhile_cons, List.dropWhile_cons]
    split
    · exact ih
    · rfl

theorem notMem_dropWhile {a : Bytes} {c : UInt8} (h : c ∉ a) (p : UInt8 → Bool) :
    c ∉ a.dropWhile p :=
  fun hc => h ((List.dropWhile_sublist p).subset hc)

theorem parseCookiesLoop_eq {budget : ℕ} {cookieHeader : Bytes}
    (h : cookieHeader.length ≤ budget) (cookies : CookieMap) :
    parseCookiesLoop budget cookieHeader cookies =
      (cookieHeader.splitOn semicolon).foldl storeSegment cookies := by
  induction cookieHeader using cut_induction semicolon generalizing budget cookies with
  | last a ha =>
    rw [List.splitOn_eq_singleton ha, List.foldl_cons, List.foldl_nil]
    match budget, a with
    | 0, a =>
      obtain rfl : a = [] := List.length_eq_zero_iff.mp (Nat.le_zero.mp h)
      rfl
    | budget + 1, [] => rfl
    | budget + 1, c :: a =>
      rw [parseCookiesLoop, if_neg (List.cons_ne_nil c a)]
      simp only [find_singleton_eq_none_iff.mpr (notMem_dropWhile ha _)]
      rfl
  | cut a b ha ih =>
    rw [List.splitOn_append_cons_self, List.splitOn_eq_singleton ha, List.singleton_append,
      List.foldl_cons]
    rw [List.length_append, List.length_cons] at h
    obtain ⟨rest, rfl⟩ : ∃ rest, budget = rest + 1 := ⟨budget - 1, by omega⟩
    -- The turn looks at the segment in front of the semicolon and removes both.
    rw [parseCookiesLoop, if_neg (by simp), dropWhile_append_semicolon]
    simp only [find_singleton_append (notMem_dropWhile ha _), List.take_left]
    rw [List.drop_length_add_append 1]
    exact ih (by omega) _

/-- The segments of the header are stored one after another. -/
theorem parseCookies_eq (cookieHeader : Bytes) :
    parseCookies cookieHeader =
      (cookieHeader.splitOn semicolon).foldl storeSegment fun _ => none :=
  parseCookiesLoop_eq le_rfl _

/-! ### Headers with distinct names -/

/-- A cookie. A name may be empty, and a value may hold every other byte. -/
structure Cookie where
  name : Bytes
  value : Bytes
  semicolon_notMem_name : semicolon ∉ name
  equalsSign_notMem_name : equalsSign ∉ name
  head?_name_ne : name.head? ≠ some sp
  getLast?_name_ne : name.getLast? ≠ some sp
  semicolon_notMem_value : semicolon ∉ value

/-- A segment between semicolons. -/
inductive CookieSegment
  /-- A cookie, with `lead` spaces in front of its name and `trail` spaces behind it. -/
  | pair (lead : ℕ) (cookie : Cookie) (trail : ℕ)
  /-- A text without an equals sign. -/
  | other (text : Bytes) (semicolon_notMem : semicolon ∉ text)
    (equalsSign_notMem : equalsSign ∉ text)

namespace CookieSegment

/-- What stands between the semicolons. -/
def text : CookieSegment → Bytes
  | pair lead cookie trail =>
    List.replicate lead sp ++ cookie.name ++ List.replicate trail sp ++ equalsSign :: cookie.value
  | other text _ _ => text

/-- The cookie of a segment. -/
def cookie? : CookieSegment → Option Cookie
  | pair _ cookie _ => some cookie
  | other _ _ _ => none

theorem semicolon_notMem_text (segment : CookieSegment) : semicolon ∉ segment.text := by
  cases segment with
  | pair lead cookie trail =>
    have hspaces : ∀ n, semicolon ∉ List.replicate n sp := fun n h =>
      absurd (List.eq_of_mem_replicate h) (by decide)
    simp only [text, List.mem_append, List.mem_cons, not_or]
    exact ⟨⟨⟨hspaces lead, cookie.semicolon_notMem_name⟩, hspaces trail⟩, by decide,
      cookie.semicolon_notMem_value⟩
  | other text hsemicolon _ => exact hsemicolon

end CookieSegment

/-- The spaces behind a name that does not end in one. -/
theorem rdropWhile_append_replicate {name : Bytes} (h : name.getLast? ≠ some sp) (n : ℕ) :
    (name ++ List.replicate n sp).rdropWhile (· == sp) = name := by
  induction n with
  | zero =>
    rw [List.replicate_zero, List.append_nil, List.rdropWhile_eq_self_iff]
    intro hne hlast
    rw [List.getLast?_eq_some_getLast hne, beq_iff_eq.mp hlast] at h
    exact h rfl
  | succ n ih =>
    rw [List.replicate_succ', ← List.append_assoc, List.rdropWhile_concat_pos _ _ _ (by simp), ih]

/-- The spaces in front of a segment go. When its name is empty, so do those in front of the
equals sign. -/
theorem dropWhile_text_pair (lead : ℕ) (cookie : Cookie) (trail : ℕ) :
    ∃ n, (CookieSegment.pair lead cookie trail).text.dropWhile (· == sp) =
      cookie.name ++ List.replicate n sp ++ equalsSign :: cookie.value := by
  have hspaces : ∀ n, ∀ b ∈ List.replicate n sp, (b == sp) = true := fun n b hb => by
    rw [List.eq_of_mem_replicate hb, beq_self_eq_true]
  rw [CookieSegment.text, List.append_assoc, List.append_assoc,
    List.dropWhile_append_of_pos (hspaces lead)]
  cases hname : cookie.name with
  | nil =>
    refine ⟨0, ?_⟩
    rw [List.nil_append, List.dropWhile_append_of_pos (hspaces trail)]
    rfl
  | cons c name =>
    have hc : c ≠ sp := fun h => cookie.head?_name_ne (by rw [hname, h, List.head?_cons])
    refine ⟨trail, ?_⟩
    rw [List.cons_append, List.dropWhile_cons_of_neg (by simpa using hc), List.cons_append,
      List.cons_append, List.append_assoc]

/-- The value of a cookie is stored under its name. -/
def storeCookie (cookies : CookieMap) (cookie : Cookie) : CookieMap :=
  Function.update cookies cookie.name (some cookie.value)

/-- A segment with a cookie stores it. -/
theorem storeSegment_pair (cookies : CookieMap) (lead : ℕ) (cookie : Cookie) (trail : ℕ) :
    storeSegment cookies (CookieSegment.pair lead cookie trail).text =
      storeCookie cookies cookie := by
  obtain ⟨n, hpair⟩ := dropWhile_text_pair lead cookie trail
  -- The first equals sign is the one behind the name.
  have hname : equalsSign ∉ cookie.name ++ List.replicate n sp := by
    rw [List.mem_append, not_or]
    exact ⟨cookie.equalsSign_notMem_name, fun h => absurd (List.eq_of_mem_replicate h) (by decide)⟩
  rw [storeSegment, hpair, storePair, if_neg (by simp)]
  simp only [find_singleton_append hname, List.take_left,
    rdropWhile_append_replicate cookie.getLast?_name_ne]
  rw [List.drop_length_add_append 1, List.drop_one, List.tail_cons, storeCookie]

/-- A segment without an equals sign stores nothing. -/
theorem storeSegment_other (cookies : CookieMap) {text : Bytes} (h : equalsSign ∉ text) :
    storeSegment cookies text = cookies := by
  rw [storeSegment, storePair, find_singleton_eq_none_iff.mpr (notMem_dropWhile h _), ite_self]

/-- The segments of a cookie header, of which no two hold cookies with the same name. -/
structure CookieHeader where
  segments : List CookieSegment
  nodup_names : ((segments.filterMap CookieSegment.cookie?).map Cookie.name).Nodup

namespace CookieHeader

/-- The cookies, in the order of their segments. -/
def cookies (header : CookieHeader) : List Cookie :=
  header.segments.filterMap CookieSegment.cookie?

/-- The value of the header. -/
def text (header : CookieHeader) : Bytes :=
  [semicolon].intercalate (header.segments.map CookieSegment.text)

end CookieHeader

/-- The segments store their cookies, whatever stands between them. -/
theorem foldl_storeSegment (segments : List CookieSegment) (cookies : CookieMap) :
    (segments.map CookieSegment.text).foldl storeSegment cookies =
      (segments.filterMap CookieSegment.cookie?).foldl storeCookie cookies := by
  induction segments generalizing cookies with
  | nil => rfl
  | cons segment segments ih =>
    rw [List.map_cons, List.foldl_cons, ih]
    cases segment with
    | pair lead cookie trail =>
      rw [storeSegment_pair]
      rfl
    | other text _ hequals =>
      rw [CookieSegment.text, storeSegment_other _ hequals]
      rfl

/-- The map after cookies have been stored whose names are new and pairwise different. -/
theorem foldl_storeCookie_eq_some_iff {cookies : List Cookie} {m : CookieMap}
    (hnodup : (cookies.map Cookie.name).Nodup) (hnew : ∀ c ∈ cookies, m c.name = none)
    {name value : Bytes} :
    cookies.foldl storeCookie m name = some value ↔
      m name = some value ∨ ∃ c ∈ cookies, c.name = name ∧ c.value = value := by
  induction cookies generalizing m with
  | nil => simp
  | cons cookie cookies ih =>
    rw [List.map_cons, List.nodup_cons] at hnodup
    rw [List.forall_mem_cons] at hnew
    have hother : ∀ c ∈ cookies, c.name ≠ cookie.name := fun c hc heq =>
      hnodup.1 (heq ▸ List.mem_map_of_mem hc)
    rw [List.foldl_cons, ih hnodup.2 fun c hc => by
      rw [storeCookie, Function.update_of_ne (hother c hc), hnew.2 c hc], storeCookie]
    by_cases hname : name = cookie.name
    · -- Only the first cookie has its name, and nothing was stored under it before.
      subst hname
      rw [Function.update_self, Option.some.injEq, hnew.1]
      simp
    · rw [Function.update_of_ne hname]
      simp [Ne.symm hname]

/-- The header is read as exactly its cookies, byte for byte. -/
theorem parseCookies_text (header : CookieHeader) (name value : Bytes) :
    parseCookies header.text name = some value ↔
      ∃ c ∈ header.cookies, c.name = name ∧ c.value = value := by
  rw [parseCookies_eq, CookieHeader.text]
  by_cases hempty : header.segments = []
  · simp [CookieHeader.cookies, hempty, storeSegment, storePair]
  · have hsegments : ∀ text ∈ header.segments.map CookieSegment.text, semicolon ∉ text := by
      rw [List.forall_mem_map]
      exact fun segment _ => segment.semicolon_notMem_text
    rw [List.splitOn_intercalate semicolon hsegments (by simpa using hempty), foldl_storeSegment,
      foldl_storeCookie_eq_some_iff header.nodup_names fun _ _ => rfl]
    simp [CookieHeader.cookies]

example : parseCookies (ascii "a=1;; b =x=y ;flag") (ascii "b") = some (ascii "x=y ") := by decide

end Lundi
