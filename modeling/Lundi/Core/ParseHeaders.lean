import Lundi.Core.Request
import Lundi.Lib.Search

/-!
# The header parser

`detail::parse_headers` with the URL decoder and the query-string parser it calls. The parser
works on a view of the head and fills a request with parts of that view.

The loops of the source walk an index or a shrinking view over their input. Where such a loop is
not structural on the bytes, it is written with a step budget equal to the size of its input,
which its steps cannot exceed because each one consumes at least one byte.
-/

namespace Lundi

open Search

/-- `detail::hex_val`: the value of a hexadecimal digit, or `-1`. -/
def hexVal (c : UInt8) : ℤ :=
  if 48 ≤ c ∧ c ≤ 57 then c.toNat - 48
  else if 65 ≤ c ∧ c ≤ 70 then c.toNat - 65 + 10
  else if 97 ≤ c ∧ c ≤ 102 then c.toNat - 97 + 10
  else -1

/-- The byte that `url_decode` writes for a byte that is not an escape. -/
def decodePlus (c : UInt8) : UInt8 := if c = 43 then sp else c

/-- `detail::url_decode`: `%XX` with two hexadecimal digits becomes a byte, `+` becomes a space,
everything else is copied. -/
def urlDecode : Bytes → Bytes
  | c :: h :: l :: rest =>
    if c = 37 ∧ hexVal h ≥ 0 ∧ hexVal l ≥ 0 then
      UInt8.ofNat (hexVal h * 16 + hexVal l).toNat :: urlDecode rest
    else decodePlus c :: urlDecode (h :: l :: rest)
  | c :: rest => decodePlus c :: urlDecode rest
  | [] => []

/-- One `name=value` pair of the query string. -/
def parseQueryPair (pair : Bytes) : QueryEntry :=
  match find [61] pair with
  | some eq => ⟨urlDecode (pair.take eq), urlDecode (pair.drop (eq + 1))⟩
  | none => ⟨urlDecode pair, []⟩

/-- The loop of `parse_query_string`. -/
def parseQueryLoop : ℕ → Bytes → List QueryEntry
  | 0, _ => []
  | budget + 1, qs =>
    if qs = [] then []
    else
      match find [38] qs with
      | none => [parseQueryPair qs]
      | some amp =>
        let pair := qs.take amp
        (if pair = [] then [] else [parseQueryPair pair]) ++
          parseQueryLoop budget (qs.drop (amp + 1))

/-- `detail::parse_query_string`. -/
def parseQueryString (qs : Bytes) : List QueryEntry := parseQueryLoop qs.length qs

/-- The path without its query: copied when it holds no escape, decoded otherwise. -/
def decodePath (raw : Bytes) : Bytes :=
  if find [37] raw = none ∧ find [43] raw = none then raw else urlDecode raw

/-- The request line: method, target, and the decoded path and query of the target. A line
without two spaces leaves the request empty. -/
def parseRequestLine (line : StringView) : Request :=
  match find [sp] line.bytes with
  | none => .empty
  | some sp1 =>
    match findFrom [sp] line.bytes (sp1 + 1) with
    | none => .empty
    | some sp2 =>
      let rawPath := line.substr (sp1 + 1) (sp2 - sp1 - 1)
      let req := { Request.empty with method := line.substr 0 sp1, rawPath := rawPath }
      match find [63] rawPath.bytes with
      | some qmark =>
        { req with
          path := decodePath (rawPath.bytes.take qmark)
          queryParams := parseQueryString (rawPath.bytes.drop (qmark + 1)) }
      | none => { req with path := decodePath rawPath.bytes }

/-- The entry of a header line whose first colon stands at `c`: the key is everything before
it, the value everything behind it from the first non-blank on. -/
def headerEntryOf (hline : StringView) (c : ℕ) : HeaderEntry where
  name := hline.substr 0 c
  value :=
    match (hline.bytes.drop (c + 1)).findIdx? fun b => !isBlank b with
    | some skip => hline.substrFrom (c + 1 + skip)
    | none => .empty

/-- What one header line does to the header array: a line without a colon is skipped, and so is
every further line once the array is full. -/
def storeHeaderLine (headers : HeaderArray) (hline : StringView) : HeaderArray :=
  match find [colon] hline.bytes with
  | none => headers
  | some c => headers.add (headerEntryOf hline c)

/-- The header loop of `parse_headers`, from position `pos` on. -/
def parseHeaderLoop (data : StringView) : ℕ → ℕ → HeaderArray → HeaderArray
  | 0, _, headers => headers
  | budget + 1, pos, headers =>
    if pos < data.size then
      match findFrom crlf data.bytes pos with
      | none => headers
      | some nextEnd =>
        if nextEnd = pos then headers
        else
          parseHeaderLoop data budget (nextEnd + 2)
            (storeHeaderLine headers (data.substr pos (nextEnd - pos)))
    else headers

/-- `detail::parse_headers`. -/
def parseHeaders (data : StringView) : Request :=
  match find crlf data.bytes with
  | none => .empty
  | some lineEnd =>
    let req := parseRequestLine (data.substr 0 lineEnd)
    { req with headers := parseHeaderLoop data data.size (lineEnd + 2) req.headers }

end Lundi
