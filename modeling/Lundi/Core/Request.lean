import Lundi.Core.Exception
import Lundi.Core.StringView
import Mathlib.Data.Int.Notation

/-!
# Requests

`lundi::request`: the parsed request line, the fixed array of header entries, the route and query
parameters and the body, with the header lookups that the server and the handlers use. Strings
that the request owns are byte strings; the fields that point into the read buffer are views.

The lazily filled cookie and form caches are not part of the model: they are functions of the
headers and the body.
-/

namespace Lundi

/-- `request::MAX_HEADERS`. -/
def maxHeaders : ℕ := 32

/-- `request::header_entry`. -/
structure HeaderEntry where
  /-- The name, in the client's case. -/
  name : StringView
  /-- The value. -/
  value : StringView

/-- The used part of `headers_arr`, with `num_headers` its length. -/
structure HeaderArray where
  /-- The stored entries, in the order of their lines. -/
  entries : List HeaderEntry
  /-- The array has `MAX_HEADERS` places. -/
  length_le : entries.length ≤ maxHeaders

/-- No header has been stored. -/
def HeaderArray.empty : HeaderArray := ⟨[], Nat.zero_le _⟩

/-- Store an entry while `num_headers < MAX_HEADERS`; a full array is left as it is. -/
def HeaderArray.add (a : HeaderArray) (e : HeaderEntry) : HeaderArray :=
  if h : a.entries.length < maxHeaders then
    ⟨a.entries ++ [e], by rw [List.length_append]; exact h⟩
  else a

/-- The stored entries are the first `MAX_HEADERS` that were offered. -/
theorem HeaderArray.entries_add (a : HeaderArray) (e : HeaderEntry) :
    (a.add e).entries = (a.entries ++ [e]).take maxHeaders := by
  have hle := a.length_le
  unfold add
  split
  next h => rw [List.take_of_length_le (by rw [List.length_append]; exact h)]
  next h =>
    rw [List.take_append_of_le_length (by omega), List.take_of_length_le hle]

/-- `param_value`. -/
inductive ParamValue
  | int (value : ℤ)
  | string (value : Bytes)
  deriving DecidableEq

/-- `request::param_entry`. -/
structure ParamEntry where
  /-- The parameter name of the pattern. -/
  name : Bytes
  /-- The captured value. -/
  value : ParamValue
  deriving DecidableEq

/-- `detail::query_entry`. -/
structure QueryEntry where
  /-- The decoded name. -/
  name : Bytes
  /-- The decoded value. -/
  value : Bytes
  deriving DecidableEq

/-- `lundi::request`. -/
structure Request where
  /-- The method, a view. -/
  method : StringView
  /-- The decoded path, owned. -/
  path : Bytes
  /-- The request target, a view. -/
  rawPath : StringView
  /-- The body, a view. -/
  body : StringView
  /-- The stored headers. -/
  headers : HeaderArray
  /-- The route parameters. -/
  params : List ParamEntry
  /-- The decoded query parameters, owned. -/
  queryParams : List QueryEntry

namespace Request

/-- A default-constructed request. -/
def empty : Request where
  method := .empty
  path := []
  rawPath := .empty
  body := .empty
  headers := .empty
  params := []
  queryParams := []

/-- `param_str`: the value of the first parameter with the name. `std::get` throws when it is a
number, and a missing parameter reads as the empty string. -/
def paramStr (req : Request) (name : Bytes) : Except Exception Bytes :=
  match req.params.find? fun p => p.name == name with
  | some ⟨_, .string value⟩ => .ok value
  | some ⟨_, .int _⟩ => .error (.standard (ascii "std::get: wrong index for variant"))
  | none => .ok []

/-- `param_int`: the same for a number; a missing parameter reads as zero. -/
def paramInt (req : Request) (name : Bytes) : Except Exception ℤ :=
  match req.params.find? fun p => p.name == name with
  | some ⟨_, .int value⟩ => .ok value
  | some ⟨_, .string _⟩ => .error (.standard (ascii "std::get: wrong index for variant"))
  | none => .ok 0

/-- `find_header_ci`: the value of the first stored entry with this name, ignoring case. -/
def findHeaderCi (req : Request) (name : Bytes) : Option StringView :=
  (req.headers.entries.find? fun e => equalsIgnoreCase e.name.bytes name).map HeaderEntry.value

/-- `find_header`, an alias. -/
def findHeader (req : Request) (lowercaseName : Bytes) : Option StringView :=
  req.findHeaderCi lowercaseName

/-- `header`: the value, or an empty view. -/
def header (req : Request) (name : Bytes) : StringView :=
  (req.findHeaderCi name).getD .empty

/-- `header_equals`: the header is present and its value is `value`, ignoring case. -/
def headerEquals (req : Request) (name value : Bytes) : Bool :=
  match req.findHeaderCi name with
  | none => false
  | some v => equalsIgnoreCase v.bytes value

end Request

end Lundi
