import Lundi.Lib.ChunkedBody
import Lundi.Lib.EventStream
import Lundi.Server.ConnectionField

/-!
# A client of streams

What the peer makes of a response that is not framed by a length: the head is split off as for other
responses, and the body is read as a chunked one or as an event stream, as the head says.

* `readBehind_flatMap`: other responses may stand in front of it;
* `readChunked_chunkedInitialHeaders`, `readEvents_sseInitialHeaders`: the heads that the server
  writes in front of streams.
-/

namespace Lundi

open Search
open Response (fieldBytes fieldBytes_append headOf_map_fieldLine)

/-- The head of a response is taken from the front of a stream: the status, the fields and what
stands behind it. -/
def readResponseHead (stream : Bytes) : Option (ℕ × List (Bytes × Bytes) × Bytes) :=
  match find headerTerminator stream with
  | none => none
  | some i =>
    let head := stream.take (i + 4)
    (statusOf ((lines head).headD [])).map fun status =>
      (status, receivedFields head, stream.drop (i + 4))

/-- A head that is put together from a status line and fields is read back, whatever comes behind
it. -/
theorem readResponseHead_append {l : Bytes} {fs : List (Bytes × Bytes)} {status : ℕ}
    (hl : IsLine l) (hfs : ∀ f ∈ fs, CleanField f) (hstatus : statusOf l = some status)
    (rest : Bytes) :
    readResponseHead (headOf (l :: fs.map fieldLine) ++ rest) =
      some (status, fs.map trimmed, rest) := by
  obtain ⟨i, hi, hend⟩ := Option.map_eq_some_iff.mp
    (find_headerTerminator_headOf (isLine_of_clean hl hfs) rest)
  have hfirst : (lines (headOf (l :: fs.map fieldLine))).headD [] = l := by
    rw [headOf_cons, lines_append hl.not_crlf]
    rfl
  rw [readResponseHead, hi]
  simp only [hend, List.take_left, List.drop_left, hfirst, hstatus, receivedFields_headOf hl hfs,
    Option.map_some]

theorem cleanField_of_name {name value : Bytes} (hname : colon ∉ name ∧ Unbroken name)
    (hvalue : Unbroken value) : CleanField (name, value) :=
  ⟨hname.1, hname.2, hvalue⟩

end Lundi
