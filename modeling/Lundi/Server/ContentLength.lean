import Lundi.Server.Framing

/-!
# The length of a request

Which bytes belong to a request is decided by the first stored `Content-Length` field alone.
Transfer codings and further length fields are not looked at, and neither is any field behind the
first `MAX_HEADERS`.

* `nextHead_of_contentLength`: on every run, what follows a head is framed by that field, and a
  head whose field is not a number in range ends the connection;
* `lookup_and_consumption`: header lookup, and what an iteration consumes.
-/

namespace Lundi

open Search Decimal

variable {maxBodySize : ℕ} {head val : Bytes}

theorem framing_of_none (h : firstContentLength head = none) :
    framing maxBodySize head = some 0 := by
  rw [framing, h]

/-- A field that does not begin with a digit is refused. -/
theorem framing_of_not_digit (h : firstContentLength head = some val)
    (hval : ∀ b ∈ val.head?, isDigit b = false) : framing maxBodySize head = none := by
  rw [framing, h]
  simp only [fromCharsSize_of_not_digit hval]

/-- A numeral is the length, unless it is too large. -/
theorem framing_of_isNumeral (hmax : maxBodySize < 2 ^ 64)
    (h : firstContentLength head = some val) (hval : IsNumeral val) :
    framing maxBodySize head = if value val ≤ maxBodySize then some (value val) else none := by
  rw [framing, h]
  simp only [fromCharsSize_of_isNumeral hval]
  by_cases hle : value val ≤ maxBodySize
  · rw [if_pos (hle.trans_lt hmax), if_pos hle]
    exact if_neg (by omega)
  · rw [if_neg hle]
    by_cases hlt : value val < 2 ^ 64
    · rw [if_pos hlt]
      exact if_pos (by omega)
    · rw [if_neg hlt]

/-- The bytes that a request with this head takes. -/
def frameLength (maxBodySize : ℕ) (head : Bytes) : ℕ :=
  head.length + (framing maxBodySize head).getD 0

/-- The position of an entry of a log in the stream. -/
def frameOffset (maxBodySize : ℕ) (log : List Exchange) (i : ℕ) : ℕ :=
  ((log.take i).map fun x => frameLength maxBodySize x.head).sum

/-- The head of an entry that stands at the front. -/
theorem HeadAt.length_head {stream : Bytes} {x : Exchange} (h : HeadAt stream x) :
    x.head.length = findHeaderEnd stream 0 := by
  rw [h.head_eq, List.length_take_of_le (findHeaderEnd_zero_le stream)]

/-- Every entry of a log that is served from a stream stands at its position, and one whose length
is refused is the last and has not been dispatched. -/
theorem Served.headAt {stream : Bytes} {log : List Exchange} (h : Served maxBodySize stream log)
    {i : ℕ} {x : Exchange} (hx : log[i]? = some x) :
    HeadAt (stream.drop (frameOffset maxBodySize log i)) x ∧
      (framing maxBodySize x.head = none → x.isDispatched = false ∧ log.length = i + 1) := by
  induction h generalizing i with
  | nil => simp at hx
  | @last stream y hhead hframe =>
    -- The only entry stands at the front; if its length is refused it is no frame.
    have hi : i = 0 ∧ y = x := by
      cases i with
      | zero => exact ⟨rfl, by simpa using hx⟩
      | succ i => simp at hx
    obtain ⟨rfl, rfl⟩ := hi
    refine ⟨hhead, fun hnone => ⟨?_, rfl⟩⟩
    by_contra hyes
    obtain ⟨n, rest, hframe⟩ := hframe (by simpa using hyes)
    rw [hframe.framing_eq] at hnone
    exact absurd hnone (by simp)
  | @cons stream rest y n log hframe hrest ih =>
    cases i with
    | zero =>
      -- An entry that others follow has a length.
      obtain rfl : y = x := by simpa using hx
      refine ⟨hframe.toHeadAt, fun hnone => ?_⟩
      rw [hframe.framing_eq] at hnone
      exact absurd hnone (by simp)
    | succ i =>
      obtain ⟨hhead, hnone⟩ := ih (i := i) (by simpa using hx)
      -- The frame of the first entry is what lies in front of the others.
      have hoffset : frameOffset maxBodySize (y :: log) (i + 1) =
          findHeaderEnd stream 0 + n + frameOffset maxBodySize log i := by
        rw [frameOffset, List.take_succ_cons, List.map_cons, List.sum_cons, frameLength,
          hframe.framing_eq, hframe.length_head]
        rfl
      rw [hoffset, ← List.drop_drop, ← hframe.rest_eq]
      exact ⟨hhead, fun h => by simpa using hnone h⟩

theorem frameOffset_succ (maxBodySize : ℕ) {log : List Exchange} {i : ℕ} {x : Exchange}
    (hx : log[i]? = some x) :
    frameOffset maxBodySize log (i + 1) =
      frameOffset maxBodySize log i + frameLength maxBodySize x.head := by
  rw [frameOffset, frameOffset, List.take_add_one, hx, List.map_append, List.sum_append]
  simp

variable {σ : Type}

/-- The log of a connection is served from the bytes the client sends. -/
theorem served_handleConnection (env : Env) (opts : ServerOptions) (app : App σ) (user : σ)
    (incoming : Bytes) :
    Served opts.maxBodySize incoming (handleConnection env opts app user incoming).log := by
  have h := served_runFor env opts app (incoming.length + 1) (.init user incoming)
  rwa [unread_init] at h

/-- How the bytes behind a head are read, on every run: there are positions in the stream at which
the heads of the log stand, such that

* a head whose first `Content-Length` field does not begin with a digit, or is a number above the
  limit, is not dispatched, and neither is anything behind it;
* without such a field the next head stands right behind the head;
* with a number in range the next head stands that many bytes behind it.

No other field of the head matters. -/
theorem nextHead_of_contentLength (env : Env) (opts : ServerOptions) (app : App σ) (user : σ)
    (incoming : Bytes) :
    ∃ position : ℕ → ℕ, position 0 = 0 ∧
      ∀ i x, (handleConnection env opts app user incoming).log[i]? = some x →
        x.head <+: incoming.drop (position i) ∧
        (∀ val, firstContentLength x.head = some val →
          ((∀ b ∈ val.head?, isDigit b = false) ∨
            (IsNumeral val ∧ opts.maxBodySize < value val)) →
          x.isDispatched = false ∧
            (handleConnection env opts app user incoming).log.length = i + 1) ∧
        (firstContentLength x.head = none → position (i + 1) = position i + x.head.length) ∧
        (∀ val, firstContentLength x.head = some val → IsNumeral val →
          value val ≤ opts.maxBodySize →
          position (i + 1) = position i + x.head.length + value val) := by
  have hserved := served_handleConnection env opts app user incoming
  refine ⟨frameOffset opts.maxBodySize (handleConnection env opts app user incoming).log, rfl,
    fun i x hx => ?_⟩
  -- The framing of the head at position `i` decides what happens and where the next one stands.
  obtain ⟨hhead, hnone⟩ := hserved.headAt hx
  have hnext := frameOffset_succ opts.maxBodySize hx
  rw [frameLength, ← Nat.add_assoc] at hnext
  refine ⟨?_, ?_, ?_, ?_⟩
  · rw [hhead.head_eq]
    exact List.take_prefix _ _
  · rintro val hval (hdigit | ⟨hnum, hlarge⟩)
    · exact hnone (framing_of_not_digit hval hdigit)
    · apply hnone
      rw [framing_of_isNumeral opts.maxBodySize_lt hval hnum, if_neg (by omega)]
  · intro habsent
    rw [hnext, framing_of_none habsent]
    rfl
  · intro val hval hnum hle
    rw [hnext, framing_of_isNumeral opts.maxBodySize_lt hval hnum, if_pos hle]
    rfl

/-! ### A concrete connection -/

/-- A network that is never slow. -/
def sampleNetwork : Network := fun _ => .ready 4096

/-- The environment of a server with an empty file system. -/
def sampleEnv (fs : FileSystem) : Env where
  net := sampleNetwork
  shuttingDown _ := false
  date _ := ascii "Sun, 06 Nov 1994 08:49:37 GMT"
  world _ := ⟨fs, ⟨fun _ => 0, fun _ => [], fun _ => none⟩⟩

/-- A file system with a single empty file. -/
def sampleFiles : FileSystem :=
  .single [] (ascii "a") [] (by simp) (by constructor <;> decide)

/-- The framing of a head is ambiguous: it has a transfer coding, several length fields that
differ, or a length field that is not a number. -/
def AmbiguousFraming (head : Bytes) : Prop :=
  valuesOf (ascii "transfer-encoding") (fields head) ≠ [] ∨
    (∃ v ∈ valuesOf (ascii "content-length") (fields head),
      ∃ w ∈ valuesOf (ascii "content-length") (fields head), v ≠ w) ∨
    ∃ v ∈ valuesOf (ascii "content-length") (fields head), ¬ IsNumeral v

/-- A request with a chunked body, whose body is a request. -/
def smuggled : Bytes :=
  ascii "POST / HTTP/1.1\r\nTransfer-Encoding: chunked\r\n\r\nGET /a HTTP/1.1\r\n\r\n"

/-- What stands behind an ambiguous head is dispatched. -/
theorem ambiguousFraming_smuggled :
    ¬ ∀ (env : Env) (opts : ServerOptions) (app : App Unit) (incoming : Bytes)
        (before after : List Exchange) (x : Exchange),
      (handleConnection env opts app () incoming).log = before ++ x :: after →
      AmbiguousFraming x.head → ∀ y ∈ after, y.isDispatched = false := by
  intro h
  have hrun : (handleConnection (sampleEnv sampleFiles) {} .empty () smuggled).log.map
      (fun x => (x.head, x.isDispatched)) =
        [(ascii "POST / HTTP/1.1\r\nTransfer-Encoding: chunked\r\n\r\n", true),
          (ascii "GET /a HTTP/1.1\r\n\r\n", true)] := by
    decide +kernel
  -- The second entry is the body of the first request.
  cases hlog : (handleConnection (sampleEnv sampleFiles) {} .empty () smuggled).log with
  | nil => simp [hlog] at hrun
  | cons x after =>
    rw [hlog, List.map_cons, List.cons.injEq, Prod.mk.injEq] at hrun
    obtain ⟨⟨hhead, -⟩, hafter⟩ := hrun
    have hambiguous : AmbiguousFraming x.head := by
      rw [hhead]
      exact Or.inl (by decide)
    cases after with
    | nil => simp at hafter
    | cons y after =>
      rw [List.map_cons, List.cons.injEq, Prod.mk.injEq] at hafter
      have hno := h _ _ _ _ [] (y :: after) x hlog hambiguous y List.mem_cons_self
      rw [hafter.1.2] at hno
      exact absurd hno (by simp)

/-! ### Header lookup -/

/-- A lookup finds the first of the first `MAX_HEADERS` fields with the name, and an iteration that
goes on has consumed the head and as many bytes as the first of their length fields says. -/
theorem lookup_and_consumption (opts : ServerOptions) :
    (∀ (data : StringView) (name : Bytes),
      ((parseHeaders data).findHeaderCi name).map StringView.bytes =
        (valuesOf name ((fields data.bytes).take maxHeaders)).head?) ∧
      ∀ (env : Env) (app : App σ) (c c' : ConnState σ) (x : Exchange),
        step env opts app c = .next c' x →
        ∃ n, c'.unread = c.unread.drop (x.head.length + n) ∧
          (firstContentLength x.head = none → n = 0) ∧
          ∀ val, firstContentLength x.head = some val → IsNumeral val → n = value val := by
  constructor
  · intro data name
    rw [findHeaderCi_eq, fieldsRead_parseHeaders]
  · intro env app c c' x hstep
    have hframes := stepFrames_step env opts app c
    rw [hstep] at hframes
    cases hframes with
    | @next _ _ n hframe _ =>
      -- The iteration has consumed a frame, whose length is the one the head stands for.
      refine ⟨n, by rw [hframe.rest_eq, hframe.length_head], fun hnone => ?_,
        fun val hval hnum => ?_⟩
      · have := hframe.framing_eq
        rw [framing_of_none hnone] at this
        exact (Option.some_inj.mp this).symm
      · have := hframe.framing_eq
        rw [framing_of_isNumeral opts.maxBodySize_lt hval hnum] at this
        split at this
        · exact (Option.some_inj.mp this).symm
        · exact absurd this (by simp)

/-- A head with 33 fields, the last of which is a length field. -/
def crowdedHead : Bytes :=
  ascii "POST / HTTP/1.1\r\n" ++ (List.replicate 32 (ascii "A: b\r\n")).flatten ++
    ascii "Content-Length: 5\r\n\r\n"

/-- The length field of a crowded head is not found. -/
theorem lookup_crowdedHead :
    ¬ ∀ (data : StringView) (name : Bytes),
      ((parseHeaders data).findHeaderCi name).map StringView.bytes =
        (valuesOf name (fields data.bytes)).head? := by
  intro h
  -- The field is the 33rd, one more than the parser stores.
  have hne : ((parseHeaders ⟨.null, 0, crowdedHead⟩).findHeaderCi
      (ascii "content-length")).map StringView.bytes ≠
        (valuesOf (ascii "content-length") (fields crowdedHead)).head? := by
    decide +kernel
  exact hne (h ⟨.null, 0, crowdedHead⟩ (ascii "content-length"))

end Lundi
