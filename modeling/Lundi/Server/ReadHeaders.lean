import Lundi.Engine.Buffer
import Lundi.Engine.HeaderScan
import Lundi.Engine.Socket

/-!
# Reading the head of a request

`app::read_headers` and `app::read_headers_with_timeout`. The bytes of a connection that have not
been consumed yet are its `pending` bytes: those in the read buffer and those still to come.

* `readHeaders_sound`: whatever the network does, a head that is returned is the shortest initial
  part of the pending bytes that ends in a terminator, and no pending byte is lost;
* `readHeaders_complete`: over a calm network a head that fits is returned, however the bytes are
  cut.
-/

namespace Lundi

/-- The bytes that have not been consumed: in the buffer and still to come. -/
def pending (buffer : ReadBuffer) (s : Socket) : Bytes := buffer.contents ++ s.incoming

/-- The loop of `read_headers`, with the number of reads bounded by `budget`. -/
def readHeadersLoop (net : Network) (maxSize : ℕ) :
    ℕ → ℕ → ReadBuffer → Awaitable (ℕ × ReadBuffer)
  | 0, _, _ => .suspend
  | budget + 1, scanStart, buffer =>
    if buffer.size ≥ maxSize then pure (0, buffer)
    else do
      let buffer := buffer.ensureWrite 4096
      let chunk ← asyncReadSome net buffer.writeCapacity
      let buffer := buffer.receive chunk
      let headerEnd := findHeaderEnd buffer.contents scanStart
      if headerEnd > 0 then pure (headerEnd, buffer)
      else readHeadersLoop net maxSize budget buffer.size buffer

/-- The scan of what is in the buffer already. -/
def scanBuffered (buffer : ReadBuffer) : ℕ :=
  if buffer.isEmpty then 0 else findHeaderEnd buffer.contents 0

/-- `app::read_headers`: the position behind the head, or `0`, and the buffer. Every read takes at
least one byte from the socket, so there are no more reads than bytes, and one that fails. -/
def readHeaders (net : Network) (maxSize : ℕ) (buffer : ReadBuffer) :
    Awaitable (ℕ × ReadBuffer) := fun s =>
  if scanBuffered buffer > 0 then (.done (scanBuffered buffer, buffer), s)
  else (readHeadersLoop net maxSize (s.incoming.length + 1) buffer.size buffer).run s

/-- An operation next to a timer, joined by `||`: the first to succeed wins. An operation that
fails or does not end leaves the timer to win. -/
def orTimeout {α : Type} (x : Awaitable α) : Awaitable (Option α) := fun s =>
  match x.run s with
  | (.done a, s) => (.done (some a), s)
  | (.raised _, s) => (.done none, s)
  | (.suspended, s) => (.done none, s)

/-- `app::read_headers_with_timeout`. -/
def readHeadersWithTimeout (net : Network) (maxSize : ℕ) (buffer : ReadBuffer) :
    Awaitable (ℕ × ReadBuffer) := do
  match ← orTimeout (readHeaders net maxSize buffer) with
  | some result => pure result
  | none => pure (0, buffer)

variable {net : Network}

/-- The timer wins against everything but a value. -/
theorem run_orTimeout {α : Type} (x : Awaitable α) (s : Socket) :
    (orTimeout x).run s = match x.run s with
      | (.done a, s) => (.done (some a), s)
      | (.raised _, s) => (.done none, s)
      | (.suspended, s) => (.done none, s) := rfl

/-! ### One read -/

/-- A read takes its bytes from the front of the incoming ones, and no more than there is room. -/
theorem asyncReadSome_sound {capacity : ℕ} {s s' : Socket} {chunk : Bytes}
    (h : (asyncReadSome net capacity).run s = (.done chunk, s')) :
    s.incoming = chunk ++ s'.incoming ∧ chunk.length ≤ capacity ∧ s'.outgoing = s.outgoing ∧
      s.now < s'.now ∧ (0 < capacity → chunk ≠ []) := by
  simp only [Awaitable.run, asyncReadSome] at h
  split at h
  next available _ =>
    split at h
    · exact absurd h (by simp)
    next hne =>
      obtain ⟨hchunk, rfl⟩ := Prod.mk.inj h
      obtain rfl := IoResult.done.inj hchunk
      refine ⟨(List.take_append_drop _ _).symm, ?_, rfl, Nat.lt_succ_self _, fun hpos hnil => ?_⟩
      · rw [List.length_take]
        omega
      · have hlen := congrArg List.length hnil
        have hin := List.length_pos_iff.mpr hne
        rw [List.length_take, List.length_nil] at hlen
        omega
  · exact absurd h (by simp)
  · exact absurd h (by simp)

/-- Over a calm network a read delivers something unless the peer has closed. -/
theorem exists_run_asyncReadSome (hcalm : net.Calm) (capacity : ℕ) {s : Socket}
    (h : s.incoming ≠ []) :
    ∃ chunk s', (asyncReadSome net capacity).run s = (.done chunk, s') := by
  obtain ⟨n, hn⟩ := hcalm s.now
  simp [Awaitable.run, asyncReadSome, hn, h]

/-- A read moves bytes from the socket to the buffer. -/
theorem pending_receive {buffer : ReadBuffer} {s s' : Socket} {chunk : Bytes}
    (hin : s.incoming = chunk ++ s'.incoming)
    (hlen : chunk.length ≤ (buffer.ensureWrite 4096).writeCapacity) :
    pending ((buffer.ensureWrite 4096).receive chunk) s' = pending buffer s := by
  rw [pending, pending, ReadBuffer.contents_receive _ hlen, ReadBuffer.contents_ensureWrite, hin,
    List.append_assoc]

/-- After a scan that found nothing, the scan of the bytes a read has added finds what a scan from
the start finds. -/
theorem findHeaderEnd_receive {buffer : ReadBuffer} {chunk : Bytes}
    (hnone : findHeaderEnd buffer.contents 0 = 0)
    (hlen : chunk.length ≤ (buffer.ensureWrite 4096).writeCapacity) :
    findHeaderEnd ((buffer.ensureWrite 4096).receive chunk).contents buffer.size =
      findHeaderEnd ((buffer.ensureWrite 4096).receive chunk).contents 0 := by
  rw [ReadBuffer.contents_receive _ hlen, ReadBuffer.contents_ensureWrite,
    ← buffer.length_contents]
  exact findHeaderEnd_append hnone chunk

/-! ### The loop -/

/-- What is known when a head has been read, or when none will come. -/
structure HeadRead (buffer : ReadBuffer) (s : Socket) (headerEnd : ℕ) (buffer' : ReadBuffer)
    (s' : Socket) : Prop where
  pending_eq : pending buffer' s' = pending buffer s
  outgoing_eq : s'.outgoing = s.outgoing
  now_le : s.now ≤ s'.now
  headerEnd_eq : 0 < headerEnd → headerEnd = findHeaderEnd (pending buffer s) 0
  headerEnd_le : headerEnd ≤ buffer'.size

/-- The loop, entered with a buffer without a terminator. -/
theorem readHeadersLoop_sound {maxSize budget : ℕ} {buffer buffer' : ReadBuffer} {s s' : Socket}
    {headerEnd : ℕ} (hnone : findHeaderEnd buffer.contents 0 = 0)
    (h : (readHeadersLoop net maxSize budget buffer.size buffer).run s =
      (.done (headerEnd, buffer'), s')) : HeadRead buffer s headerEnd buffer' s' := by
  induction budget generalizing buffer s with
  | zero => exact absurd h (by simp [readHeadersLoop, Awaitable.suspend, Awaitable.run])
  | succ budget ih =>
    rw [readHeadersLoop] at h
    split at h
    · -- The buffer holds as many bytes as a head may have.
      obtain ⟨hdone, rfl⟩ := Prod.mk.inj h
      obtain ⟨rfl, rfl⟩ := Prod.mk.inj (IoResult.done.inj hdone)
      exact ⟨rfl, rfl, le_rfl, fun hpos => absurd hpos (lt_irrefl _), Nat.zero_le _⟩
    · rw [Awaitable.run_bind] at h
      split at h
      next chunk mid hread =>
        obtain ⟨hin, hlen, hout, hnow, -⟩ := asyncReadSome_sound hread
        have hpending := pending_receive hin hlen
        simp only [findHeaderEnd_receive hnone hlen] at h
        split at h
        next hpos =>
          -- The head is complete; what is still to come does not move its end.
          obtain ⟨hdone, rfl⟩ := Prod.mk.inj h
          obtain ⟨rfl, rfl⟩ := Prod.mk.inj (IoResult.done.inj hdone)
          refine ⟨hpending, hout, hnow.le, fun _ => ?_, ?_⟩
          · rw [← hpending, pending]
            exact (findHeaderEnd_append_of_ne_zero (by omega) _).symm
          · rw [← ReadBuffer.length_contents]
            exact findHeaderEnd_zero_le _
        next hzero =>
          have hrest := ih (by omega) h
          exact ⟨hrest.pending_eq.trans hpending, hrest.outgoing_eq.trans hout,
            hnow.le.trans hrest.now_le, fun hpos => by rw [hrest.headerEnd_eq hpos, hpending],
            hrest.headerEnd_le⟩
      · exact absurd h (by simp)
      · exact absurd h (by simp)

/-- Over a calm network the loop finds a head that fits. The induction is on the number of reads;
each takes at least one byte of the finitely many to come. -/
theorem readHeadersLoop_complete (hcalm : net.Calm) {maxSize budget : ℕ} {buffer : ReadBuffer}
    {s : Socket} (hnone : findHeaderEnd buffer.contents 0 = 0)
    (hhead : findHeaderEnd (pending buffer s) 0 ≠ 0)
    (hfits : findHeaderEnd (pending buffer s) 0 ≤ maxSize)
    (hbudget : s.incoming.length < budget) :
    ∃ result s', (readHeadersLoop net maxSize budget buffer.size buffer).run s =
      (.done result, s') ∧ 0 < result.1 := by
  induction budget generalizing buffer s with
  | zero => exact absurd hbudget (Nat.not_lt_zero _)
  | succ budget ih =>
    -- The head is not complete, so the buffer is below the limit and there are bytes to come.
    have hsize : buffer.size < findHeaderEnd (pending buffer s) 0 := by
      rw [← buffer.length_contents]
      exact length_lt_findHeaderEnd hnone hhead
    have hin : s.incoming ≠ [] := by
      intro hnil
      rw [pending, hnil, List.append_nil] at hhead
      exact hhead hnone
    obtain ⟨chunk, mid, hread⟩ :=
      exists_run_asyncReadSome hcalm (buffer.ensureWrite 4096).writeCapacity hin
    obtain ⟨hcut, hlen, -, -, hchunk⟩ := asyncReadSome_sound hread
    have hpending := pending_receive hcut hlen
    have hroom : 0 < (buffer.ensureWrite 4096).writeCapacity :=
      lt_of_lt_of_le (by omega) (ReadBuffer.le_writeCapacity_ensureWrite _ _)
    have hshorter : mid.incoming.length < s.incoming.length := by
      have := List.length_pos_iff.mpr (hchunk hroom)
      rw [hcut, List.length_append]
      omega
    rw [readHeadersLoop, if_neg (by omega), Awaitable.run_bind_of_done hread]
    simp only [findHeaderEnd_receive hnone hlen]
    split
    next hpos => exact ⟨_, _, rfl, hpos⟩
    next hzero =>
      exact ih (by omega) (by rwa [hpending]) (by rwa [hpending]) (by omega)

/-! ### The whole function -/

theorem scanBuffered_eq (buffer : ReadBuffer) :
    scanBuffered buffer = findHeaderEnd buffer.contents 0 := by
  unfold scanBuffered
  split
  next hempty =>
    have hsize : buffer.size = 0 := by simpa [ReadBuffer.isEmpty] using hempty
    have hnil : buffer.contents = [] := List.eq_nil_of_length_eq_zero (by simpa using hsize)
    rw [hnil]
    rfl
  next => rfl

/-- Whatever the network does, a head that is returned is the one at the front of the pending
bytes, and no pending byte is lost. -/
theorem readHeaders_sound {maxSize : ℕ} {buffer buffer' : ReadBuffer} {s s' : Socket}
    {headerEnd : ℕ}
    (h : (readHeaders net maxSize buffer).run s = (.done (headerEnd, buffer'), s')) :
    HeadRead buffer s headerEnd buffer' s' := by
  rw [Awaitable.run, readHeaders, scanBuffered_eq] at h
  by_cases hpos : findHeaderEnd buffer.contents 0 > 0
  · rw [if_pos hpos] at h
    obtain ⟨hdone, rfl⟩ := Prod.mk.inj h
    obtain ⟨rfl, rfl⟩ := Prod.mk.inj (IoResult.done.inj hdone)
    refine ⟨rfl, rfl, le_rfl, fun _ => ?_, ?_⟩
    · rw [pending, findHeaderEnd_append_of_ne_zero hpos.ne']
    · rw [← ReadBuffer.length_contents]
      exact findHeaderEnd_zero_le _
  · rw [if_neg hpos] at h
    exact readHeadersLoop_sound (by omega) h

/-- Over a calm network a head that fits is returned. -/
theorem readHeaders_complete (hcalm : net.Calm) {maxSize : ℕ} {buffer : ReadBuffer} {s : Socket}
    (hhead : findHeaderEnd (pending buffer s) 0 ≠ 0)
    (hfits : findHeaderEnd (pending buffer s) 0 ≤ maxSize) :
    ∃ result s', (readHeaders net maxSize buffer).run s = (.done result, s') ∧ 0 < result.1 := by
  rw [Awaitable.run, readHeaders, scanBuffered_eq]
  by_cases hpos : findHeaderEnd buffer.contents 0 > 0
  · rw [if_pos hpos]
    exact ⟨_, _, rfl, hpos⟩
  · rw [if_neg hpos]
    exact readHeadersLoop_complete hcalm (by omega) hhead hfits (Nat.lt_succ_self _)

/-- The timer next to it does not let another head through. -/
theorem readHeadersWithTimeout_eq_iff {maxSize : ℕ} {buffer buffer' : ReadBuffer} {s s' : Socket}
    {headerEnd : ℕ} (hpos : 0 < headerEnd) :
    (readHeadersWithTimeout net maxSize buffer).run s = (.done (headerEnd, buffer'), s') ↔
      (readHeaders net maxSize buffer).run s = (.done (headerEnd, buffer'), s') := by
  rw [readHeadersWithTimeout, Awaitable.run_bind, run_orTimeout]
  -- When the timer wins there is no head.
  have hlost : ∀ mid : Socket,
      (IoResult.done (0, buffer), mid) ≠ (.done (headerEnd, buffer'), s') := by
    intro mid heq
    obtain ⟨rfl, -⟩ := Prod.mk.inj (IoResult.done.inj (Prod.mk.inj heq).1)
    exact absurd hpos (lt_irrefl _)
  cases hread : (readHeaders net maxSize buffer).run s with
  | mk result mid =>
    cases result with
    | done a => exact Iff.rfl
    | raised e => exact iff_of_false (hlost mid) (by simp)
    | suspended => exact iff_of_false (hlost mid) (by simp)

/-- With the timer next to it, a head that is returned is still the one at the front. -/
theorem readHeadersWithTimeout_sound {maxSize : ℕ} {buffer buffer' : ReadBuffer} {s s' : Socket}
    {headerEnd : ℕ} (hpos : 0 < headerEnd)
    (h : (readHeadersWithTimeout net maxSize buffer).run s =
      (.done (headerEnd, buffer'), s')) : HeadRead buffer s headerEnd buffer' s' :=
  readHeaders_sound ((readHeadersWithTimeout_eq_iff hpos).mp h)

/-- Over a calm network the timer does not matter. -/
theorem readHeadersWithTimeout_complete (hcalm : net.Calm) {maxSize : ℕ} {buffer : ReadBuffer}
    {s : Socket} (hhead : findHeaderEnd (pending buffer s) 0 ≠ 0)
    (hfits : findHeaderEnd (pending buffer s) 0 ≤ maxSize) :
    ∃ result s', (readHeadersWithTimeout net maxSize buffer).run s = (.done result, s') ∧
      0 < result.1 := by
  obtain ⟨result, s', hread, hpos⟩ := readHeaders_complete hcalm hhead hfits
  refine ⟨result, s', ?_, hpos⟩
  rw [readHeadersWithTimeout, Awaitable.run_bind, run_orTimeout, hread]
  rfl

end Lundi
