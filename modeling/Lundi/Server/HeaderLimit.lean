import Lundi.Server.Exceptions

/-!
# The limit on the length of a head

`read_headers` compares the number of buffered bytes with `max_header_size` before each read, and
nothing else: a read fills whatever room the buffer has, and what an earlier request left in the
buffer is scanned without a test. A head that is longer than the limit is refused only if a read
ends between the limit and the end of the head.

* `readHeaders_eq_iff`: which reads let a head through;
* `not_accepts_iff`: a head longer than the limit is refused exactly where a read is cut before its
  end;
* `head_limit_handleConnection`: a connection on which there is always such a cut.
-/

namespace Lundi

/-! ### The reads of a loop -/

/-- A read of `read_headers` that completes leaves this buffer and this socket. -/
def readOnce (net : Network) (buffer : ReadBuffer) (s : Socket) : Option (ReadBuffer × Socket) :=
  let buffer := buffer.ensureWrite 4096
  match (asyncReadSome net buffer.writeCapacity).run s with
  | (.done chunk, s) => some (buffer.receive chunk, s)
  | _ => none

/-- Several reads, one behind the other. -/
def readTimes (net : Network) : ℕ → ReadBuffer → Socket → Option (ReadBuffer × Socket)
  | 0, buffer, s => some (buffer, s)
  | k + 1, buffer, s => (readOnce net buffer s).bind fun next => readTimes net k next.1 next.2

/-- The number of buffered bytes after `k` reads: where the network cuts the byte stream. -/
def sizeAfter (net : Network) (buffer : ReadBuffer) (s : Socket) (k : ℕ) : Option ℕ :=
  (readTimes net k buffer s).map fun next => next.1.size

/-- Where reads would complete a head that is longer than the limit, an earlier one ends between
the limit and the end of the head. -/
def CutBeforeEnd (net : Network) (maxSize : ℕ) (buffer : ReadBuffer) (s : Socket) : Prop :=
  maxSize < findHeaderEnd (pending buffer s) 0 →
    ∀ k size, sizeAfter net buffer s k = some size →
      findHeaderEnd (pending buffer s) 0 ≤ size →
        ∃ j < k, ∃ n, sizeAfter net buffer s j = some n ∧ maxSize ≤ n ∧
          n < findHeaderEnd (pending buffer s) 0

/-- Reads complete the head, each from a buffer below the limit. -/
def ReadsThrough (net : Network) (maxSize : ℕ) (buffer : ReadBuffer) (s : Socket) : Prop :=
  ∃ k size, sizeAfter net buffer s k = some size ∧ findHeaderEnd (pending buffer s) 0 ≤ size ∧
    ∀ j < k, ∀ n, sizeAfter net buffer s j = some n → n < maxSize

variable {net : Network} {maxSize : ℕ} {buffer : ReadBuffer} {s : Socket}

@[simp]
theorem sizeAfter_zero : sizeAfter net buffer s 0 = some buffer.size := rfl

theorem sizeAfter_succ {buffer' : ReadBuffer} {s' : Socket}
    (h : readOnce net buffer s = some (buffer', s')) (k : ℕ) :
    sizeAfter net buffer s (k + 1) = sizeAfter net buffer' s' k := by
  rw [sizeAfter, readTimes, h]
  rfl

theorem sizeAfter_succ_of_none (h : readOnce net buffer s = none) (k : ℕ) :
    sizeAfter net buffer s (k + 1) = none := by
  rw [sizeAfter, readTimes, h]
  rfl

/-- A read that completes is one of `async_read_some`. -/
theorem readOnce_eq_some_iff {buffer' : ReadBuffer} {s' : Socket} :
    readOnce net buffer s = some (buffer', s') ↔
      ∃ chunk, (asyncReadSome net (buffer.ensureWrite 4096).writeCapacity).run s =
        (.done chunk, s') ∧ (buffer.ensureWrite 4096).receive chunk = buffer' := by
  simp only [readOnce]
  constructor
  · intro h
    split at h
    next chunk s'' hread =>
      obtain ⟨rfl, rfl⟩ := Prod.mk.inj (Option.some_inj.mp h)
      exact ⟨chunk, hread, rfl⟩
    · exact absurd h (by simp)
  · rintro ⟨chunk, hread, rfl⟩
    rw [hread]

/-- A head that is not in the buffer takes at least one read. -/
theorem ReadsThrough.of_short (h : ReadsThrough net maxSize buffer s)
    (hshort : buffer.size < findHeaderEnd (pending buffer s) 0) :
    ∃ k size, sizeAfter net buffer s (k + 1) = some size ∧
      findHeaderEnd (pending buffer s) 0 ≤ size ∧
        ∀ j < k + 1, ∀ n, sizeAfter net buffer s j = some n → n < maxSize := by
  obtain ⟨k, size, hsize, hend, hall⟩ := h
  cases k with
  | zero =>
    rw [sizeAfter_zero] at hsize
    obtain rfl := Option.some_inj.mp hsize
    omega
  | succ k => exact ⟨k, size, hsize, hend, hall⟩

/-- Reads that go on behind one that is cut below the limit. -/
theorem readsThrough_iff_of_readOnce {buffer' : ReadBuffer} {s' : Socket}
    (hread : readOnce net buffer s = some (buffer', s'))
    (hpending : pending buffer' s' = pending buffer s) (hbelow : buffer.size < maxSize)
    (hshort : buffer.size < findHeaderEnd (pending buffer s) 0) :
    ReadsThrough net maxSize buffer s ↔ ReadsThrough net maxSize buffer' s' := by
  constructor
  · intro h
    -- The head ends behind the first read, so that the run from there is one read shorter.
    obtain ⟨k, size, hsize, hend, hall⟩ := h.of_short hshort
    rw [sizeAfter_succ hread] at hsize
    refine ⟨k, size, hsize, by rwa [hpending], fun j hj n hn => ?_⟩
    exact hall (j + 1) (by omega) n (by rwa [sizeAfter_succ hread])
  · rintro ⟨k, size, hsize, hend, hall⟩
    refine ⟨k + 1, size, by rwa [sizeAfter_succ hread], by rwa [← hpending], fun j hj n hn => ?_⟩
    cases j with
    | zero =>
      rw [sizeAfter_zero] at hn
      obtain rfl := Option.some_inj.mp hn
      exact hbelow
    | succ j =>
      rw [sizeAfter_succ hread] at hn
      exact hall j (by omega) n hn

/-- For a head that is longer than the limit, the reads let it through exactly where none is cut
before its end. -/
theorem not_cutBeforeEnd_iff (hover : maxSize < findHeaderEnd (pending buffer s) 0) :
    ¬ CutBeforeEnd net maxSize buffer s ↔ ReadsThrough net maxSize buffer s := by
  classical
  constructor
  · intro hno
    simp only [CutBeforeEnd, not_forall] at hno
    obtain ⟨-, k, size, hsize, hend, hcut⟩ := hno
    -- The first of the reads that reach the end of the head.
    have hexists : ∃ k, ∃ size, sizeAfter net buffer s k = some size ∧
        findHeaderEnd (pending buffer s) 0 ≤ size := ⟨k, size, hsize, hend⟩
    obtain ⟨first, hfirst, hend'⟩ := Nat.find_spec hexists
    have hle : Nat.find hexists ≤ k := Nat.find_min' hexists ⟨size, hsize, hend⟩
    refine ⟨Nat.find hexists, first, hfirst, hend', fun j hj n hn => ?_⟩
    have hbefore : n < findHeaderEnd (pending buffer s) 0 := by
      by_contra hge
      exact Nat.find_min hexists hj ⟨n, hn, not_lt.mp hge⟩
    by_contra hge
    exact hcut ⟨j, by omega, n, hn, not_lt.mp hge, hbefore⟩
  · rintro ⟨k, size, hsize, hend, hall⟩ hcut
    obtain ⟨j, hj, n, hn, hge, -⟩ := hcut hover k size hsize hend
    exact absurd (hall j hj n hn) (not_lt.mpr hge)

/-! ### The loop -/

/-- A read that completes leaves the pending bytes as they are and takes at least one of them. -/
theorem pending_readOnce {buffer' : ReadBuffer} {s' : Socket}
    (h : readOnce net buffer s = some (buffer', s')) :
    pending buffer' s' = pending buffer s ∧ s'.incoming.length < s.incoming.length := by
  obtain ⟨chunk, hread, rfl⟩ := readOnce_eq_some_iff.mp h
  obtain ⟨hin, hlen, -, -, hchunk⟩ := asyncReadSome_sound hread
  refine ⟨pending_receive hin hlen, ?_⟩
  have hroom : 0 < (buffer.ensureWrite 4096).writeCapacity :=
    Nat.lt_of_lt_of_le (by omega) (ReadBuffer.le_writeCapacity_ensureWrite _ _)
  have hpos := List.length_pos_iff.mpr (hchunk hroom)
  rw [hin, List.length_append]
  omega

/-- The loop, in terms of its reads. -/
theorem readHeadersLoop_succ (net : Network) (s : Socket)
    (hnone : findHeaderEnd buffer.contents 0 = 0) (hbelow : buffer.size < maxSize) (budget : ℕ) :
    (∀ buffer' s', readOnce net buffer s = some (buffer', s') →
      (readHeadersLoop net maxSize (budget + 1) buffer.size buffer).run s =
        if findHeaderEnd buffer'.contents 0 > 0 then
          (.done (findHeaderEnd buffer'.contents 0, buffer'), s')
        else (readHeadersLoop net maxSize budget buffer'.size buffer').run s') ∧
      (readOnce net buffer s = none → ∀ result s',
        (readHeadersLoop net maxSize (budget + 1) buffer.size buffer).run s ≠
          (.done result, s')) := by
  rw [readHeadersLoop, if_neg (by omega)]
  refine ⟨fun buffer' s' hread => ?_, fun hread result s' hrun => ?_⟩
  · obtain ⟨chunk, hchunk, rfl⟩ := readOnce_eq_some_iff.mp hread
    obtain ⟨-, hlen, -⟩ := asyncReadSome_sound hchunk
    rw [Awaitable.run_bind_of_done hchunk]
    simp only [findHeaderEnd_receive hnone hlen]
    split <;> rfl
  · obtain ⟨chunk, mid, hchunk, -⟩ := Awaitable.run_bind_eq_done_iff.mp hrun
    have hsome := readOnce_eq_some_iff.mpr ⟨chunk, hchunk, rfl⟩
    rw [hread] at hsome
    exact absurd hsome (by simp)

/-- Which reads let a head through the loop. The induction is on the number of reads. -/
theorem readHeadersLoop_eq_iff {budget : ℕ} (hnone : findHeaderEnd buffer.contents 0 = 0)
    (hhead : findHeaderEnd (pending buffer s) 0 ≠ 0) (hbudget : s.incoming.length < budget) :
    (∃ headerEnd buffer' s', (readHeadersLoop net maxSize budget buffer.size buffer).run s =
      (.done (headerEnd, buffer'), s') ∧ 0 < headerEnd) ↔ ReadsThrough net maxSize buffer s := by
  induction budget generalizing buffer s with
  | zero => exact absurd hbudget (Nat.not_lt_zero _)
  | succ budget ih =>
    have hshort : buffer.size < findHeaderEnd (pending buffer s) 0 := by
      rw [← buffer.length_contents]
      exact length_lt_findHeaderEnd hnone hhead
    by_cases hbelow : buffer.size < maxSize
    · obtain ⟨hsome, hstop⟩ := readHeadersLoop_succ net s hnone hbelow budget
      cases hread : readOnce net buffer s with
      | none =>
        -- The read fails or hangs, so no head comes.
        apply iff_of_false
        · rintro ⟨headerEnd, buffer', s', hrun, -⟩
          exact hstop hread _ _ hrun
        · intro h
          obtain ⟨k, size, hsize, -⟩ := h.of_short hshort
          rw [sizeAfter_succ_of_none hread] at hsize
          exact absurd hsize (by simp)
      | some next =>
        obtain ⟨buffer', s'⟩ := next
        obtain ⟨hpending, hfewer⟩ := pending_readOnce hread
        rw [hsome _ _ hread]
        split
        next hpos =>
          -- The head is complete after this read.
          refine iff_of_true ⟨_, _, _, rfl, hpos⟩ ⟨1, buffer'.size, ?_, ?_, ?_⟩
          · rw [sizeAfter_succ hread, sizeAfter_zero]
          · rw [← hpending, pending, findHeaderEnd_append_of_ne_zero hpos.ne',
              ← buffer'.length_contents]
            exact findHeaderEnd_zero_le _
          · intro j hj n hn
            obtain rfl : j = 0 := by omega
            rw [sizeAfter_zero] at hn
            obtain rfl := Option.some_inj.mp hn
            exact hbelow
        next hzero =>
          rw [readsThrough_iff_of_readOnce hread hpending hbelow hshort]
          exact ih (by omega) (by rwa [hpending]) (by omega)
    · -- The buffer has reached the limit without the end of the head.
      rw [readHeadersLoop, if_pos (by omega)]
      apply iff_of_false
      · rintro ⟨headerEnd, buffer', s', hrun, hpos⟩
        obtain ⟨rfl, -⟩ := Prod.mk.inj (IoResult.done.inj (Prod.mk.inj hrun).1)
        omega
      · intro h
        obtain ⟨k, size, -, -, hall⟩ := h.of_short hshort
        exact hbelow (hall 0 (by omega) _ sizeAfter_zero)

/-! ### The whole function -/

/-- Which reads let a head through `read_headers`. A head that is in the buffer already is let
through by none at all. -/
theorem readHeaders_eq_iff (hhead : findHeaderEnd (pending buffer s) 0 ≠ 0) :
    (∃ headerEnd buffer' s', (readHeaders net maxSize buffer).run s =
      (.done (headerEnd, buffer'), s') ∧ 0 < headerEnd) ↔ ReadsThrough net maxSize buffer s := by
  rw [Awaitable.run, readHeaders, scanBuffered_eq]
  by_cases hpos : findHeaderEnd buffer.contents 0 > 0
  · rw [if_pos hpos]
    refine iff_of_true ⟨_, _, _, rfl, hpos⟩ ⟨0, buffer.size, sizeAfter_zero, ?_, ?_⟩
    · rw [pending, findHeaderEnd_append_of_ne_zero hpos.ne', ← buffer.length_contents]
      exact findHeaderEnd_zero_le _
    · intro j hj
      exact absurd hj (Nat.not_lt_zero _)
  · rw [if_neg hpos]
    exact readHeadersLoop_eq_iff (by omega) hhead (Nat.lt_succ_self _)

variable {σ : Type} {env : Env} {opts : ServerOptions} {app : App σ} {c : ConnState σ}

/-- The head at the front of the pending bytes is accepted. -/
def ConnState.Accepts (net : Network) (opts : ServerOptions) (c : ConnState σ) : Prop :=
  ∃ headerEnd buffer s, (readHead net opts c).run c.socket = (.done (headerEnd, buffer), s) ∧
    0 < headerEnd

/-- Which reads let a head through at the top of the loop. -/
theorem accepts_iff (hhead : findHeaderEnd c.unread 0 ≠ 0) :
    c.Accepts net opts ↔ ReadsThrough net opts.maxHeaderSize c.buffer c.socket := by
  rw [← readHeaders_eq_iff hhead, ConnState.Accepts]
  unfold readHead
  split
  · refine exists_congr fun headerEnd => exists_congr fun buffer => exists_congr fun s => ?_
    exact and_congr_left fun hpos => readHeadersWithTimeout_eq_iff hpos
  · exact Iff.rfl

/-- A head longer than the limit is refused exactly where a read is cut before its end. -/
theorem not_accepts_iff (hover : opts.maxHeaderSize < findHeaderEnd c.unread 0) :
    ¬ c.Accepts net opts ↔ CutBeforeEnd net opts.maxHeaderSize c.buffer c.socket := by
  rw [accepts_iff (by omega), ← not_cutBeforeEnd_iff hover, not_not]

/-! ### A run -/

/-- The head of a request that is logged was accepted. -/
theorem accepts_of_entry {x : Exchange} (hx : x ∈ (step env opts app c).entry) :
    c.Accepts env.net opts := by
  rw [step, receive] at hx
  cases hread : (readHead env.net opts c).run c.socket with
  | mk result s =>
    rw [hread] at hx
    cases result with
    | done a =>
      obtain ⟨headerEnd, buffer⟩ := a
      refine ⟨headerEnd, buffer, s, hread, Nat.pos_of_ne_zero fun hzero => ?_⟩
      simp [hzero, Step.entry] at hx
    | raised e => simp [Step.entry] at hx
    | suspended => simp [Step.entry] at hx

/-- The head of a request that is logged stands at the front of the pending bytes. -/
theorem headAt_of_entry {x : Exchange} (hx : x ∈ (step env opts app c).entry) :
    HeadAt c.unread x := by
  have hframes := stepFrames_step env opts app c
  revert hx hframes
  generalize step env opts app c = st
  intro hx hframes
  cases hframes with
  | next hframe _ =>
    obtain rfl := Option.some_inj.mp hx
    exact hframe.toHeadAt
  | silent _ _ => exact absurd hx (by simp [Step.entry])
  | logged hhead _ =>
    obtain rfl := Option.some_inj.mp hx
    exact hhead

/-- On a connection on which every head longer than the limit is cut before its end, no request
with such a head is dispatched, refused or handed over to an endpoint; and whether a head is
accepted depends on its length alone. -/
theorem head_limit_handleConnection (user : σ) (incoming : Bytes)
    (hcut : ∀ c, Relation.ReflTransGen (Goes env opts app) (.init user incoming) c →
      c.keepAlive = true → CutBeforeEnd env.net opts.maxHeaderSize c.buffer c.socket) :
    (∀ x ∈ (handleConnection env opts app user incoming).log,
        x.head.length ≤ opts.maxHeaderSize) ∧
      (env.net.Calm → ∀ c, Relation.ReflTransGen (Goes env opts app) (.init user incoming) c →
        c.keepAlive = true → findHeaderEnd c.unread 0 ≠ 0 →
          (c.Accepts env.net opts ↔ findHeaderEnd c.unread 0 ≤ opts.maxHeaderSize)) := by
  have hwithin : ∀ c, Relation.ReflTransGen (Goes env opts app) (.init user incoming) c →
      c.keepAlive = true → c.Accepts env.net opts →
        findHeaderEnd c.unread 0 ≤ opts.maxHeaderSize := by
    intro c hreaches hkeep haccepts
    by_contra hover
    exact (not_accepts_iff (not_le.mp hover)).mpr (hcut c hreaches hkeep) haccepts
  constructor
  · -- Each entry of the log has its head from the front of the bytes of a state that is reached.
    refine forall_mem_log_of_reaches (fun c hreaches hkeep x hx => ?_) _
    have hle := hwithin c hreaches hkeep (accepts_of_entry hx)
    rw [(headAt_of_entry hx).head_eq, List.length_take]
    omega
  · intro hcalm c hreaches hkeep hhead
    exact ⟨hwithin c hreaches hkeep, exists_readHead_eq_done hcalm hhead⟩

/-! ### A network that delivers one byte at a time -/

/-- A read over such a network. -/
theorem length_le_of_oneByte (hone : ∀ t, net t = .ready 1) {capacity : ℕ} {s' : Socket}
    {chunk : Bytes} (h : (asyncReadSome net capacity).run s = (.done chunk, s')) :
    chunk.length ≤ 1 := by
  simp only [Awaitable.run, asyncReadSome, hone] at h
  split at h
  · exact absurd h (by simp)
  · obtain rfl := IoResult.done.inj (Prod.mk.inj h).1
    rw [List.length_take]
    omega

/-- Where such a network cuts the byte stream. -/
theorem sizeAfter_of_oneByte (hone : ∀ t, net t = .ready 1) {k size : ℕ}
    (h : sizeAfter net buffer s k = some size) :
    size = buffer.size + k ∧ ∀ j ≤ k, sizeAfter net buffer s j = some (buffer.size + j) := by
  induction k generalizing buffer s with
  | zero =>
    rw [sizeAfter_zero] at h
    obtain rfl := Option.some_inj.mp h
    refine ⟨rfl, fun j hj => ?_⟩
    obtain rfl : j = 0 := by omega
    rfl
  | succ k ih =>
    cases hread : readOnce net buffer s with
    | none =>
      rw [sizeAfter_succ_of_none hread] at h
      exact absurd h (by simp)
    | some next =>
      obtain ⟨buffer', s'⟩ := next
      rw [sizeAfter_succ hread] at h
      obtain ⟨hsize, hall⟩ := ih h
      -- The read has delivered one byte.
      have hbyte : buffer'.size = buffer.size + 1 := by
        obtain ⟨chunk, hchunk, rfl⟩ := readOnce_eq_some_iff.mp hread
        obtain ⟨hin, hlen, -, -, hne⟩ := asyncReadSome_sound hchunk
        have hroom : 0 < (buffer.ensureWrite 4096).writeCapacity :=
          Nat.lt_of_lt_of_le (by omega) (ReadBuffer.le_writeCapacity_ensureWrite _ _)
        have hpos := List.length_pos_iff.mpr (hne hroom)
        have hle : chunk.length ≤ 1 := length_le_of_oneByte hone hchunk
        rw [← ReadBuffer.length_contents, ReadBuffer.contents_receive _ hlen,
          ReadBuffer.contents_ensureWrite, List.length_append, ReadBuffer.length_contents]
        omega
      refine ⟨by omega, fun j hj => ?_⟩
      cases j with
      | zero => rfl
      | succ j =>
        rw [sizeAfter_succ hread, hall j (by omega), hbyte]
        exact congrArg some (by omega)

/-- Over such a network every head longer than the limit is cut, unless the buffer holds more than
the limit already. -/
theorem cutBeforeEnd_of_oneByte (hone : ∀ t, net t = .ready 1) (hsize : buffer.size ≤ maxSize) :
    CutBeforeEnd net maxSize buffer s := by
  intro hover k size hk hend
  obtain ⟨rfl, hall⟩ := sizeAfter_of_oneByte hone hk
  refine ⟨maxSize - buffer.size, by omega, maxSize, ?_, le_rfl, hover⟩
  rw [hall _ (by omega)]
  exact congrArg some (by omega)

/-! ### Concrete connections -/

theorem default_maxBodySize_lt : 10 * 1024 * 1024 < 2 ^ 64 := by
  decide

/-- A limit of 24 bytes, which is shorter than the head of `longRequest`. -/
def shortHeads : ServerOptions where
  maxHeaderSize := 24
  maxBodySize_lt := default_maxBodySize_lt

/-- A request with a head of 28 bytes. -/
def longRequest : Bytes := ascii "GET /a HTTP/1.1\r\nHost: x\r\n\r\n"

/-- An environment whose network delivers one byte at a time. -/
def oneByteEnv : Env := { sampleEnv sampleFiles with net := fun _ => .ready 1 }

theorem head_limit_handleConnection_longRequest :
    (∀ x ∈ (handleConnection oneByteEnv shortHeads (.empty : App Unit) () longRequest).log,
        x.head.length ≤ 24) ∧
      (oneByteEnv.net.Calm → ∀ c,
        Relation.ReflTransGen (Goes oneByteEnv shortHeads .empty) (.init () longRequest) c →
        c.keepAlive = true → findHeaderEnd c.unread 0 ≠ 0 →
          (c.Accepts oneByteEnv.net shortHeads ↔ findHeaderEnd c.unread 0 ≤ 24)) := by
  apply head_limit_handleConnection () longRequest
  intro c hreaches _
  -- The first request is refused, so no other state is reached.
  have hstop : ∀ c',
      ¬ Goes oneByteEnv shortHeads (.empty : App Unit) (.init () longRequest) c' := by
    rintro c' ⟨-, x, hstep⟩
    have hentry : (step oneByteEnv shortHeads (.empty : App Unit)
        (.init () longRequest)).entry.isNone = true := by
      decide +kernel
    rw [hstep] at hentry
    exact absurd hentry (by simp [Step.entry])
  obtain rfl | ⟨c', hgoes, -⟩ := hreaches.cases_head
  · exact cutBeforeEnd_of_oneByte (fun _ => rfl) (Nat.zero_le _)
  · exact absurd hgoes (hstop c')

/-- The same bytes are dispatched when they come in one read, with a head longer than the limit,
and not when they come one at a time. -/
theorem not_head_limit_longRequest :
    (¬ ∀ (env : Env) (opts : ServerOptions) (app : App Unit) (incoming : Bytes),
        ∀ x ∈ (handleConnection env opts app () incoming).log, x.isDispatched = true →
          x.head.length ≤ opts.maxHeaderSize) ∧
      ¬ ∀ (env env' : Env) (opts : ServerOptions) (app : App Unit) (incoming : Bytes),
        env.net.Calm → env'.net.Calm →
          ((handleConnection env opts app () incoming).log.map Exchange.head =
            (handleConnection env' opts app () incoming).log.map Exchange.head) := by
  have hrun : (handleConnection (sampleEnv sampleFiles) shortHeads (.empty : App Unit) ()
      longRequest).log.map (fun x => (x.head, x.isDispatched)) = [(longRequest, true)] := by
    decide +kernel
  have hlate : (handleConnection oneByteEnv shortHeads (.empty : App Unit) ()
      longRequest).log.map Exchange.head = [] := by
    decide +kernel
  refine ⟨fun h => ?_, fun h => ?_⟩
  · have hmem : (longRequest, true) ∈ (handleConnection (sampleEnv sampleFiles) shortHeads
        (.empty : App Unit) () longRequest).log.map (fun x => (x.head, x.isDispatched)) := by
      rw [hrun]
      exact List.mem_singleton.mpr rfl
    obtain ⟨x, hx, heq⟩ := List.mem_map.mp hmem
    obtain ⟨hhead, hdispatched⟩ := Prod.mk.inj heq
    have hle := h (sampleEnv sampleFiles) shortHeads .empty longRequest x hx hdispatched
    rw [hhead] at hle
    exact absurd hle (by decide)
  · have hsame := h (sampleEnv sampleFiles) oneByteEnv shortHeads .empty longRequest
      (fun _ => ⟨_, rfl⟩) (fun _ => ⟨_, rfl⟩)
    have hheads := congrArg (List.map Prod.fst) hrun
    rw [List.map_map] at hheads
    rw [hlate] at hsame
    have hnil : [longRequest] = [] := hheads.symm.trans hsame
    exact absurd hnil (by simp)

end Lundi
