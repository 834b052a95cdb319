import Lundi.Server.HeaderLimit

/-!
# The memory behind a connection

A client decides how much of the read buffer it fills and how many bytes of a body it announces,
and a read takes as many bytes as the network has. `ReadBuffer.Within` is what the loop keeps
where the network delivers no more than some number of bytes at a time: the vector stays below a
bound that the options and this number determine, and behind `k` reallocations it has at least
`8192 * 2 ^ k` bytes, so that there are few of them.

* `Within.ensureWrite`: room for some bytes is made within twice the bytes that are to be stored;
* `within_readHead`, `within_receive`, `within_of_respond`: what an iteration does to the buffer;
* `within_handleConnection`: the buffer of a connection in every state that it gets to.
-/

namespace Lundi

/-- No read finds more than some number of bytes. -/
def Network.DeliversAtMost (net : Network) (most : ℕ) : Prop := ∀ t n, net t = .ready n → n ≤ most

/-- The bytes that may stand in the buffer when a head has been read: the limit for a head is looked
at in front of a read, so that one read may go over it. -/
def headLimit (opts : ServerOptions) (most : ℕ) : ℕ := opts.maxHeaderSize + max most 4096

/-- What the vector of a connection does not outgrow. -/
def vectorLimit (opts : ServerOptions) (most : ℕ) : ℕ :=
  max 8192 (2 * (headLimit opts most + opts.maxBodySize))

/-- The used part and the vector are within some limits, and the vector is at least as long as so
many doublings make it as there have been reallocations. -/
structure ReadBuffer.Within (used vector : ℕ) (b : ReadBuffer) : Prop where
  used_le : b.size ≤ used
  length_le : b.data.length ≤ vector
  doubled : 8192 * 2 ^ b.generation ≤ b.data.length

namespace ReadBuffer.Within

variable {used vector : ℕ} {b : ReadBuffer}

theorem init (used : ℕ) (h : 8192 ≤ vector) : (ReadBuffer.init 8192).Within used vector where
  used_le := Nat.zero_le _
  length_le := by
    rw [ReadBuffer.init, List.length_replicate]
    exact h
  doubled := by
    rw [ReadBuffer.init, List.length_replicate]
    exact (Nat.mul_one 8192).le

theorem mono (h : b.Within used vector) {used' : ℕ} (hle : b.size ≤ used') :
    b.Within used' vector :=
  ⟨hle, h.length_le, h.doubled⟩

/-- Room for some bytes is made within twice the bytes that are to be stored. -/
theorem ensureWrite (h : b.Within used vector) {n : ℕ} (hn : 2 * (b.size + n) ≤ vector) :
    (b.ensureWrite n).Within used vector := by
  unfold ReadBuffer.ensureWrite
  split
  next hgrow =>
    rw [writeCapacity] at hgrow
    have hsize := b.size_le
    have hlength : (b.data ++ List.replicate
        (max (b.data.length * 2) (b.size + n) - b.data.length) 0).length =
        max (b.data.length * 2) (b.size + n) := by
      rw [List.length_append, List.length_replicate]
      omega
    have hdoubled := h.doubled
    refine ⟨h.used_le, ?_, ?_⟩
    · rw [hlength]
      omega
    · rw [hlength, pow_succ]
      omega
  next => exact h

/-- What is received is stored where there is room. -/
theorem receive (h : b.Within used vector) {chunk : Bytes} (hchunk : b.size + chunk.length ≤ used) :
    (b.receive chunk).Within used vector := by
  have hlength : (b.receive chunk).data.length = b.data.length := by
    have hsize := b.size_le
    simp only [ReadBuffer.receive, writeCapacity, List.length_append, List.length_take,
      List.length_drop]
    omega
  refine ⟨?_, by rw [hlength]; exact h.length_le, by rw [hlength]; exact h.doubled⟩
  simp only [ReadBuffer.receive, List.length_take]
  omega

theorem clear (h : b.Within used vector) : b.clear.Within used vector :=
  ⟨Nat.zero_le _, h.length_le, h.doubled⟩

theorem consume (h : b.Within used vector) (n : ℕ) : (b.consume n).Within used vector := by
  have hused := h.used_le
  unfold ReadBuffer.consume
  split
  · exact ⟨Nat.zero_le _, h.length_le, h.doubled⟩
  · have hlength : ((b.data.drop n).take (b.size - n) ++ b.data.drop (b.size - n)).length =
        b.data.length := by
      have hsize := b.size_le
      simp only [List.length_append, List.length_take, List.length_drop]
      omega
    refine ⟨?_, by rw [hlength]; exact h.length_le, by rw [hlength]; exact h.doubled⟩
    change b.size - n ≤ used
    omega

end ReadBuffer.Within

/-! ### Reading -/

variable {σ : Type} {env : Env} {opts : ServerOptions} {app : App σ} {net : Network}
  {most used vector : ℕ}

/-- What a read takes. -/
theorem length_le_of_deliversAtMost (hmost : net.DeliversAtMost most) {capacity : ℕ}
    {s s' : Socket} {chunk : Bytes}
    (h : (asyncReadSome net capacity).run s = (.done chunk, s')) : chunk.length ≤ max 1 most := by
  simp only [Awaitable.run, asyncReadSome] at h
  split at h
  next available hready =>
    split at h
    · exact absurd h (by simp)
    · obtain rfl := IoResult.done.inj (Prod.mk.inj h).1
      have hle := hmost _ _ hready
      rw [List.length_take]
      omega
  all_goals exact absurd h (by simp)

/-- A read of the loop begins with less than the limit in the buffer. The induction is on the number
of reads. -/
theorem within_readHeadersLoop (hmost : net.DeliversAtMost most) {maxSize budget scanStart : ℕ}
    (hused : maxSize + max most 4096 ≤ used) (hvector : 2 * used ≤ vector)
    {buffer buffer' : ReadBuffer} {s s' : Socket} {headerEnd : ℕ} (h : buffer.Within used vector)
    (hrun : (readHeadersLoop net maxSize budget scanStart buffer).run s =
      (.done (headerEnd, buffer'), s')) : buffer'.Within used vector := by
  induction budget generalizing scanStart buffer s with
  | zero => exact absurd hrun (by simp [readHeadersLoop, Awaitable.suspend, Awaitable.run])
  | succ budget ih =>
    rw [readHeadersLoop] at hrun
    split at hrun
    · obtain ⟨hdone, -⟩ := Prod.mk.inj hrun
      obtain ⟨-, rfl⟩ := Prod.mk.inj (IoResult.done.inj hdone)
      exact h
    next hbelow =>
      obtain ⟨chunk, mid, hchunk, hrest⟩ := Awaitable.run_bind_eq_done_iff.mp hrun
      have hlength := length_le_of_deliversAtMost hmost hchunk
      have hread : ((buffer.ensureWrite 4096).receive chunk).Within used vector := by
        refine (h.ensureWrite (by omega)).receive ?_
        rw [ReadBuffer.size_ensureWrite]
        omega
      simp only at hrest
      split at hrest
      · obtain ⟨hdone, -⟩ := Prod.mk.inj hrest
        obtain ⟨-, rfl⟩ := Prod.mk.inj (IoResult.done.inj hdone)
        exact hread
      · exact ih hread hrest

theorem within_readHeaders (hmost : net.DeliversAtMost most) {maxSize : ℕ}
    (hused : maxSize + max most 4096 ≤ used) (hvector : 2 * used ≤ vector)
    {buffer buffer' : ReadBuffer} {s s' : Socket} {headerEnd : ℕ} (h : buffer.Within used vector)
    (hrun : (readHeaders net maxSize buffer).run s = (.done (headerEnd, buffer'), s')) :
    buffer'.Within used vector := by
  rw [Awaitable.run, readHeaders] at hrun
  split at hrun
  · obtain ⟨hdone, -⟩ := Prod.mk.inj hrun
    obtain ⟨-, rfl⟩ := Prod.mk.inj (IoResult.done.inj hdone)
    exact h
  · exact within_readHeadersLoop hmost hused hvector h hrun

/-- A head that is read, next to a timer or without one. -/
theorem within_readHead (hmost : env.net.DeliversAtMost most)
    (hused : headLimit opts most ≤ used) (hvector : 2 * used ≤ vector) {c : ConnState σ}
    {buffer : ReadBuffer} {s : Socket} {headerEnd : ℕ} (hpos : 0 < headerEnd)
    (h : c.buffer.Within used vector)
    (hrun : (readHead env.net opts c).run c.socket = (.done (headerEnd, buffer), s)) :
    buffer.Within used vector := by
  unfold readHead at hrun
  split at hrun
  · exact within_readHeaders hmost hused hvector h ((readHeadersWithTimeout_eq_iff hpos).mp hrun)
  · exact within_readHeaders hmost hused hvector h hrun

/-- A body that is read: it ends the used part, or it was there with the head. -/
theorem within_readBody {headerEnd n : ℕ} {buffer buffer' : ReadBuffer} {s s' : Socket}
    (hle : headerEnd ≤ buffer.size) (hvector : 2 * (headerEnd + n) ≤ vector)
    (h : buffer.Within used vector)
    (hrun : (readBody net buffer headerEnd n).run s = (.done (some buffer'), s')) :
    buffer' = buffer ∨ buffer'.Within (headerEnd + n) vector := by
  unfold readBody at hrun
  simp only at hrun
  by_cases hmore : n > buffer.size - headerEnd
  · rw [if_pos hmore, if_pos (by omega)] at hrun
    obtain ⟨bytes, mid, hread, hrest⟩ := Awaitable.run_bind_eq_done_iff.mp hrun
    have hbuffer := IoResult.done.inj (Prod.mk.inj hrest).1
    obtain ⟨chunk, rfl, rfl⟩ := Option.map_eq_some_iff.mp hbuffer
    -- The timer has lost.
    have hchunk : ∃ t,
        (asyncRead net (n - (buffer.size - headerEnd))).run s = (.done chunk, t) := by
      rw [run_orTimeout] at hread
      split at hread
      next chunk' t hdone =>
        obtain rfl := Option.some_inj.mp (IoResult.done.inj (Prod.mk.inj hread).1)
        exact ⟨t, hdone⟩
      all_goals exact absurd (IoResult.done.inj (Prod.mk.inj hread).1) (by simp)
    obtain ⟨t, hchunk⟩ := hchunk
    obtain ⟨-, hlength, -⟩ := asyncRead_sound hchunk
    have hbuffer : buffer.Within (headerEnd + n) vector := h.mono (by omega)
    refine Or.inr ((hbuffer.ensureWrite (by omega)).receive ?_)
    rw [ReadBuffer.size_ensureWrite, hlength]
    omega
  · rw [if_neg hmore, if_neg (lt_irrefl 0)] at hrun
    exact Or.inl (Option.some_inj.mp (IoResult.done.inj (Prod.mk.inj hrun).1)).symm

/-! ### An iteration -/

/-- What is known of the buffer when a request is dispatched: nothing behind the request has been
read to get its body. -/
structure Dispatch.Within (opts : ServerOptions) (most : ℕ) (d : Dispatch σ) : Prop where
  buffer : d.conn.buffer.Within (headLimit opts most + opts.maxBodySize) (vectorLimit opts most)
  behind : d.conn.buffer.size ≤ headLimit opts most ∨
    d.conn.buffer.size ≤ d.headerEnd + d.contentLength

/-- A phase dispatches only such requests. -/
def Phase.Within (opts : ServerOptions) (most : ℕ) (p : Phase σ) : Prop :=
  ∀ d, p = .dispatch d → d.Within opts most

theorem Phase.within_refuse (head : Bytes) (req : Request) (body : Bytes) (status : ℤ)
    (s : Socket) : (refuse env head req body status s : Phase σ).Within opts most := by
  intro d hd
  unfold refuse at hd
  simp only at hd
  split at hd <;> exact absurd hd (by simp)

theorem Phase.within_handOver (head : Bytes) (req : Request) (t : Takeover) (s : Socket) :
    (handOver env head req t s : Phase σ).Within opts most := by
  intro d hd
  unfold handOver at hd
  simp only at hd
  split at hd
  · split at hd <;> exact absurd hd (by simp)
  all_goals exact absurd hd (by simp)

theorem vectorLimit_ge (opts : ServerOptions) (most : ℕ) :
    8192 ≤ vectorLimit opts most ∧
      2 * (headLimit opts most + opts.maxBodySize) ≤ vectorLimit opts most := by
  rw [vectorLimit]
  omega

/-- The length that is read is not over the limit. -/
theorem le_maxBodySize_of_declared {req : Request} {n : ℕ} (h : declared opts req = .length n) :
    n ≤ opts.maxBodySize := by
  unfold declared at h
  split at h
  · exact absurd h (by simp)
  · split at h
    · split at h
      · exact absurd h (by simp)
      next hle =>
        obtain rfl := Declared.length.inj h
        omega
    · exact absurd h (by simp)

theorem within_receiveBody {c : ConnState σ} {headerEnd : ℕ} {head : Bytes} {req : Request}
    (hle : headerEnd ≤ c.buffer.size)
    (h : c.buffer.Within (headLimit opts most) (vectorLimit opts most)) :
    (receiveBody env opts c headerEnd head req).Within opts most := by
  have hused := h.used_le
  have hvector := (vectorLimit_ge opts most).2
  unfold receiveBody
  simp only
  split
  · exact Phase.within_refuse _ _ _ _ _
  · intro d hd
    obtain rfl := Phase.dispatch.inj hd
    exact ⟨h.mono (by omega), Or.inl hused⟩
  next n hdeclared =>
    have hn := le_maxBodySize_of_declared hdeclared
    split
    next buffer s hread =>
      intro d hd
      obtain rfl := Phase.dispatch.inj hd
      -- The body has come with the head, or the last read stops where it ends.
      rcases within_readBody hle (by omega) h hread with rfl | hbody
      · exact ⟨h.mono (by omega), Or.inl hused⟩
      · have hend := hbody.used_le
        exact ⟨hbody.mono (by omega), Or.inr hend⟩
    · exact Phase.within_refuse _ _ _ _ _
    all_goals
      intro d hd
      exact absurd hd (by simp)

theorem within_receive (hmost : env.net.DeliversAtMost most) {c : ConnState σ}
    (h : c.buffer.Within (headLimit opts most) (vectorLimit opts most)) :
    (receive env opts app c).Within opts most := by
  have hsilent : ∀ exit s, (.stop exit none s : Phase σ).Within opts most := by
    intro exit s d hd
    exact absurd hd (by simp)
  unfold receive
  split
  next headerEnd buffer s hread =>
    split
    · exact hsilent _ _
    next hne =>
      have hpos := Nat.pos_of_ne_zero hne
      have hvector := (vectorLimit_ge opts most).2
      have hbuffer := within_readHead hmost le_rfl (by omega) hpos h hread
      unfold receiveRequest
      simp only
      split
      · exact hsilent _ _
      · split
        · exact Phase.within_handOver _ _ _ _
        · exact within_receiveBody (readHead_sound hpos hread).headerEnd_le hbuffer
  all_goals exact hsilent _ _

/-- When a request has been answered, its bytes leave the buffer. -/
theorem within_of_respond {d : Dispatch σ} {c' : ConnState σ} {x : Exchange}
    (h : d.Within opts most) (hnext : respond env app d = .next c' x) :
    c'.buffer.Within (headLimit opts most) (vectorLimit opts most) := by
  have hbuffer : c'.buffer = if d.headerEnd + d.contentLength ≥ d.conn.buffer.size then
      d.conn.buffer.clear else d.conn.buffer.consume (d.headerEnd + d.contentLength) := by
    unfold respond at hnext
    simp only at hnext
    split at hnext
    · exact absurd hnext (by simp)
    · split at hnext
      · exact absurd hnext (by simp)
      · split at hnext
        · obtain rfl := (Step.next.inj hnext).1
          rfl
        all_goals exact absurd hnext (by simp)
  rw [hbuffer]
  split
  · exact h.buffer.clear.mono (Nat.zero_le _)
  next hmore =>
    -- More than the request is in the buffer, so all of it came with the head.
    rcases h.behind with hused | hused
    · exact (h.buffer.mono hused).consume _
    · exact absurd hused hmore

/-! ### A connection -/

/-- However a client cuts its bytes and whatever it sends, the vector of its connection stays below
the limit, in every state at the top of the loop and at every dispatch. -/
theorem within_handleConnection (hmost : env.net.DeliversAtMost most) (user : σ)
    (incoming : Bytes) :
    ∀ c, Relation.ReflTransGen (Goes env opts app) (.init user incoming) c →
      c.buffer.Within (headLimit opts most) (vectorLimit opts most) ∧
        ∀ d, receive env opts app c = .dispatch d →
          d.conn.buffer.Within (headLimit opts most + opts.maxBodySize)
            (vectorLimit opts most) := by
  intro c hreaches
  have hbuffer : c.buffer.Within (headLimit opts most) (vectorLimit opts most) := by
    induction hreaches with
    | refl => exact .init _ (vectorLimit_ge opts most).1
    | @tail c c' _ hgoes ih =>
      obtain ⟨-, x, hstep⟩ := hgoes
      rw [step] at hstep
      cases hreceive : receive env opts app c with
      | stop exit y s =>
        rw [hreceive] at hstep
        exact absurd hstep (by simp)
      | dispatch d =>
        rw [hreceive] at hstep
        exact within_of_respond (within_receive hmost ih d hreceive) hstep
  exact ⟨hbuffer, fun d hd => (within_receive hmost hbuffer d hd).buffer⟩

/-! ### A body that does not fit -/

/-- A request with a body as long as the vector is at first. -/
def longBody : Bytes :=
  ascii "POST / HTTP/1.1\r\nContent-Length: 8192\r\n\r\n" ++ List.replicate 8192 120

/-- A network that delivers up to eight kilobytes at a time. -/
def chunkEnv : Env := { sampleEnv sampleFiles with net := fun _ => .ready 8192 }

/-- The number of reallocations before a request is dispatched. -/
def Phase.reallocations {σ : Type} : Phase σ → Option ℕ
  | .dispatch d => some d.conn.buffer.generation
  | .stop .. => none

/-- The vector grows once for the body. -/
theorem within_handleConnection_longBody :
    (∃ d, receive chunkEnv {} (.empty : App Unit) (.init () longBody) = .dispatch d ∧
        d.conn.buffer.generation = 1) ∧
      ∀ c, Relation.ReflTransGen (Goes chunkEnv {} (.empty : App Unit)) (.init () longBody) c →
        c.buffer.Within (headLimit {} 8192) (vectorLimit {} 8192) ∧
          ∀ d, receive chunkEnv {} (.empty : App Unit) c = .dispatch d →
            d.conn.buffer.Within (headLimit {} 8192 + 10 * 1024 * 1024)
              (vectorLimit {} 8192) := by
  have hmost : chunkEnv.net.DeliversAtMost 8192 := fun _ _ h => (IoEvent.ready.inj h).ge
  refine ⟨?_, within_handleConnection hmost () _⟩
  have hgrows : (receive chunkEnv {} (.empty : App Unit) (.init () longBody)).reallocations =
      some 1 := by
    decide +kernel
  cases hreceive : receive chunkEnv {} (.empty : App Unit) (.init () longBody) with
  | stop exit x s =>
    rw [hreceive] at hgrows
    exact absurd hgrows (by simp [Phase.reallocations])
  | dispatch d =>
    rw [hreceive] at hgrows
    exact ⟨d, rfl, Option.some_inj.mp hgrows⟩

end Lundi
