import Lundi.Lib.Runs

/-!
# Double buffering

One writer and any number of readers share two buffers and an index. The writer fills the buffer
that the index does not point to, cell by cell, and then lets the index point to it. A reader loads
the index once and copies the buffer it points to, cell by cell. Nothing keeps the writer from
coming round to a buffer that a slow reader is still copying.

* `Orderly` steps are those in which no update begins while a reader is still copying the buffer
  that the index has left;
* `prefix_of_reach`: on runs of such steps a reader copies the text that was published when it
  loaded the index, and nothing else;
* `exists_torn`: a step that is not orderly can be continued so that a reader gets a mixture.
-/

namespace DoubleBuffer

open Runs

variable {α ι : Type*}

/-- What a reader is doing. Besides the copy it has made so far, the text that was published when
it loaded the index is kept, which no step looks at. -/
inductive Reader (α : Type*)
  | idle
  | copying (buffer : Bool) (text copied : List α)

/-- The shared memory, the writer and the readers. -/
structure State (α ι : Type*) where
  /-- The two buffers. -/
  buffers : Bool → List α
  /-- The index. -/
  active : Bool
  /-- The text that is being written, and the number of cells written. -/
  writer : Option (List α × ℕ)
  readers : ι → Reader α
  /-- The text published last, which no step looks at. -/
  published : List α

/-- The steps of the writer and of the readers. -/
inductive Action (α ι : Type*)
  /-- The writer begins to write a text. -/
  | update (text : List α)
  /-- The writer writes a cell. -/
  | write
  /-- The writer is done and moves the index. -/
  | swap
  /-- A reader loads the index. -/
  | load (i : ι)
  /-- A reader copies a cell. -/
  | copy (i : ι)

namespace State

/-- The state in which a text has been published and nobody is doing anything. -/
def start (text : List α) : State α ι where
  buffers _ := text
  active := false
  writer := none
  readers _ := .idle
  published := text

/-- A reader does something. -/
def setReader [DecidableEq ι] (s : State α ι) (i : ι) (r : Reader α) : State α ι :=
  { s with readers := Function.update s.readers i r }

/-- One step; texts have `n` cells. -/
def step [DecidableEq ι] (n : ℕ) (s : State α ι) : Action α ι → Option (State α ι)
  | .update text =>
    if s.writer.isNone ∧ text.length = n then some { s with writer := some (text, 0) } else none
  | .write =>
    match s.writer with
    | some (text, k) =>
      match text[k]? with
      | some a => some { s with
          buffers := Function.update s.buffers (!s.active) ((s.buffers (!s.active)).set k a)
          writer := some (text, k + 1) }
      | none => none
    | none => none
  | .swap =>
    match s.writer with
    | some (text, k) =>
      if k = text.length then
        some { s with active := !s.active, writer := none, published := text }
      else none
    | none => none
  | .load i => some (s.setReader i (.copying s.active s.published []))
  | .copy i =>
    match s.readers i with
    | .copying b text copied =>
      match (s.buffers b)[copied.length]? with
      | some a => some (s.setReader i (.copying b text (copied ++ [a])))
      | none => none
    | .idle => none

/-- A reader is still copying from a buffer. -/
def Copying (n : ℕ) (s : State α ι) (b : Bool) : Prop :=
  ∃ i text copied, s.readers i = .copying b text copied ∧ copied.length < n

/-- A step is orderly unless an update begins while a reader is still copying the buffer that it is
going to write. -/
def Orderly (n : ℕ) (s : State α ι) : Action α ι → Prop
  | .update _ => ¬ s.Copying n (!s.active)
  | _ => True

/-! ### The invariant -/

/-- What a reader has copied, and what it is going to copy, is the text that was published when it
loaded the index. -/
def Faithful (n : ℕ) (s : State α ι) : Reader α → Prop
  | .idle => True
  | .copying b text copied => text.length = n ∧ copied <+: text ∧
      (copied.length < n → s.buffers b = text ∧ (b = !s.active → s.writer = none))

/-- The buffer that the index points to holds the text published last, what has been written stands
in the other one, and the readers are faithful. -/
structure Sound (n : ℕ) (s : State α ι) : Prop where
  length_published : s.published.length = n
  current : s.buffers s.active = s.published
  length_other : (s.buffers (!s.active)).length = n
  written : ∀ text k, s.writer = some (text, k) →
    text.length = n ∧ (s.buffers (!s.active)).take k = text.take k
  readers : ∀ i, Faithful n s (s.readers i)

theorem sound_start {n : ℕ} {text : List α} (h : text.length = n) :
    Sound n (start text : State α ι) where
  length_published := h
  current := rfl
  length_other := h
  written := by simp [start]
  readers _ := trivial

variable {n : ℕ} {s s' : State α ι}

theorem Sound.length_buffers (h : Sound n s) (b : Bool) : (s.buffers b).length = n := by
  by_cases hb : b = s.active
  · rw [hb, h.current, h.length_published]
  · rw [Bool.eq_not_of_ne hb, h.length_other]

variable [DecidableEq ι]

/-- A reader that goes on stays faithful, and the others are not concerned. -/
theorem Sound.setReader (h : Sound n s) {i : ι} {r : Reader α} (hr : Faithful n s r) :
    Sound n (s.setReader i r) where
  length_published := h.length_published
  current := h.current
  length_other := h.length_other
  written := h.written
  readers j := by
    have hkeep : ∀ r' : Reader α, Faithful n s r' → Faithful n (s.setReader i r) r' := by
      intro r' hr'
      cases r' <;> exact hr'
    change Faithful n _ (Function.update s.readers i r j)
    rw [Function.update_apply]
    split
    · cases r <;> exact hr
    · have hj := h.readers j
      revert hj
      cases s.readers j <;> exact id

theorem Sound.update {text : List α} (h : Sound n s) (hok : s.Orderly n (.update text))
    (hstep : s.step n (.update text) = some s') : Sound n s' := by
  rw [step] at hstep
  split at hstep
  next hidle =>
    obtain rfl := Option.some_inj.mp hstep
    refine ⟨h.length_published, h.current, h.length_other, ?_, fun i => ?_⟩
    · rintro text' k heq
      obtain ⟨rfl, rfl⟩ := Prod.mk.inj (Option.some_inj.mp heq)
      exact ⟨hidle.2, by simp⟩
    · have hi := h.readers i
      change Faithful n _ (s.readers i)
      cases hreader : s.readers i with
      | idle => trivial
      | copying b text' copied =>
        rw [hreader] at hi
        obtain ⟨hlen, hinit, hmore⟩ := hi
        -- Nobody is still copying the buffer that is going to be written.
        refine ⟨hlen, hinit, fun hlt => ⟨(hmore hlt).1, fun hb => ?_⟩⟩
        exact absurd ⟨i, text', copied, by rw [hreader, hb], hlt⟩ hok
  next => exact absurd hstep (by simp)

theorem Sound.write (h : Sound n s) (hstep : s.step n .write = some s') : Sound n s' := by
  rw [step] at hstep
  split at hstep
  next text k hwriter =>
    split at hstep
    next a ha =>
      obtain rfl := Option.some_inj.mp hstep
      obtain ⟨hlen, hwritten⟩ := h.written text k hwriter
      have hk : k < text.length := (List.getElem?_eq_some_iff.mp ha).1
      have hother := h.length_other
      have hactive : ∀ (b : Bool) (t : List α), b ≠ !s.active →
          Function.update s.buffers (!s.active) t b = s.buffers b := by
        intro b t hb
        rw [Function.update_apply, if_neg hb]
      refine ⟨h.length_published, ?_, ?_, ?_, fun i => ?_⟩
      · change Function.update s.buffers _ _ s.active = s.published
        rw [hactive _ _ (by simp), h.current]
      · simp [hother]
      · rintro text' k' heq
        obtain ⟨rfl, rfl⟩ := Prod.mk.inj (Option.some_inj.mp heq)
        refine ⟨hlen, ?_⟩
        -- The cells before the new one are kept, and the new one is that of the text.
        change (Function.update s.buffers (!s.active) _ (!s.active)).take (k + 1) = _
        rw [Function.update_self, List.take_add_one, List.take_add_one,
          List.take_set_of_le (Nat.le_refl _),
          hwritten, List.getElem?_set_self (by omega), ha]
      · have hi := h.readers i
        change Faithful n _ (s.readers i)
        cases hreader : s.readers i with
        | idle => trivial
        | copying b text' copied =>
          rw [hreader] at hi
          obtain ⟨hlen', hinit, hmore⟩ := hi
          refine ⟨hlen', hinit, fun hlt => ?_⟩
          obtain ⟨hbuffer, hidle⟩ := hmore hlt
          -- While the writer writes, only the other buffer is copied.
          have hb : b ≠ !s.active := by
            intro hb
            rw [hidle hb] at hwriter
            exact absurd hwriter (by simp)
          refine ⟨?_, fun habsurd => absurd habsurd hb⟩
          change Function.update s.buffers (!s.active) _ b = text'
          rw [hactive _ _ hb, hbuffer]
    next => exact absurd hstep (by simp)
  next => exact absurd hstep (by simp)

theorem Sound.swap (h : Sound n s) (hstep : s.step n .swap = some s') : Sound n s' := by
  rw [step] at hstep
  split at hstep
  next text k hwriter =>
    split at hstep
    next hk =>
      obtain rfl := Option.some_inj.mp hstep
      obtain ⟨hlen, hwritten⟩ := h.written text k hwriter
      have hother := h.length_other
      refine ⟨hlen, ?_, ?_, by simp, fun i => ?_⟩
      · -- The whole text has been written.
        rw [hk, List.take_of_length_le (by omega),
          List.take_of_length_le (Nat.le_refl _)] at hwritten
        exact hwritten
      · change (s.buffers (!!s.active)).length = n
        rw [Bool.not_not, h.current, h.length_published]
      · have hi := h.readers i
        change Faithful n _ (s.readers i)
        cases hreader : s.readers i with
        | idle => trivial
        | copying b text' copied =>
          rw [hreader] at hi
          obtain ⟨hlen', hinit, hmore⟩ := hi
          exact ⟨hlen', hinit, fun hlt => ⟨(hmore hlt).1, fun _ => rfl⟩⟩
    next => exact absurd hstep (by simp)
  next => exact absurd hstep (by simp)

theorem Sound.load (h : Sound n s) {i : ι} (hstep : s.step n (.load i) = some s') :
    Sound n s' := by
  obtain rfl := Option.some_inj.mp hstep
  exact h.setReader ⟨h.length_published, List.nil_prefix,
    fun _ => ⟨h.current, fun hb => absurd hb (by simp)⟩⟩

theorem Sound.copy (h : Sound n s) {i : ι} (hstep : s.step n (.copy i) = some s') :
    Sound n s' := by
  rw [step] at hstep
  split at hstep
  next b text copied hreader =>
    split at hstep
    next a ha =>
      obtain rfl := Option.some_inj.mp hstep
      have hi := h.readers i
      rw [hreader] at hi
      obtain ⟨hlen, hinit, hmore⟩ := hi
      -- There is a cell to copy, so the copy is not complete, and the cell is that of the text.
      have hlt : copied.length < n := by
        rw [← h.length_buffers b]
        exact (List.getElem?_eq_some_iff.mp ha).1
      obtain ⟨hbuffer, hidle⟩ := hmore hlt
      rw [hbuffer] at ha
      refine h.setReader ⟨hlen, ?_, fun _ => ⟨hbuffer, hidle⟩⟩
      obtain ⟨rest, rfl⟩ := hinit
      rw [List.getElem?_append_right (Nat.le_refl _), Nat.sub_self] at ha
      obtain ⟨tail, rfl⟩ := List.head?_eq_some_iff.mp (List.head?_eq_getElem?.trans ha)
      exact ⟨tail, by simp⟩
    next => exact absurd hstep (by simp)
  next => exact absurd hstep (by simp)

/-- Orderly steps keep the invariant. -/
theorem Sound.step {a : Action α ι} (h : Sound n s) (hok : s.Orderly n a)
    (hstep : s.step n a = some s') : Sound n s' := by
  cases a with
  | update text => exact h.update hok hstep
  | write => exact h.write hstep
  | swap => exact h.swap hstep
  | load i => exact h.load hstep
  | copy i => exact h.copy hstep

theorem sound_of_reach {text : List α} (htext : text.length = n)
    (h : Reach (step n) (Orderly n) (start text) s) : Sound n s :=
  h.invariant (sound_start htext) fun _ _ _ hs hok hstep => hs.step hok hstep

/-- On runs of orderly steps a reader copies the text that was published when it loaded the
index. -/
theorem prefix_of_reach {text₀ : List α} (htext : text₀.length = n)
    (h : Reach (step n) (Orderly n) (start text₀) s) {i : ι} {b : Bool} {text copied : List α}
    (hreader : s.readers i = .copying b text copied) :
    copied <+: text ∧ (copied.length = n → copied = text) := by
  have hi := (sound_of_reach htext h).readers i
  rw [hreader] at hi
  obtain ⟨hlen, hinit, -⟩ := hi
  exact ⟨hinit, fun hfull => hinit.eq_of_length (hfull.trans hlen.symm)⟩

/-! ### What is published -/

/-- All texts that are written, have been published or are being copied satisfy `p`. -/
structure Texts (p : List α → Prop) (s : State α ι) : Prop where
  published : p s.published
  written : ∀ text k, s.writer = some (text, k) → p text
  copied : ∀ i b text copied, s.readers i = .copying b text copied → p text

theorem texts_of_reach {p : List α → Prop} {ok : State α ι → Action α ι → Prop} {text₀ : List α}
    (htext : p text₀) (h : Reach (State.step n) ok (start text₀) s)
    (hupdates : ∀ s text, ok s (.update text) → p text) : Texts p s := by
  refine h.invariant ⟨htext, by simp [start], by simp [start]⟩ fun s a s' hs hok hstep => ?_
  -- A reader that goes on copies the text published last, or the one it has been copying.
  have hreader : ∀ i b text copied, p text →
      Texts p (s.setReader i (.copying b text copied)) := by
    intro i b text copied htext
    refine ⟨hs.published, hs.written, fun j b' text' copied' hj => ?_⟩
    change Function.update s.readers i _ j = _ at hj
    rw [Function.update_apply] at hj
    split at hj
    · cases hj
      exact htext
    · exact hs.copied j _ _ _ hj
  cases a with
  | update text =>
    rw [State.step] at hstep
    split at hstep
    · obtain rfl := Option.some_inj.mp hstep
      refine ⟨hs.published, fun text' k heq => ?_, hs.copied⟩
      cases heq
      exact hupdates s text hok
    · exact absurd hstep (by simp)
  | write =>
    rw [State.step] at hstep
    split at hstep
    next text k hwriter =>
      split at hstep
      · obtain rfl := Option.some_inj.mp hstep
        refine ⟨hs.published, fun text' k' heq => ?_, hs.copied⟩
        cases heq
        exact hs.written text k hwriter
      · exact absurd hstep (by simp)
    · exact absurd hstep (by simp)
  | swap =>
    rw [State.step] at hstep
    split at hstep
    next text k hwriter =>
      split at hstep
      · obtain rfl := Option.some_inj.mp hstep
        exact ⟨hs.written text k hwriter, by simp, hs.copied⟩
      · exact absurd hstep (by simp)
    · exact absurd hstep (by simp)
  | load i =>
    obtain rfl := Option.some_inj.mp hstep
    exact hreader i _ _ _ hs.published
  | copy i =>
    rw [State.step] at hstep
    split at hstep
    next b text copied hcopying =>
      split at hstep
      · obtain rfl := Option.some_inj.mp hstep
        exact hreader i _ _ _ (hs.copied i _ _ _ hcopying)
      · exact absurd hstep (by simp)
    · exact absurd hstep (by simp)

/-! ### Updates that are too early -/

/-- No update begins. -/
def Quiet (_ : State α ι) (a : Action α ι) : Prop := ∀ text, a ≠ .update text

/-- The writer goes on by itself. -/
theorem exists_writes {text : List α} (hlen : text.length = n) {k : ℕ}
    (hother : (s.buffers (!s.active)).length = n) (hwriter : s.writer = some (text, 0))
    (hk : k ≤ n) :
    ∃ s', Reach (State.step n) Quiet s s' ∧ s'.writer = some (text, k) ∧ s'.readers = s.readers ∧
      (s'.buffers (!s.active)).length = n ∧ (s'.buffers (!s.active)).take k = text.take k ∧
        s'.active = s.active := by
  induction k with
  | zero => exact ⟨s, .start, hwriter, rfl, hother, by simp, rfl⟩
  | succ k ih =>
    obtain ⟨t, hreach, hwriter, hreaders, hlength, htake, hactive⟩ := ih (by omega)
    have hget : text[k]? = some text[k] := List.getElem?_eq_getElem (by omega)
    have hstep : t.step n .write = some { t with
        buffers := Function.update t.buffers (!t.active) ((t.buffers (!t.active)).set k text[k])
        writer := some (text, k + 1) } := by
      simp only [State.step, hwriter, hget]
    refine ⟨_, .step .write hreach (by simp [Quiet]) hstep, rfl, hreaders, ?_, ?_, hactive⟩
    · simp [hactive, hlength]
    · change (Function.update t.buffers (!t.active) _ (!s.active)).take (k + 1) = _
      rw [hactive, Function.update_self, List.take_add_one, List.take_add_one,
        List.take_set_of_le (Nat.le_refl _), htake, List.getElem?_set_self (by omega), hget]

/-- A reader goes on by itself. -/
theorem exists_copies {i : ι} {b : Bool} {text copied : List α} {m : ℕ}
    (hreader : s.readers i = .copying b text copied) (hm : m ≤ (s.buffers b).length)
    (hle : copied.length ≤ m) :
    ∃ s', Reach (State.step n) Quiet s s' ∧ s'.buffers = s.buffers ∧
      s'.readers i = .copying b text (copied ++ ((s.buffers b).take m).drop copied.length) := by
  obtain ⟨d, rfl⟩ := Nat.exists_eq_add_of_le hle
  clear hle
  induction d with
  | zero => exact ⟨s, .start, rfl, by simp [hreader]⟩
  | succ d ih =>
    obtain ⟨t, hreach, hbuffers, hreader'⟩ := ih (by omega)
    have hget : (t.buffers b)[(copied ++
        ((s.buffers b).take (copied.length + d)).drop copied.length).length]? =
          some (s.buffers b)[copied.length + d] := by
      have hlen : (copied ++
          ((s.buffers b).take (copied.length + d)).drop copied.length).length =
            copied.length + d := by
        simp only [List.length_append, List.length_drop, List.length_take]
        omega
      rw [hlen, hbuffers]
      exact List.getElem?_eq_getElem (by omega)
    have hstep : t.step n (.copy i) = some (t.setReader i (.copying b text
        (copied ++ ((s.buffers b).take (copied.length + d)).drop copied.length ++
          [(s.buffers b)[copied.length + d]]))) := by
      simp only [State.step, hreader', hget]
    refine ⟨_, .step (.copy i) hreach (by simp [Quiet]) hstep, hbuffers, ?_⟩
    change Function.update t.readers i _ i = _
    rw [Function.update_self, ← Nat.add_assoc, List.take_add_one,
      List.getElem?_eq_getElem (by omega), List.drop_append_of_le_length (by
        rw [List.length_take]
        omega), List.append_assoc]
    rfl

/-- After an update that is not orderly, a reader may get a mixture: the cells it has copied
already, and cells of the new text behind them. -/
theorem exists_torn (h : Sound n s) {new : List α} (hstep : s.step n (.update new) = some s')
    {i : ι} {text copied : List α} (hreader : s.readers i = .copying (!s.active) text copied)
    {k : ℕ} (hcopied : copied.length ≤ k) (hk : k < n) (hdiffer : new[k]? ≠ text[k]?) :
    ∃ t, Reach (State.step n) Quiet s' t ∧ ∃ torn,
      t.readers i = .copying (!s.active) text torn ∧ copied <+: torn ∧ ¬ torn <+: text := by
  rw [State.step] at hstep
  split at hstep
  next hidle =>
    obtain rfl := Option.some_inj.mp hstep
    have hlen : new.length = n := hidle.2
    -- The writer comes as far as the place where the texts differ, and the reader follows.
    obtain ⟨t, hreach, -, hreaders, hlength, htake, hactive⟩ :=
      exists_writes (s := { s with writer := some (new, 0) }) hlen h.length_other rfl
        (show k + 1 ≤ n by omega)
    obtain ⟨t', hreach', -, hreader'⟩ := exists_copies (m := k + 1)
      ((congrFun hreaders i).trans hreader) (by rw [hlength]; omega) (by omega)
    refine ⟨t', hreach.trans hreach', _, hreader', List.prefix_append _ _, fun hinit => ?_⟩
    -- At that place the copy has the cell of the new text.
    have hcell : (copied ++ ((t.buffers (!s.active)).take (k + 1)).drop copied.length)[k]? =
        new[k]? := by
      rw [htake, List.getElem?_append_right hcopied, List.getElem?_drop,
        Nat.add_sub_cancel' hcopied, List.getElem?_take_of_lt (Nat.lt_succ_self k)]
    have hget : new[k]? = some new[k] := List.getElem?_eq_getElem (by omega)
    obtain ⟨hlt, -⟩ := List.getElem?_eq_some_iff.mp (hcell.trans hget)
    obtain ⟨tail, htail⟩ := hinit
    rw [← htail, List.getElem?_append_left hlt, hcell] at hdiffer
    exact hdiffer rfl
  next => exact absurd hstep (by simp)

end State

end DoubleBuffer
