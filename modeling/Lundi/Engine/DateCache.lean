import Lundi.Core.HttpDate
import Lundi.Lib.DoubleBuffer

/-!
# The date cache

`engine::date_cache`: the formatted date of the current second, in two buffers. `DateCache` is the
class as one thread sees it, and `SharedDateCache` is the same memory with a thread that calls
`update` and threads that copy the bytes behind the pointer `get` has returned, byte by byte.

* `get_foldl_update`: what a thread that calls `update` gets;
* `exists_update`: an update of the shared cache that goes through has the same effect;
* `whole_date_of_reach`, `exists_torn_date`: what other threads get.
-/

namespace Lundi

open DoubleBuffer Runs

/-- `DATE_LEN`. -/
def dateLen : ℕ := 29

theorem length_eq_dateLen {epoch : ℤ} (h : HasFourDigitYear epoch) :
    (httpDate epoch).length = dateLen := length_httpDate h

/-! ### One thread -/

/-- `date_cache`. -/
structure DateCache where
  bufs : Bool → Bytes
  active : Bool
  lastEpoch : ℤ

/-- A text is written to the front of a buffer as a C string. -/
def writeCString (buf text : Bytes) : Bytes := text ++ 0 :: buf.drop (text.length + 1)

namespace DateCache

/-- `update`, when the clock shows this second. -/
def update (dc : DateCache) (epoch : ℤ) : DateCache :=
  if epoch = dc.lastEpoch then dc
  else
    let next := !dc.active
    { bufs := Function.update dc.bufs next (writeCString (dc.bufs next) (httpDate epoch))
      active := next
      lastEpoch := epoch }

/-- The constructor. -/
def init (epoch : ℤ) : DateCache :=
  update ⟨fun _ => List.replicate 32 0, false, 0⟩ epoch

/-- The bytes behind the pointer that `get` returns. -/
def get (dc : DateCache) : Bytes := (dc.bufs dc.active).take dateLen

/-- The cache shows the date of the second it was updated to. -/
def Shows (dc : DateCache) : Prop := dc.get = httpDate dc.lastEpoch

theorem shows_update_of_ne {dc : DateCache} {epoch : ℤ} (hyear : HasFourDigitYear epoch)
    (hne : epoch ≠ dc.lastEpoch) : (dc.update epoch).Shows := by
  have hlen : dateLen = (httpDate epoch).length := (length_eq_dateLen hyear).symm
  rw [update, if_neg hne]
  simp only [Shows, get, Function.update_self, writeCString]
  rw [hlen, List.take_left]

theorem Shows.update {dc : DateCache} (h : dc.Shows) {epoch : ℤ} (hyear : HasFourDigitYear epoch) :
    (dc.update epoch).Shows := by
  by_cases hsame : epoch = dc.lastEpoch
  · rw [DateCache.update, if_pos hsame]
    exact h
  · exact shows_update_of_ne hyear hsame

theorem lastEpoch_update (dc : DateCache) (epoch : ℤ) : (dc.update epoch).lastEpoch = epoch := by
  rw [update]
  split
  next hsame => exact hsame.symm
  next => rfl

/-- A cache that is not made in the second zero shows a date from the beginning. -/
theorem shows_init {epoch : ℤ} (hne : epoch ≠ 0) (hyear : HasFourDigitYear epoch) :
    (init epoch).Shows := shows_update_of_ne hyear hne

/-- A thread that updates the cache gets the date of the second that the clock has shown last. -/
theorem get_foldl_update {epoch : ℤ} (hne : epoch ≠ 0) (hyear : HasFourDigitYear epoch)
    (epochs : List ℤ) (hyears : ∀ e ∈ epochs, HasFourDigitYear e) :
    (epochs.foldl update (init epoch)).get =
      httpDate ((epoch :: epochs).getLast (List.cons_ne_nil _ _)) := by
  have hall : ∀ dc : DateCache, dc.Shows → ∀ epochs : List ℤ, (∀ e ∈ epochs, HasFourDigitYear e) →
      (epochs.foldl update dc).Shows ∧ (epochs.foldl update dc).lastEpoch =
        (dc.lastEpoch :: epochs).getLast (List.cons_ne_nil _ _) := by
    intro dc hdc epochs hyears
    induction epochs generalizing dc with
    | nil => exact ⟨hdc, rfl⟩
    | cons e epochs ih =>
      obtain ⟨he, hyears⟩ := List.forall_mem_cons.mp hyears
      have hrest := ih _ (hdc.update he) hyears
      rw [lastEpoch_update] at hrest
      rw [List.foldl_cons, List.getLast_cons (List.cons_ne_nil _ _)]
      exact hrest
  obtain ⟨hshows, hlast⟩ := hall _ (shows_init hne hyear) epochs hyears
  rw [hshows, hlast]
  congr 1
  have hinit : (init epoch).lastEpoch = epoch := lastEpoch_update _ _
  simp only [hinit]

end DateCache

/-! ### Several threads -/

/-- The memory of the cache and the threads that use it: one that calls `update`, and those of a
type `ι`, which copy dates. -/
structure SharedDateCache (ι : Type) where
  memory : DoubleBuffer.State UInt8 ι
  lastEpoch : ℤ

/-- What the threads do. -/
inductive DateAction (ι : Type)
  /-- `update` is called when the clock shows this second; if it is a new one, a date is going to
  be written. -/
  | update (epoch : ℤ)
  /-- A byte of the date is written. -/
  | write
  /-- The index is stored. -/
  | store
  /-- A thread calls `get`. -/
  | get (i : ι)
  /-- A thread copies a byte of the date. -/
  | copy (i : ι)

namespace SharedDateCache

variable {ι : Type}

/-- The cache when it shows the date of a second. -/
def start (epoch : ℤ) : SharedDateCache ι := ⟨.start (httpDate epoch), epoch⟩

variable [DecidableEq ι]

/-- One step. -/
def step (s : SharedDateCache ι) : DateAction ι → Option (SharedDateCache ι)
  | .update epoch =>
    if s.memory.writer.isNone then
      if epoch = s.lastEpoch then some s
      else (s.memory.step dateLen (.update (httpDate epoch))).map fun m => ⟨m, epoch⟩
    else none
  | .write => (s.memory.step dateLen .write).map fun m => { s with memory := m }
  | .store => (s.memory.step dateLen .swap).map fun m => { s with memory := m }
  | .get i => (s.memory.step dateLen (.load i)).map fun m => { s with memory := m }
  | .copy i => (s.memory.step dateLen (.copy i)).map fun m => { s with memory := m }

/-- The clock shows a year with four digits; and an update to a new second does not begin while a
thread is still copying the date before the one that is shown. -/
def Timely (s : SharedDateCache ι) : DateAction ι → Prop
  | .update epoch => HasFourDigitYear epoch ∧
      (epoch ≠ s.lastEpoch → ¬ s.memory.Copying dateLen (!s.memory.active))
  | _ => True

/-- The steps of the buffers that are allowed. -/
def Dated (s : DoubleBuffer.State UInt8 ι) (a : DoubleBuffer.Action UInt8 ι) : Prop :=
  s.Orderly dateLen a ∧ ∀ text, a = .update text → ∃ e, HasFourDigitYear e ∧ text = httpDate e

/-- What happens to the cache happens to its buffers. -/
theorem reach_memory {s s' : SharedDateCache ι} {a : DateAction ι} (hok : s.Timely a)
    (hstep : s.step a = some s') :
    Reach (DoubleBuffer.State.step dateLen) Dated s.memory s'.memory := by
  have hquiet : ∀ b : DoubleBuffer.Action UInt8 ι, (∀ text, b ≠ .update text) →
      (s.memory.step dateLen b).map (fun m => { s with memory := m }) = some s' →
        Reach (DoubleBuffer.State.step dateLen) Dated s.memory s'.memory := by
    intro b hb h
    obtain ⟨m, hm, rfl⟩ := Option.map_eq_some_iff.mp h
    refine .step b .start ⟨?_, fun text htext => absurd htext (hb text)⟩ hm
    cases b with
    | update text => exact absurd rfl (hb text)
    | _ => trivial
  cases a with
  | update epoch =>
    obtain ⟨hyear, horderly⟩ := hok
    rw [step] at hstep
    split at hstep
    · split at hstep
      · obtain rfl := Option.some_inj.mp hstep
        exact .start
      next hne =>
        obtain ⟨m, hm, rfl⟩ := Option.map_eq_some_iff.mp hstep
        refine .step (.update (httpDate epoch)) .start ⟨horderly hne, fun text htext => ?_⟩ hm
        exact ⟨epoch, hyear, (DoubleBuffer.Action.update.inj htext).symm⟩
    · exact absurd hstep (by simp)
  | write => exact hquiet .write (by simp) hstep
  | store => exact hquiet .swap (by simp) hstep
  | get i => exact hquiet (.load i) (by simp) hstep
  | copy i => exact hquiet (.copy i) (by simp) hstep

/-- On runs that are timely, a thread that has copied as many bytes as a date has holds a whole
date: the one that was shown when it called `get`. It is one line of 29 bytes, and it is read back
to the second it was made from. -/
theorem whole_date_of_reach {epoch : ℤ} (hyear : HasFourDigitYear epoch) {s : SharedDateCache ι}
    (h : Reach step Timely (start epoch) s) {i : ι} {b : Bool} {shown copied : Bytes}
    (hreader : s.memory.readers i = .copying b shown copied) (hlen : copied.length = dateLen) :
    copied = shown ∧ Unbroken copied ∧
      ∃ e, HasFourDigitYear e ∧ copied = httpDate e ∧ readHttpDate copied = some e := by
  have hmemory : Reach (DoubleBuffer.State.step dateLen) Dated (.start (httpDate epoch)) s.memory :=
    h.map fun s a s' hok hstep => reach_memory hok hstep
  obtain ⟨-, hwhole⟩ := DoubleBuffer.State.prefix_of_reach (length_eq_dateLen hyear)
    (hmemory.mono fun _ _ hok => hok.1) hreader
  have htexts := DoubleBuffer.State.texts_of_reach
    (p := fun text => ∃ e, HasFourDigitYear e ∧ text = httpDate e) ⟨epoch, hyear, rfl⟩ hmemory
    fun s text hok => hok.2 text rfl
  obtain rfl := hwhole hlen
  obtain ⟨e, he, rfl⟩ := htexts.copied i b _ _ hreader
  exact ⟨rfl, unbroken_httpDate e, e, he, rfl, readHttpDate_httpDate he⟩

/-- No second is looked at. -/
def NoUpdate (_ : SharedDateCache ι) (a : DateAction ι) : Prop := ∀ e, a ≠ .update e

/-- What happens to the buffers without an update can happen to the cache. -/
theorem reach_of_memory {m m' : DoubleBuffer.State UInt8 ι} (lastEpoch : ℤ)
    (h : Reach (DoubleBuffer.State.step dateLen) DoubleBuffer.State.Quiet m m') :
    Reach step NoUpdate (⟨m, lastEpoch⟩ : SharedDateCache ι) ⟨m', lastEpoch⟩ := by
  refine h.map (f := fun m => (⟨m, lastEpoch⟩ : SharedDateCache ι)) fun m a m' hok hm => ?_
  cases a with
  | update text => exact absurd rfl (hok text)
  | write => exact .step .write .start (by simp [NoUpdate]) (by rw [step, hm]; rfl)
  | swap => exact .step .store .start (by simp [NoUpdate]) (by rw [step, hm]; rfl)
  | load i => exact .step (.get i) .start (by simp [NoUpdate]) (by rw [step, hm]; rfl)
  | copy i => exact .step (.copy i) .start (by simp [NoUpdate]) (by rw [step, hm]; rfl)

omit [DecidableEq ι] in
theorem timely_of_noUpdate {s : SharedDateCache ι} {a : DateAction ι} (h : s.NoUpdate a) :
    s.Timely a := by
  cases a with
  | update e => exact absurd rfl (h e)
  | _ => trivial

/-- An update to a new second can go through: the cache then shows its date, as it does after
`DateCache.update`. -/
theorem exists_update {s : SharedDateCache ι} (hidle : s.memory.writer = none)
    (hlen : (s.memory.buffers (!s.memory.active)).length = dateLen) {e : ℤ}
    (hyear : HasFourDigitYear e) (hne : e ≠ s.lastEpoch) :
    ∃ s', Reach step Any s s' ∧ s'.lastEpoch = e ∧ s'.memory.writer = none ∧
      s'.memory.readers = s.memory.readers ∧
      s'.memory.buffers s'.memory.active = (DateCache.init s.lastEpoch |>.update e).get := by
  have hdate := length_eq_dateLen hyear
  have hshows : (DateCache.init s.lastEpoch |>.update e).get = httpDate e := by
    have hfresh : e ≠ (DateCache.init s.lastEpoch).lastEpoch := by
      rwa [DateCache.init, DateCache.lastEpoch_update]
    rw [DateCache.shows_update_of_ne hyear hfresh, DateCache.lastEpoch_update]
  have hbegin : s.memory.step dateLen (.update (httpDate e)) =
      some { s.memory with writer := some (httpDate e, 0) } := by
    rw [DoubleBuffer.State.step, if_pos ⟨by rw [hidle]; rfl, hdate⟩]
  have hupdate : s.step (.update e) =
      some ⟨{ s.memory with writer := some (httpDate e, 0) }, e⟩ := by
    have hnone : s.memory.writer.isNone = true := by rw [hidle]; rfl
    rw [step, if_pos hnone, if_neg hne, hbegin]
    rfl
  -- All bytes are written, and the index is stored.
  obtain ⟨m, hwrites, hwriter, hreaders, hlength, htake, hactive⟩ :=
    DoubleBuffer.State.exists_writes (s := { s.memory with writer := some (httpDate e, 0) })
      hdate hlen rfl le_rfl
  have hstore : (⟨m, e⟩ : SharedDateCache ι).step .store =
      some ⟨{ m with active := !m.active, writer := none, published := httpDate e }, e⟩ := by
    rw [step]
    simp only [DoubleBuffer.State.step, hwriter, hdate]
    rfl
  refine ⟨_, ((Reach.start.next _ hupdate).trans ((reach_of_memory e hwrites).mono
    fun _ _ _ => trivial)).next .store hstore, rfl, rfl, hreaders, ?_⟩
  rw [hshows]
  change m.buffers (!m.active) = httpDate e
  rw [List.take_of_length_le hlength.le, List.take_of_length_le hdate.le] at htake
  rw [hactive]
  exact htake

/-- An update to a new second that begins while a thread is still copying the date before the one
that is shown can tear its copy: the thread may go on to hold bytes of two dates. -/
theorem exists_torn_date {epoch : ℤ} (hyear : HasFourDigitYear epoch) {s s' : SharedDateCache ι}
    (h : Reach step Timely (start epoch) s) {e : ℤ} (hstep : s.step (.update e) = some s')
    (hne : e ≠ s.lastEpoch) {i : ι} {shown copied : Bytes}
    (hreader : s.memory.readers i = .copying (!s.memory.active) shown copied) {k : ℕ}
    (hcopied : copied.length ≤ k) (hk : k < dateLen) (hdiffer : (httpDate e)[k]? ≠ shown[k]?) :
    ∃ t, Reach step NoUpdate s' t ∧ ∃ torn,
      t.memory.readers i = .copying (!s.memory.active) shown torn ∧ copied <+: torn ∧
        ¬ torn <+: shown := by
  have hmemory : Reach (DoubleBuffer.State.step dateLen) Dated (.start (httpDate epoch)) s.memory :=
    h.map fun s a s' hok hstep => reach_memory hok hstep
  have hsound := DoubleBuffer.State.sound_of_reach (length_eq_dateLen hyear)
    (hmemory.mono fun _ _ hok => hok.1)
  rw [step] at hstep
  split at hstep
  · obtain ⟨m, hm, rfl⟩ := Option.map_eq_some_iff.mp hstep
    obtain ⟨t, hreach, torn, hreader', hinit, hmixed⟩ :=
      DoubleBuffer.State.exists_torn hsound hm hreader hcopied hk hdiffer
    exact ⟨⟨t, e⟩, reach_of_memory e hreach, torn, hreader', hinit, hmixed⟩
  · exact absurd hstep (by simp)

/-! ### Concrete runs -/

/-- A thread gets and copies the date of a cache that has just been made. -/
theorem exists_copy_start (epoch : ℤ) (hyear : HasFourDigitYear epoch) :
    ∃ s : SharedDateCache Unit, Reach step NoUpdate (start epoch) s ∧
      s.memory.readers () = .copying false (httpDate epoch) (httpDate epoch) := by
  have hlen := length_eq_dateLen hyear
  have hload : (start epoch : SharedDateCache Unit).step (.get ()) = some
      ⟨(DoubleBuffer.State.start (httpDate epoch)).setReader ()
        (.copying false (httpDate epoch) []), epoch⟩ := rfl
  obtain ⟨m, hcopies, -, hreader⟩ := DoubleBuffer.State.exists_copies (n := dateLen) (i := ())
    (s := (DoubleBuffer.State.start (httpDate epoch)).setReader ()
      (.copying false (httpDate epoch) [])) rfl (m := dateLen) hlen.ge (Nat.zero_le _)
  refine ⟨_, (Reach.step _ .start (by simp [NoUpdate]) hload).trans (reach_of_memory epoch hcopies),
    hreader.trans ?_⟩
  change DoubleBuffer.Reader.copying _ _ ([] ++ ((httpDate epoch).take dateLen).drop 0) = _
  rw [List.nil_append, List.drop_zero, List.take_of_length_le hlen.le]

theorem whole_date_of_reach_start :
    ∃ s : SharedDateCache Unit, Reach step Timely (start 784111777) s ∧ ∃ copied,
      s.memory.readers () = .copying false (httpDate 784111777) copied ∧
      copied.length = dateLen ∧ copied = httpDate 784111777 ∧ Unbroken copied ∧
        ∃ e, HasFourDigitYear e ∧ copied = httpDate e ∧ readHttpDate copied = some e := by
  have hyear : HasFourDigitYear 784111777 := by decide +kernel
  obtain ⟨s, hreach, hreader⟩ := exists_copy_start 784111777 hyear
  have htimely := hreach.mono fun _ _ => timely_of_noUpdate
  exact ⟨s, htimely, _, hreader, length_eq_dateLen hyear,
    whole_date_of_reach hyear htimely hreader (length_eq_dateLen hyear)⟩

end SharedDateCache

end Lundi
