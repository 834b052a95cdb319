import Lundi.Engine.Buffer
import Lundi.Engine.HeaderScan
import Lundi.Lib.LowestBit
import Lundi.Lib.Region
import Mathlib.Order.Lattice.Nat

/-!
# The header terminator scanners

The two versions of `engine::find_header_end` and of `read_buffer::find_header_end` as the machine
runs them: sums of `size_t` are taken modulo `2 ^ 64`, the vector version loads 16 bytes at a time
and looks at the set bits of a mask, and a scan gives nothing when it reads outside `[ 0, len )`.

* `findHeaderEnd_eq_naive`: the scan of the other modules is the naive definition;
* `findHeaderEndScalar_eq`, `findHeaderEndSse2_eq`: the versions of the engine compute it;
* `scanners_agree`: for which starts the vector version does, and what agrees without a condition.
-/

namespace Lundi

open Search LowestBit

/-- The bytes from `pos` on are compared with those of a word, each one read only when those in
front of it are equal; nothing for a read outside. -/
def comparesAt (data : Bytes) : Bytes → ℕ → Option Bool
  | [], _ => some true
  | b :: word, pos =>
    data[pos]?.bind fun c => if c = b then comparesAt data word (wrap (pos + 1)) else some false

/-- A loop over single positions as long as there is more: the position of the terminator. -/
def scanLoop (data : Bytes) (more : ℕ → Bool) : ℕ → ℕ → Option (Option ℕ)
  | 0, _ => none
  | budget + 1, i =>
    if more i then
      (comparesAt data headerTerminator i).bind fun found =>
        if found then some (some i) else scanLoop data more budget (wrap (i + 1))
    else some none

/-- The scalar loop of `engine::find_header_end`, with more turns than it can make. -/
def scalarLoop (data : Bytes) (i : ℕ) : Option ℕ :=
  (scanLoop data (fun i => wrap (i + 3) < data.length) (data.length + 1) i).map fun
    | some i => wrap (i + 4)
    | none => 0

/-- The first position of a scan: three bytes in front of `scan_start`. -/
def scanPosition (scanStart : ℕ) : ℕ := if scanStart > 3 then scanStart - 3 else 0

/-- `engine::find_header_end` without SSE2. -/
def findHeaderEndScalar (data : Bytes) (scanStart : ℕ) : Option ℕ :=
  if data.length < 4 then some 0 else scalarLoop data (scanPosition scanStart)

/-- `_mm_movemask_epi8` of the comparison of a chunk with `'\r'`: a bit for each byte. -/
def crMask (chunk : Bytes) : BitVec 32 := (BitVec.ofBoolListLE (chunk.map (· == cr))).setWidth 32

/-- The loop over the set bits of a mask, from the lowest on: the position behind the terminator. -/
def maskLoop (data : Bytes) (i : ℕ) (mask : BitVec 32) : Option (Option ℕ) :=
  if _ : mask = 0#32 then some none
  else
    let pos := wrap (i + mask.ctz.toNat)
    (if wrap (pos + 3) < data.length then comparesAt data [lf, cr, lf] (wrap (pos + 1))
      else some false).bind fun found =>
      if found then some (some (wrap (pos + 4))) else maskLoop data i (mask &&& (mask - 1#32))
termination_by mask.toNat
decreasing_by exact toNat_and_sub_one_lt ‹_›

/-- How the vector loop ends. -/
inductive VectorExit
  /-- It returns the position behind a terminator. -/
  | found (headerEnd : ℕ)
  /-- The scalar loop goes on at a position. -/
  | handOver (i : ℕ)

/-- The vector loop. -/
def vectorLoop (data : Bytes) : ℕ → ℕ → Option VectorExit
  | 0, _ => none
  | budget + 1, i =>
    if wrap (i + 19) < data.length then
      (Region.load data i 16).bind fun chunk =>
        (maskLoop data i (crMask chunk)).bind fun
          | some headerEnd => some (.found headerEnd)
          | none => vectorLoop data budget (wrap (i + 16))
    else some (.handOver i)

/-- `engine::find_header_end` with SSE2. -/
def findHeaderEndSse2 (data : Bytes) (scanStart : ℕ) : Option ℕ :=
  if data.length < 4 then some 0
  else
    (vectorLoop data (data.length + 1) (scanPosition scanStart)).bind fun
      | .found headerEnd => some headerEnd
      | .handOver i => scalarLoop data i

namespace ReadBuffer

/-- `read_buffer::find_header_end` with `memmem`: the distance from `data()`, nothing for a null
pointer. -/
def findHeaderEndMemmem (b : ReadBuffer) : Option ℕ :=
  if b.size < 4 then none else (find headerTerminator b.contents).map (· + 4)

/-- `read_buffer::find_header_end` without `memmem`, whose reads have to stay inside the used
part. -/
def findHeaderEndFallback (b : ReadBuffer) : Option (Option ℕ) :=
  if b.size < 4 then some none
  else
    (scanLoop b.contents (fun p => p < b.size - 3) (b.size + 1) 0).map fun found =>
      found.map (· + 4)

end ReadBuffer

/-! ### The naive definition -/

/-- The positions at which a terminator stands, from three bytes in front of `scan_start` on. -/
def terminators (data : Bytes) (scanStart : ℕ) : Set ℕ :=
  {p | scanStart - 3 ≤ p ∧ p + 4 ≤ data.length ∧ headerTerminator <+: data.drop p}

open Classical in
/-- The position behind the first of them, or `0`. -/
noncomputable def naiveHeaderEnd (data : Bytes) (scanStart : ℕ) : ℕ :=
  if (terminators data scanStart).Nonempty then sInf (terminators data scanStart) + 4 else 0

theorem mem_terminators {data : Bytes} {scanStart p : ℕ} :
    p ∈ terminators data scanStart ↔ scanStart - 3 ≤ p ∧ headerTerminator <+: data.drop p := by
  constructor
  · rintro ⟨hle, -, hpre⟩
    exact ⟨hle, hpre⟩
  · rintro ⟨hle, hpre⟩
    have hlen := hpre.length_le
    simp only [List.length_cons, List.length_nil, List.length_drop] at hlen
    exact ⟨hle, by omega, hpre⟩

/-- The scan of the other modules is the naive definition. -/
theorem findHeaderEnd_eq_naive (data : Bytes) (scanStart : ℕ) :
    findHeaderEnd data scanStart = naiveHeaderEnd data scanStart := by
  rw [findHeaderEnd_eq, naiveHeaderEnd]
  cases hfind : findFrom headerTerminator data (scanStart - 3) with
  | none =>
    rw [if_neg]
    rintro ⟨p, hp⟩
    exact findFrom_eq_none_iff.mp hfind p (mem_terminators.mp hp).1 (mem_terminators.mp hp).2
  | some k =>
    obtain ⟨hle, hat, hbefore⟩ := findFrom_eq_some_iff.mp hfind
    have hleast : IsLeast (terminators data scanStart) k := by
      refine ⟨mem_terminators.mpr ⟨hle, hat⟩, fun p hp => ?_⟩
      obtain ⟨hge, hpre⟩ := mem_terminators.mp hp
      by_contra hlt
      exact hbefore p hge (not_le.mp hlt) hpre
    rw [if_pos ⟨k, hleast.1⟩, hleast.csInf_eq]

/-! ### The scalar loop -/

section Fits

variable {data : Bytes} (hlen : data.length + 16 < 2 ^ 64)

include hlen

/-- Comparing inside the buffer reads inside, and decides whether the word stands there. -/
theorem comparesAt_eq {word : Bytes} {pos : ℕ} (h : pos + word.length ≤ data.length) :
    comparesAt data word pos = some (decide (word <+: data.drop pos)) := by
  induction word generalizing pos with
  | nil => simp [comparesAt]
  | cons b word ih =>
    rw [List.length_cons] at h
    have hpos : pos < data.length := by omega
    rw [comparesAt, List.getElem?_eq_getElem hpos, Option.bind_some,
      wrap_of_lt (by omega), ih (by omega), List.drop_eq_getElem_cons hpos]
    simp only [List.cons_prefix_cons]
    by_cases hb : data[pos] = b
    · rw [if_pos hb, hb]
      simp only [true_and]
    · rw [if_neg hb, eq_comm, Option.some_inj, decide_eq_false_iff_not]
      exact fun h => hb h.1.symm

omit hlen in
/-- The last three positions hold no terminator. -/
theorem findFrom_headerTerminator_eq_none {i : ℕ} (h : data.length ≤ i + 3) :
    findFrom headerTerminator data i = none := by
  rw [findFrom, find_headerTerminator_eq_none (by rw [List.length_drop]; omega), Option.map_none]

/-- A loop over the positions in front of the last three finds the first terminator. The induction
is on the budget. -/
theorem scanLoop_eq {more : ℕ → Bool}
    (hmore : ∀ i, i + 3 < 2 ^ 64 → (more i = true ↔ i + 3 < data.length)) {budget i : ℕ}
    (hi : i + 3 < 2 ^ 64) (hbudget : data.length ≤ i + budget) :
    scanLoop data more (budget + 1) i = some (findFrom headerTerminator data i) := by
  induction budget generalizing i with
  | zero =>
    have hend : ¬ more i = true := by
      rw [hmore i hi]
      omega
    rw [scanLoop, if_neg hend, findFrom_headerTerminator_eq_none (by omega)]
  | succ budget ih =>
    rw [scanLoop]
    by_cases hinside : i + 3 < data.length
    · rw [if_pos ((hmore i hi).mpr hinside),
        comparesAt_eq hlen (show i + headerTerminator.length ≤ data.length from hinside),
        Option.bind_some]
      by_cases hat : headerTerminator <+: data.drop i
      · rw [decide_eq_true hat, if_pos rfl, eq_comm, Option.some_inj, findFrom_eq_some_iff]
        exact ⟨le_refl i, hat, fun j hle hlt => absurd hle (not_le.mpr hlt)⟩
      · have hskip : findFrom headerTerminator data i = findFrom headerTerminator data (i + 1) := by
          refine findFrom_eq_findFrom (Nat.le_succ i) fun j hle hlt => ?_
          obtain rfl : j = i := by omega
          exact hat
        rw [decide_eq_false hat, if_neg Bool.false_ne_true, hskip,
          wrap_of_lt (by omega)]
        exact ih (by omega) (by omega)
    · rw [if_neg fun hm => hinside ((hmore i hi).mp hm),
        findFrom_headerTerminator_eq_none (by omega)]

theorem scalarLoop_eq {i : ℕ} (hi : i + 3 < 2 ^ 64) :
    scalarLoop data i = some ((findFrom headerTerminator data i).elim 0 (· + 4)) := by
  have hmore : ∀ i, i + 3 < 2 ^ 64 →
      (decide (wrap (i + 3) < data.length) = true ↔ i + 3 < data.length) := by
    intro i hi
    rw [wrap_of_lt hi, decide_eq_true_eq]
  rw [scalarLoop, scanLoop_eq hlen hmore hi (by omega), Option.map_some]
  cases hfind : findFrom headerTerminator data i with
  | none => rfl
  | some k =>
    -- A terminator that has been found lies inside.
    have hk := (findFrom_eq_some_iff.mp hfind).2.1.length_le
    simp only [List.length_cons, List.length_nil, List.length_drop] at hk
    simp only [Option.elim_some, Option.some.injEq]
    exact wrap_of_lt (by omega)

omit hlen in
theorem findHeaderEnd_eq_elim (scanStart : ℕ) :
    findHeaderEnd data scanStart =
      (findFrom headerTerminator data (scanStart - 3)).elim 0 (· + 4) := by
  rw [findHeaderEnd_eq]
  cases findFrom headerTerminator data (scanStart - 3) <;> rfl

omit hlen in
theorem scanPosition_eq (scanStart : ℕ) : scanPosition scanStart = scanStart - 3 := by
  unfold scanPosition
  split <;> omega

/-- The scalar version computes the scan for every start. -/
theorem findHeaderEndScalar_eq {scanStart : ℕ} (hstart : scanStart < 2 ^ 64) :
    findHeaderEndScalar data scanStart = some (findHeaderEnd data scanStart) := by
  rw [findHeaderEndScalar, findHeaderEnd_eq_elim]
  split
  next hshort =>
    rw [findFrom_headerTerminator_eq_none (by omega)]
    rfl
  next => rw [scanPosition_eq, scalarLoop_eq hlen (by omega)]

/-! ### The vector loop -/

omit hlen in
/-- The bits of the mask are the positions of the carriage returns. -/
theorem getLsbD_crMask {i : ℕ} (k : ℕ) :
    (crMask ((data.drop i).take 16)).getLsbD k = true ↔ k < 16 ∧ data[i + k]? = some cr := by
  have hbit : (((data.drop i).take 16).map (· == cr)).getD k false = true ↔
      k < 16 ∧ data[i + k]? = some cr := by
    rw [List.getD_eq_getElem?_getD, List.getElem?_map, List.getElem?_take, List.getElem?_drop]
    split
    next hk =>
      cases data[i + k]? with
      | none => simp
      | some b => simp [hk]
    next hk => simp [hk]
  rw [crMask, BitVec.getLsbD_setWidth, BitVec.getLsbD_ofBoolListLE, Bool.and_eq_true,
    decide_eq_true_eq, hbit]
  exact and_iff_right_of_imp fun h => by omega

omit hlen in
/-- Behind a carriage return the other three bytes make the terminator. -/
theorem headerTerminator_prefix_iff {pos : ℕ} (h : data[pos]? = some cr) :
    headerTerminator <+: data.drop pos ↔ [lf, cr, lf] <+: data.drop (pos + 1) := by
  obtain ⟨hpos, hcr⟩ := List.getElem?_eq_some_iff.mp h
  rw [List.drop_eq_getElem_cons hpos, hcr, List.cons_prefix_cons, and_iff_right rfl]

/-- What the loop over the bits of a mask finds: the first terminator at one of its positions. -/
inductive MaskFinds (data : Bytes) (i : ℕ) (mask : BitVec 32) : Option ℕ → Prop
  | nothing (h : ∀ k, mask.getLsbD k = true → ¬ headerTerminator <+: data.drop (i + k)) :
    MaskFinds data i mask none
  | first (k : ℕ) (hbit : mask.getLsbD k = true) (hat : headerTerminator <+: data.drop (i + k))
    (hbefore : ∀ j < k, mask.getLsbD j = true → ¬ headerTerminator <+: data.drop (i + j)) :
    MaskFinds data i mask (some (i + k + 4))

omit hlen in
/-- What is found behind the lowest bit is found by the whole mask, if nothing stands at that
bit. -/
theorem MaskFinds.of_clear {i : ℕ} {mask : BitVec 32} {found : Option ℕ} (hne : mask ≠ 0#32)
    (hlow : ¬ headerTerminator <+: data.drop (i + mask.ctz.toNat))
    (h : MaskFinds data i (mask &&& (mask - 1#32)) found) : MaskFinds data i mask found := by
  have hclear : ∀ k, (mask &&& (mask - 1#32)).getLsbD k = true ↔
      mask.getLsbD k = true ∧ k ≠ mask.ctz.toNat := by
    intro k
    rw [getLsbD_and_sub_one hne, Bool.and_eq_true, decide_eq_true_eq]
  cases h with
  | nothing hnone =>
    refine .nothing fun k hk => ?_
    by_cases hlowest : k = mask.ctz.toNat
    · rwa [hlowest]
    · exact hnone k ((hclear k).mpr ⟨hk, hlowest⟩)
  | first k hset hthere hbefore =>
    refine .first k ((hclear k).mp hset).1 hthere fun j hj hsetj => ?_
    by_cases hlowest : j = mask.ctz.toNat
    · rwa [hlowest]
    · exact hbefore j hj ((hclear j).mpr ⟨hsetj, hlowest⟩)

/-- A turn at the position of a carriage return reads inside, and decides whether a terminator
stands there. -/
theorem maskTurn_eq {pos : ℕ} (hpos : pos + 3 < data.length) (hcr : data[pos]? = some cr) :
    (if wrap (pos + 3) < data.length then comparesAt data [lf, cr, lf] (wrap (pos + 1))
      else some false) = some (decide (headerTerminator <+: data.drop pos)) := by
  have hword : pos + 1 + [lf, cr, lf].length ≤ data.length := by
    simp only [List.length_cons, List.length_nil]
    omega
  rw [wrap_of_lt (show pos + 3 < 2 ^ 64 by omega), if_pos hpos,
    wrap_of_lt (show pos + 1 < 2 ^ 64 by omega), comparesAt_eq hlen hword, Option.some_inj,
    decide_eq_decide]
  exact (headerTerminator_prefix_iff hcr).symm

/-- The loop reads inside. The induction is on the mask, which loses its lowest bit. -/
theorem maskLoop_spec {i : ℕ} (hi : i + 19 < data.length) {mask : BitVec 32}
    (hmask : ∀ k, mask.getLsbD k = true → k < 16 ∧ data[i + k]? = some cr) :
    ∃ found, maskLoop data i mask = some found ∧ MaskFinds data i mask found := by
  induction hsize : mask.toNat using Nat.strong_induction_on generalizing mask with
  | _ size ih =>
    rw [maskLoop]
    split
    next hzero =>
      subst hzero
      exact ⟨none, rfl, .nothing fun k hk => absurd hk (by simp)⟩
    next hne =>
      have hbit := BitVec.getLsbD_true_ctz_of_ne_zero hne
      obtain ⟨hlow, hcr⟩ := hmask _ hbit
      have hpos : wrap (i + mask.ctz.toNat) = i + mask.ctz.toNat := wrap_of_lt (by omega)
      have hfour : wrap (i + mask.ctz.toNat + 4) = i + mask.ctz.toNat + 4 :=
        wrap_of_lt (by omega)
      simp only [hpos, hfour]
      rw [maskTurn_eq hlen (by omega) hcr, Option.bind_some]
      by_cases hat : headerTerminator <+: data.drop (i + mask.ctz.toNat)
      · rw [decide_eq_true hat, if_pos rfl]
        exact ⟨_, rfl, .first _ hbit hat fun j hj hset =>
          absurd (ctz_le_of_getLsbD hset) (not_le.mpr hj)⟩
      · rw [decide_eq_false hat, if_neg Bool.false_ne_true]
        -- The bits that are left are bits of the mask.
        have hrest : ∀ k, (mask &&& (mask - 1#32)).getLsbD k = true →
            k < 16 ∧ data[i + k]? = some cr := by
          intro k hk
          rw [BitVec.getLsbD_and, Bool.and_eq_true] at hk
          exact hmask k hk.1
        obtain ⟨found, hloop, hfinds⟩ := ih _ (hsize ▸ toNat_and_sub_one_lt hne) hrest rfl
        exact ⟨found, hloop, hfinds.of_clear hne hat⟩

/-- A turn of the vector loop looks at 16 positions. -/
theorem maskLoop_crMask {i : ℕ} (hi : i + 19 < data.length) :
    maskLoop data i (crMask ((data.drop i).take 16)) = some none ∧
        findFrom headerTerminator data i = findFrom headerTerminator data (i + 16) ∨
      ∃ k, maskLoop data i (crMask ((data.drop i).take 16)) = some (some (k + 4)) ∧
        findFrom headerTerminator data i = some k := by
  obtain ⟨found, hloop, hfinds⟩ := maskLoop_spec hlen hi fun k => (getLsbD_crMask k).mp
  -- A terminator at one of the positions begins with a carriage return, whose bit is set.
  have hset : ∀ k < 16, headerTerminator <+: data.drop (i + k) →
      (crMask ((data.drop i).take 16)).getLsbD k = true := by
    intro k hk hat
    have hcr := getElem?_of_prefix_drop hat (show 0 < headerTerminator.length by decide)
    exact (getLsbD_crMask k).mpr ⟨hk, hcr⟩
  cases hfinds with
  | nothing hnone =>
    refine Or.inl ⟨hloop, findFrom_eq_findFrom (Nat.le_add_right i 16) fun j hle hlt hat => ?_⟩
    obtain ⟨k, rfl⟩ := Nat.exists_eq_add_of_le hle
    exact hnone k (hset k (by omega) hat) hat
  | first k hbit hat hbefore =>
    refine Or.inr ⟨i + k, hloop, findFrom_eq_some_iff.mpr ⟨Nat.le_add_right i k, hat, ?_⟩⟩
    intro j hle hlt hatj
    obtain ⟨m, rfl⟩ := Nat.exists_eq_add_of_le hle
    have hk := ((getLsbD_crMask k).mp hbit).1
    exact hbefore m (by omega) (hset m (by omega) hatj) hatj

/-- How the vector loop ends: at the first terminator, or at a position that the scalar loop goes on
from as if from the first one. -/
inductive VectorEnds (data : Bytes) (i : ℕ) : VectorExit → Prop
  | found (k : ℕ) (h : findFrom headerTerminator data i = some k) :
    VectorEnds data i (.found (k + 4))
  | handOver (j : ℕ) (hj : j + 3 < 2 ^ 64)
    (h : findFrom headerTerminator data i = findFrom headerTerminator data j) :
    VectorEnds data i (.handOver j)

theorem vectorLoop_spec {budget i : ℕ} (hi : i + 19 < 2 ^ 64) (hbudget : data.length ≤ i + budget) :
    ∃ r, vectorLoop data (budget + 1) i = some r ∧ VectorEnds data i r := by
  induction budget generalizing i with
  | zero =>
    have hend : ¬ wrap (i + 19) < data.length := by
      rw [wrap_of_lt hi]
      omega
    rw [vectorLoop, if_neg hend]
    exact ⟨_, rfl, .handOver i (by omega) rfl⟩
  | succ budget ih =>
    rw [vectorLoop, wrap_of_lt hi]
    by_cases hinside : i + 19 < data.length
    · rw [if_pos hinside, Region.load_eq_some (by omega), Option.bind_some]
      rcases maskLoop_crMask hlen hinside with ⟨hloop, hskip⟩ | ⟨k, hloop, hfind⟩
      · obtain ⟨r, hrest, hends⟩ := ih (i := i + 16) (by omega) (by omega)
        rw [hloop, Option.bind_some, wrap_of_lt (by omega)]
        refine ⟨r, hrest, ?_⟩
        cases hends with
        | found k h => exact .found k (hskip.trans h)
        | handOver j hj h => exact .handOver j hj (hskip.trans h)
      · rw [hloop]
        exact ⟨_, rfl, .found k hfind⟩
    · rw [if_neg hinside]
      exact ⟨_, rfl, .handOver i (by omega) rfl⟩

/-- The vector version computes the scan, unless the bound of its loop wraps around. -/
theorem findHeaderEndSse2_eq {scanStart : ℕ} (hstart : scanStart + 16 < 2 ^ 64) :
    findHeaderEndSse2 data scanStart = some (findHeaderEnd data scanStart) := by
  rw [findHeaderEndSse2, findHeaderEnd_eq_elim]
  split
  next hshort =>
    rw [findFrom_headerTerminator_eq_none (by omega)]
    rfl
  next hlong =>
    rw [scanPosition_eq]
    obtain ⟨r, hloop, hends⟩ := vectorLoop_spec hlen (i := scanStart - 3) (by omega)
      (show data.length ≤ scanStart - 3 + data.length by omega)
    rw [hloop, Option.bind_some]
    cases hends with
    | found k h => rw [h]; rfl
    | handOver j hj h => rw [h]; exact scalarLoop_eq hlen hj

/-- The vector version computes the scan exactly if the bound of its loop does not wrap around to a
value below the length: where it does, the first load is outside the buffer. -/
theorem findHeaderEndSse2_eq_iff {scanStart : ℕ} (hstart : scanStart < 2 ^ 64) :
    findHeaderEndSse2 data scanStart = some (findHeaderEnd data scanStart) ↔
      data.length < 4 ∨ scanStart + 16 < 2 ^ 64 ∨ data.length ≤ scanStart + 16 - 2 ^ 64 := by
  by_cases hwrap : scanStart + 16 < 2 ^ 64
  · exact iff_of_true (findHeaderEndSse2_eq hlen hwrap) (Or.inr (Or.inl hwrap))
  have hbound : wrap (scanStart - 3 + 19) = scanStart + 16 - 2 ^ 64 := by
    rw [wrap]
    omega
  by_cases hshort : data.length < 4
  · refine iff_of_true ?_ (Or.inl hshort)
    rw [findHeaderEndSse2, if_pos hshort, findHeaderEnd_eq_elim,
      findFrom_headerTerminator_eq_none (by omega)]
    rfl
  rw [findHeaderEndSse2, if_neg hshort, scanPosition_eq, vectorLoop, hbound]
  by_cases hend : data.length ≤ scanStart + 16 - 2 ^ 64
  · -- The loop is not entered, and the scalar loop is at its end.
    refine iff_of_true ?_ (Or.inr (Or.inr hend))
    rw [if_neg (not_lt.mpr hend), Option.bind_some]
    exact (scalarLoop_eq hlen (by omega)).trans (congrArg some (findHeaderEnd_eq_elim _).symm)
  · refine iff_of_false ?_ (by omega)
    rw [if_pos (not_le.mp hend), Region.load_eq_none (by omega), Option.bind_none, Option.bind_none]
    exact (Option.some_ne_none _).symm

/-! ### The scanners of the read buffer -/

/-- A position that stands for a null pointer when it is `0`. -/
def asPointer (headerEnd : ℕ) : Option ℕ := if headerEnd = 0 then none else some headerEnd

omit hlen in
theorem asPointer_findHeaderEnd :
    asPointer (findHeaderEnd data 0) = (find headerTerminator data).map (· + 4) := by
  rw [findHeaderEnd_zero]
  cases find headerTerminator data <;> rfl

omit hlen in
theorem findHeaderEndMemmem_eq {b : ReadBuffer} (hb : b.contents = data) :
    b.findHeaderEndMemmem = asPointer (findHeaderEnd data 0) := by
  rw [ReadBuffer.findHeaderEndMemmem, hb, asPointer_findHeaderEnd]
  split
  next hshort =>
    rw [find_headerTerminator_eq_none (by rwa [← hb, ReadBuffer.length_contents]), Option.map_none]
  next => rfl

theorem findHeaderEndFallback_eq {b : ReadBuffer} (hb : b.contents = data) :
    b.findHeaderEndFallback = some (asPointer (findHeaderEnd data 0)) := by
  have hsize : b.size = data.length := by rw [← hb, ReadBuffer.length_contents]
  rw [ReadBuffer.findHeaderEndFallback, hb, hsize, asPointer_findHeaderEnd]
  split
  next hshort => rw [find_headerTerminator_eq_none hshort, Option.map_none]
  next hlong =>
    have hmore : ∀ p, p + 3 < 2 ^ 64 →
        (decide (p < data.length - 3) = true ↔ p + 3 < data.length) := by
      intro p _
      rw [decide_eq_true_eq]
      omega
    have hzero : findFrom headerTerminator data 0 = find headerTerminator data := by
      simp [findFrom]
    rw [scanLoop_eq hlen hmore (by omega) (by omega), Option.map_some, hzero]

end Fits

/-! ### Scans between appends -/

/-- The answers while chunks are appended and each scan starts at the previous length. -/
def appendScans (scan : Bytes → ℕ → Option ℕ) : Bytes → List Bytes → List (Option ℕ)
  | _, [] => []
  | data, chunk :: chunks =>
    scan (data ++ chunk) data.length :: appendScans scan (data ++ chunk) chunks

/-- After scans that found nothing, the next one answers as a scan from the start. -/
theorem getLast?_appendScans {scan : Bytes → ℕ → Option ℕ}
    (hscan : ∀ data scanStart, data.length + 16 < 2 ^ 64 → scanStart ≤ data.length →
      scan data scanStart = some (findHeaderEnd data scanStart)) {data last : Bytes}
    {chunks : List Bytes} (hnone : findHeaderEnd data 0 = 0)
    (hfits : (data ++ (chunks ++ [last]).flatten).length + 16 < 2 ^ 64)
    (hzero : ∀ r ∈ appendScans scan data chunks, r = some 0) :
    (appendScans scan data (chunks ++ [last])).getLast? =
      some (scan (data ++ (chunks ++ [last]).flatten) 0) := by
  induction chunks generalizing data with
  | nil =>
    simp only [List.nil_append, List.flatten_cons, List.flatten_nil, List.append_nil] at hfits ⊢
    rw [appendScans, appendScans, List.getLast?_singleton,
      hscan _ _ hfits (by rw [List.length_append]; omega), hscan _ _ hfits (Nat.zero_le _),
      findHeaderEnd_append hnone]
  | cons chunk chunks ih =>
    rw [appendScans] at hzero
    obtain ⟨hfirst, hrest⟩ := List.forall_mem_cons.mp hzero
    rw [List.cons_append, List.flatten_cons, ← List.append_assoc] at hfits ⊢
    have hshort : (data ++ chunk).length + 16 < 2 ^ 64 := by
      rw [List.length_append] at hfits
      omega
    -- The scan of this chunk found nothing, so that there is no terminator so far.
    have hnone' : findHeaderEnd (data ++ chunk) 0 = 0 := by
      rw [hscan _ _ hshort (by rw [List.length_append]; omega)] at hfirst
      rw [← findHeaderEnd_append hnone]
      exact Option.some_inj.mp hfirst
    rw [appendScans, List.getLast?_cons, ih hnone' hfits hrest, Option.getD_some]

/-- What agrees whatever the start of a scan is: the scalar version with the naive definition, the
scanners of the read buffer with a scan from the start, and scans between appends with one of the
whole. -/
structure ScannersAgree (data : Bytes) : Prop where
  scalar : ∀ scanStart < 2 ^ 64,
    findHeaderEndScalar data scanStart = some (naiveHeaderEnd data scanStart)
  memmem : ∀ b : ReadBuffer, b.contents = data →
    b.findHeaderEndMemmem = asPointer (naiveHeaderEnd data 0)
  fallback : ∀ b : ReadBuffer, b.contents = data →
    b.findHeaderEndFallback = some (asPointer (naiveHeaderEnd data 0))
  appends : ∀ scan ∈ [findHeaderEndScalar, findHeaderEndSse2], ∀ chunks last,
    (chunks ++ [last]).flatten = data → (∀ r ∈ appendScans scan [] chunks, r = some 0) →
      (appendScans scan [] (chunks ++ [last])).getLast? = some (scan data 0)

/-- The scanners agree on every buffer, and the vector version does so exactly for the starts for
which the bound of its loop does not wrap around to a value below the length. -/
theorem scanners_agree {data : Bytes} (hlen : data.length + 16 < 2 ^ 64) :
    ScannersAgree data ∧
      ∀ scanStart < 2 ^ 64,
        findHeaderEndSse2 data scanStart = some (naiveHeaderEnd data scanStart) ↔
          data.length < 4 ∨ scanStart + 16 < 2 ^ 64 ∨ data.length ≤ scanStart + 16 - 2 ^ 64 := by
  constructor
  · constructor
    · intro scanStart hstart
      rw [findHeaderEndScalar_eq hlen hstart, findHeaderEnd_eq_naive]
    · intro b hb
      rw [findHeaderEndMemmem_eq hb, findHeaderEnd_eq_naive]
    · intro b hb
      rw [findHeaderEndFallback_eq hlen hb, findHeaderEnd_eq_naive]
    · intro scan hscan chunks last hdata hzero
      subst hdata
      have hempty : findHeaderEnd [] 0 = 0 := rfl
      refine getLast?_appendScans ?_ hempty hlen hzero
      intro data scanStart hfits hle
      simp only [List.mem_cons, List.not_mem_nil, or_false] at hscan
      rcases hscan with rfl | rfl
      · exact findHeaderEndScalar_eq hfits (by omega)
      · exact findHeaderEndSse2_eq hfits (by omega)
  · intro scanStart hstart
    rw [← findHeaderEnd_eq_naive, findHeaderEndSse2_eq_iff hlen hstart]

/-- A start from which the bound of the vector loop wraps around to `0`. -/
def wrappingStart : ℕ := 2 ^ 64 - 16

/-- The vector version does not agree for every start: it loads 19 bytes in front of a buffer of
four bytes. -/
theorem not_scanners_agree_wrapping :
    ¬ ∀ (data : Bytes) (scanStart : ℕ), data.length + 16 < 2 ^ 64 → scanStart < 2 ^ 64 →
      findHeaderEndSse2 data scanStart = some (naiveHeaderEnd data scanStart) := by
  intro hall
  have hnone : findHeaderEndSse2 headerTerminator wrappingStart = none := by decide
  have hsome := hall headerTerminator wrappingStart (by decide) (by decide)
  rw [hnone] at hsome
  exact absurd hsome.symm (Option.some_ne_none _)

/-- A head of a request. -/
def requestHead : Bytes := ascii "GET / HTTP/1.1\r\nHost: x\r\n\r\n"

theorem scanners_agree_requestHead :
    requestHead.length + 16 < 2 ^ 64 ∧ ScannersAgree requestHead ∧
      findHeaderEndSse2 requestHead 10 = some (naiveHeaderEnd requestHead 10) := by
  have hfits : requestHead.length + 16 < 2 ^ 64 := by decide
  obtain ⟨hagree, hvector⟩ := scanners_agree hfits
  exact ⟨hfits, hagree, (hvector 10 (by decide)).mpr (by decide)⟩

end Lundi
