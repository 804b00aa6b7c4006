import VerifiedRip.Proofs.SyncSearch
/-!
# Agreement runs

`findRuns new old width covered` scans a fresh block `new` for runs that agree with an older
block `old`. At each probed position the sync search (`Runs.syncPoint`) pairs the sample with one
of `old`; the run through the pair is widened backwards, not past the end of the last run found,
and forwards while the blocks agree.

A run pairs sample `k` of `new` with the sample of `old` that its offset names: index
`k + new.begin + offset - old.begin`, computed as a word as positions are (`Runs.pairedIndex`).
Every run found is sound (`Run.Sound`): a stretch of `new` of at least `minWordsOverlap` samples,
at an offset within the width, whose every sample equals the one of `old` it is paired with.
Runs come out in order and do not overlap.

Searched with width zero and nothing covered, the runs are exactly the in-place agreements
(`Runs.MaximalInPlace`): every run found is a maximal stretch on which both blocks hold the
same samples at the same positions, and every such stretch of at least
`minWordsOverlap + minWordsRift - 1` samples is found, since the scan probes every
`minWordsRift` samples.

Blocks are taken shorter than `2 ^ 63` samples, as every slice of 16-bit samples is, and for the
in-place scan shorter than `2 ^ 62`, as every such slice of at most `2 ^ 63 - 1` bytes is.

## Main statements

* `Signal.runUntil_spec`: a backward common run agrees below its length and parts at it.
* `Runs.widen_eq`: the widened run in terms of the two common runs.
* `Runs.findRuns_sound`: every run found is sound, and each ends before the next starts.
* `Runs.findRuns_inPlace_exact`: with width zero the runs are the maximal in-place agreements,
  all of those long enough included.
-/

namespace VerifiedRip

/-! ### Backward runs -/

namespace Signal

/-- The samples of `a` at `i - m` and of `b` at `j - m` are both there and equal. -/
def AgreeBack (a b : Signal) (i j m : Nat) : Prop :=
  m ≤ i ∧ m ≤ j ∧ ∃ x, a[i - m]? = some x ∧ b[j - m]? = some x

/-- The backward common run counted from `n` agrees at every distance below its length and
    parts at its length. -/
theorem runUntil_go_spec (a b : Signal) (i j n : Nat) (h : ∀ m < n, AgreeBack a b i j m) :
    (∀ m < runUntil.go a b i j n, AgreeBack a b i j m) ∧
      ¬ AgreeBack a b i j (runUntil.go a b i j n) := by
  fun_induction runUntil.go a b i j n with
  | case1 n hin heq ih =>
    -- the samples at distance `n` agree: the run goes on
    apply ih
    intro m hm
    rcases Nat.lt_succ_iff_lt_or_eq.mp hm with hm | rfl
    · exact h m hm
    · exact ⟨hin.1, hin.2.1, a[i - m], by simp, by simp [heq]⟩
  | case2 n hin hne =>
    refine ⟨h, ?_⟩
    rintro ⟨-, -, x, hx, hy⟩
    simp only [Array.getElem?_eq_getElem (by omega : i - n < a.size),
      Array.getElem?_eq_getElem (by omega : j - n < b.size), Option.some.injEq] at hx hy
    exact hne (hx.trans hy.symm)
  | case3 n hout =>
    refine ⟨h, fun hn => hout ?_⟩
    -- the pair the run starts from lies in both signals, whether or not the run is empty
    have h0 : AgreeBack a b i j 0 := by
      rcases Nat.eq_zero_or_pos n with rfl | hpos
      · exact hn
      · exact h 0 hpos
    obtain ⟨-, -, x, hx, hy⟩ := h0
    exact ⟨hn.1, hn.2.1, (Array.getElem?_eq_some_iff.mp hx).1, (Array.getElem?_eq_some_iff.mp hy).1⟩

/-- The backward common run of `a` to `i` and `b` to `j` agrees at every distance below its
    length and parts at its length. -/
theorem runUntil_spec (a b : Signal) (i j : Nat) :
    (∀ m < runUntil a b i j, AgreeBack a b i j m) ∧ ¬ AgreeBack a b i j (runUntil a b i j) :=
  runUntil_go_spec a b i j 0 (by simp)

/-- The backward common run reaches back no further than the start of `a`. -/
theorem runUntil_le (a b : Signal) (i j : Nat) : runUntil a b i j ≤ i + 1 := by
  obtain ⟨hrun, -⟩ := runUntil_spec a b i j
  rcases Nat.eq_zero_or_pos (runUntil a b i j) with h0 | hpos
  · omega
  · have := (hrun (runUntil a b i j - 1) (by omega)).1
    omega

/-- From positions inside both signals, the backward count is one less than the backward common
    run. -/
theorem toInt_agreeBackward {a b : Signal} {i j : Nat} (ha : a.size < 2 ^ 63)
    (hb : b.size < 2 ^ 63) (hi : i < a.size) (hj : j < b.size) :
    (agreeBackward a b (Int64.ofNat i) (Int64.ofNat j)).toInt = runUntil a b i j - 1 := by
  have hr := runUntil_le a b i j
  unfold agreeBackward
  rw [Int64.toIndex_ofNat_of_lt (show i < 2 ^ 63 by omega),
    Int64.toIndex_ofNat_of_lt (show j < 2 ^ 63 by omega), if_neg (by
      rintro (h | h | h | h)
      exacts [Int64.not_ofNat_neg (by omega) h, Int64.not_ofNat_neg (by omega) h, by omega,
        by omega]),
    Int64.toInt_sub, Int64.toInt_ofNat_of_lt _ (by omega), Int64.toInt_one,
    Int.bmod_eq_of_le (by omega) (by omega)]

/-- From positions inside both signals, the backward count, cut at zero, is one less than the
    backward common run. -/
theorem toIndex_max_agreeBackward {a b : Signal} {i j : Nat} (ha : a.size < 2 ^ 63)
    (hb : b.size < 2 ^ 63) (hi : i < a.size) (hj : j < b.size) :
    Int64.toIndex (max (agreeBackward a b (Int64.ofNat i) (Int64.ofNat j)) 0) =
      runUntil a b i j - 1 := by
  rw [Int64.toIndex_max_zero, toInt_agreeBackward ha hb hi hj]
  omega

end Signal

namespace Runs

variable {new old : RawBlock} {i j k : Nat}

/-! ### The widened run -/

/-- The run through the pair `i`, `j`: back to one past the last agreeing pair below it, not
    before `floor`, and on to the first pair past it that parts. -/
theorem widen_eq (hnew : new.size < 2 ^ 63) (hold : old.size < 2 ^ 63) (hi : i < new.size)
    (hj : j < old.size) (floor : Nat) :
    widen new old floor i j =
      (max (i - min (Signal.runUntil new.samples old.samples i j - 1) i) floor,
        i + Signal.runFrom new.samples old.samples i j) := by
  unfold widen
  dsimp only
  rw [Signal.toIndex_max_agreeBackward hnew hold hi hj]
  have hfwd := @Signal.toInt_agreeForward new.samples old.samples i j hnew (by omega) (by omega)
  rw [Int64.toIndex_of_nonneg (Int64.le_iff_toInt_le.mpr (by rw [hfwd, Int64.toInt_zero]; omega)),
    hfwd]
  rfl

/-- Inside the run through the pair `i`, `j`, sample `k` of `new` equals sample `j + k - i` of
    `old`. -/
theorem agree_of_mem_widen (hk₁ : i - (Signal.runUntil new.samples old.samples i j - 1) ≤ k)
    (hk₂ : k < i + Signal.runFrom new.samples old.samples i j) :
    i ≤ j + k ∧ ∃ x, new.samples[k]? = some x ∧ old.samples[j + k - i]? = some x := by
  by_cases hki : i ≤ k
  · -- forward of the pair
    obtain ⟨x, hx, hy⟩ := (Signal.runFrom_spec new.samples old.samples i j).1 (k - i) (by omega)
    refine ⟨by omega, x, ?_, ?_⟩
    · rwa [show i + (k - i) = k by omega] at hx
    · rwa [show j + (k - i) = j + k - i by omega] at hy
  · -- backward of the pair
    obtain ⟨hmi, hmj, x, hx, hy⟩ :=
      (Signal.runUntil_spec new.samples old.samples i j).1 (i - k) (by omega)
    refine ⟨by omega, x, ?_, ?_⟩
    · rwa [show i - (i - k) = k by omega] at hx
    · rwa [show j - (i - k) = j + k - i by omega] at hy

/-! ### Soundness of the runs -/

/-- The index of `old` that a run at `offset` pairs sample `k` of `new` with, as a word: the
    position of the sample moved by the offset, less the start of `old`. -/
def pairedIndex (new old : RawBlock) (offset : Int64) (k : Nat) : Int64 :=
  Int64.ofNat k + new.begin + offset - old.begin

/-- A pair's offset pairs sample `k` with the sample as far from `j` as `k` is from `i`. -/
theorem pairedIndex_offsetOf (h : i ≤ j + k) :
    pairedIndex new old (offsetOf new old i j) k = Int64.ofNat (j + k - i) := by
  rw [Int64.ofNat_sub _ _ h, Int64.ofNat_add]
  unfold pairedIndex offsetOf
  apply Int64.toBitVec_inj.mp
  simp only [Int64.toBitVec_sub, Int64.toBitVec_add]
  ring

end Runs

/-- A run is sound for `new` against `old` within `width`: a non-empty stretch of `new` of at least
    `minWordsOverlap` samples, at an offset within `width`, each of whose samples equals the sample
    of `old` that the offset pairs it with. -/
structure Run.Sound (new old : RawBlock) (width : Int64) (r : Run) : Prop where
  start_lt_stop : r.start < r.stop
  stop_le : r.stop ≤ new.size
  long : minWordsOverlap ≤ r.stop - r.start
  near : |r.offset.toInt| ≤ width.toInt
  pairs : ∀ k, r.start ≤ k → k < r.stop →
    0 ≤ (Runs.pairedIndex new old r.offset k).toInt ∧
      (Runs.pairedIndex new old r.offset k).toInt < old.size ∧
      old.samples[(Runs.pairedIndex new old r.offset k).toInt.toNat]? = new.samples[k]?

namespace Runs

variable {new old : RawBlock} {width : Int64} {covered : List (Nat × Nat)} {hi : Nat}

/-- A run through a sync point, long enough to keep, is sound. -/
theorem sound_of_syncPoint (hnew : new.size < 2 ^ 63) (hold : old.size < 2 ^ 63)
    (hw : 0 ≤ width) {floor i j : Nat} (hi : i < new.size)
    (hsync : syncPoint new old i width = some j)
    (hlong : minWordsOverlap ≤ (widen new old floor i j).2 - (widen new old floor i j).1) :
    Run.Sound new old width
      ⟨(widen new old floor i j).1, (widen new old floor i j).2, offsetOf new old i j⟩ := by
  obtain ⟨hj, hrun, hnear⟩ := syncPoint_sound hnew hold hi hw hsync
  have hle := Signal.runFrom_le new.samples old.samples i j
  have hsize : new.size = new.samples.size := rfl
  rw [widen_eq hnew hold hi hj] at hlong ⊢
  have hpos : 0 < minWordsOverlap := by decide
  refine ⟨by dsimp only; omega, by dsimp only; omega, hlong, hnear, fun k hk₁ hk₂ => ?_⟩
  dsimp only at hk₁ hk₂ ⊢
  obtain ⟨hij, x, hx, hy⟩ := @agree_of_mem_widen new old i j k (by omega) hk₂
  have hidx : j + k - i < old.size := (Array.getElem?_eq_some_iff.mp hy).1
  rw [pairedIndex_offsetOf hij, Int64.toInt_ofNat_of_lt _ (by omega)]
  exact ⟨by omega, by omega, by rw [Int.toNat_natCast, hy, hx]⟩

/-- The widened run starts no earlier than the floor it is given. -/
theorem floor_le_widen (floor i j : Nat) : floor ≤ (widen new old floor i j).1 :=
  le_max_right _ _

/-! ### The scan, branch by branch -/

section ScanSteps

variable {floor i : Nat} {acc : Array Run}

theorem scan_of_not_lt (h : ¬ i < hi) : scan new old width covered hi floor i acc = acc := by
  rw [scan, dif_neg h]

theorem scan_of_covered {s e : Nat} (h : i < hi)
    (hf : covered.find? (fun r => decide (r.1 ≤ i) && decide (i < r.2)) = some (s, e))
    (he : i < e) :
    scan new old width covered hi floor i acc = scan new old width covered hi floor e acc := by
  rw [scan, dif_pos h, hf]
  exact if_pos he

theorem scan_of_covered_stop {s e : Nat} (h : i < hi)
    (hf : covered.find? (fun r => decide (r.1 ≤ i) && decide (i < r.2)) = some (s, e))
    (he : ¬ i < e) : scan new old width covered hi floor i acc = acc := by
  rw [scan, dif_pos h, hf]
  exact if_neg he

theorem scan_of_no_sync (h : i < hi)
    (hf : covered.find? (fun r => decide (r.1 ≤ i) && decide (i < r.2)) = none)
    (hs : syncPoint new old i width = none) :
    scan new old width covered hi floor i acc =
      scan new old width covered hi floor (i + minWordsRift) acc := by
  rw [scan, dif_pos h, hf]
  dsimp only
  rw [hs]

theorem scan_of_run {j start stop : Nat} (h : i < hi)
    (hf : covered.find? (fun r => decide (r.1 ≤ i) && decide (i < r.2)) = none)
    (hs : syncPoint new old i width = some j) (hwd : widen new old floor i j = (start, stop))
    (hkeep : i < stop ∧ minWordsOverlap ≤ stop - start) :
    scan new old width covered hi floor i acc =
      scan new old width covered hi stop stop (acc.push ⟨start, stop, offsetOf new old i j⟩) := by
  rw [scan, dif_pos h, hf]
  dsimp only
  rw [hs]
  dsimp only
  rw [hwd]
  exact dif_pos hkeep

theorem scan_of_short {j start stop : Nat} (h : i < hi)
    (hf : covered.find? (fun r => decide (r.1 ≤ i) && decide (i < r.2)) = none)
    (hs : syncPoint new old i width = some j) (hwd : widen new old floor i j = (start, stop))
    (hkeep : ¬ (i < stop ∧ minWordsOverlap ≤ stop - start)) :
    scan new old width covered hi floor i acc =
      scan new old width covered hi floor (i + minWordsRift) acc := by
  rw [scan, dif_pos h, hf]
  dsimp only
  rw [hs]
  dsimp only
  rw [hwd]
  exact dif_neg hkeep

end ScanSteps

/-! ### Every run found is sound -/

/-- What the scan has found so far: sound runs, each ending before the next starts, the last
    ending by `floor`. -/
structure SoundSoFar (new old : RawBlock) (width : Int64) (floor : Nat) (acc : Array Run) :
    Prop where
  sound : ∀ r ∈ acc, r.Sound new old width
  chain : acc.toList.IsChain fun r q => r.stop ≤ q.start
  last_le : ∀ r ∈ acc.back?, r.stop ≤ floor

theorem soundSoFar_empty (floor : Nat) : SoundSoFar new old width floor #[] :=
  ⟨by simp, List.IsChain.nil, by simp⟩

/-- A sound run that starts at or after `floor` extends what was found; its end is the new
    floor. -/
theorem SoundSoFar.push {floor : Nat} {acc : Array Run} {r : Run}
    (h : SoundSoFar new old width floor acc) (hr : r.Sound new old width) (hstart : floor ≤ r.start) :
    SoundSoFar new old width r.stop (acc.push r) where
  sound q hq := by
    rcases Array.mem_push.mp hq with hq | rfl
    · exact h.sound q hq
    · exact hr
  chain := by
    rw [Array.toList_push]
    refine h.chain.append (List.isChain_singleton r) fun x hx y hy => ?_
    rw [Array.getLast?_toList] at hx
    simp only [List.head?_cons, Option.mem_def, Option.some.injEq] at hy
    subst hy
    exact Nat.le_trans (h.last_le x hx) hstart
  last_le q hq := by
    rw [Array.back?_push, Option.mem_def, Option.some.injEq] at hq
    subst hq
    exact Nat.le_refl _

/-- The scan keeps what it has found sound and in order. The induction follows the scan; a run
    is only kept at a sync point, and starts at or after the floor. -/
theorem scan_sound (hnew : new.size < 2 ^ 63) (hold : old.size < 2 ^ 63) (hw : 0 ≤ width)
    (hhi : hi ≤ new.size) (floor i : Nat) (acc : Array Run)
    (hacc : SoundSoFar new old width floor acc) :
    (∀ r ∈ scan new old width covered hi floor i acc, r.Sound new old width) ∧
      (scan new old width covered hi floor i acc).toList.IsChain fun r q => r.stop ≤ q.start := by
  induction floor, i, acc using scan.induct new old width covered hi with
  | case1 floor i acc h s e hf he ih => rw [scan_of_covered h hf he]; exact ih hacc
  | case2 floor i acc h s e hf he => rw [scan_of_covered_stop h hf he]; exact ⟨hacc.sound, hacc.chain⟩
  | case3 floor i acc h hf hs ih => rw [scan_of_no_sync h hf hs]; exact ih hacc
  | case4 floor i acc h hf j hs start stop hwd hkeep ih =>
    rw [scan_of_run h hf hs hwd hkeep]
    apply ih
    have hr := @sound_of_syncPoint new old width hnew hold hw floor i j (by omega) hs
      (by rw [hwd]; exact hkeep.2)
    rw [hwd] at hr
    have hstart := @floor_le_widen new old floor i j
    rw [hwd] at hstart
    exact hacc.push hr hstart
  | case5 floor i acc h hf j hs start stop hwd hkeep ih => rw [scan_of_short h hf hs hwd hkeep]; exact ih hacc
  | case6 floor i acc h => rw [scan_of_not_lt h]; exact ⟨hacc.sound, hacc.chain⟩

/-- Every run found is sound: a stretch of at least `minWordsOverlap` samples of `new`, at an
    offset within `width`, each of whose samples equals the sample of `old` its offset pairs it
    with; and each run ends before the next one starts. -/
theorem findRuns_sound (new old : RawBlock) (width : Int64) (covered : List (Nat × Nat))
    (hnew : new.size < 2 ^ 63) (hold : old.size < 2 ^ 63) (hw : 0 ≤ width) :
    (∀ r ∈ findRuns new old width covered, r.Sound new old width) ∧
      (findRuns new old width covered).toList.IsChain fun r q => r.stop ≤ q.start := by
  unfold findRuns
  split
  · exact ⟨by simp, List.IsChain.nil⟩
  · have : minWordsSearch = 64 := rfl
    exact scan_sound hnew hold hw (Nat.le_trans (Nat.min_le_right _ _) (by omega)) _ _ _
      (soundSoFar_empty _)

/-- A read 16 samples after another, searched 100 samples either side. -/
theorem findRuns_sound_rampReads :
    ((rampRead 16).size < 2 ^ 63 ∧ (rampRead 0).size < 2 ^ 63 ∧ (0 : Int64) ≤ 100) ∧
      (∀ r ∈ findRuns (rampRead 16) (rampRead 0) 100 [], r.Sound (rampRead 16) (rampRead 0) 100) ∧
      (findRuns (rampRead 16) (rampRead 0) 100 []).toList.IsChain fun r q => r.stop ≤ q.start :=
  ⟨⟨by decide +kernel, by decide +kernel, by decide⟩,
    findRuns_sound _ _ _ _ (by decide +kernel) (by decide +kernel) (by decide)⟩


/-- Every run the scan has found stays found. -/
theorem mem_scan_of_mem {r : Run} (floor i : Nat) (acc : Array Run) (hr : r ∈ acc) :
    r ∈ scan new old width covered hi floor i acc := by
  induction floor, i, acc using scan.induct new old width covered hi with
  | case1 floor i acc h s e hf he ih => rw [scan_of_covered h hf he]; exact ih hr
  | case2 floor i acc h s e hf he => rw [scan_of_covered_stop h hf he]; exact hr
  | case3 floor i acc h hf hs ih => rw [scan_of_no_sync h hf hs]; exact ih hr
  | case4 floor i acc h hf j hs start stop hwd hkeep ih =>
    rw [scan_of_run h hf hs hwd hkeep]
    exact ih (Array.mem_push.mpr (Or.inl hr))
  | case5 floor i acc h hf j hs start stop hwd hkeep ih =>
    rw [scan_of_short h hf hs hwd hkeep]
    exact ih hr
  | case6 floor i acc h => rw [scan_of_not_lt h]; exact hr

/-! ### Runs in place -/

/-- How far `new` starts after `old`: the word difference of their starts, read as an integer.
    Sample `k` of `new` lies where sample `k + shiftOf new old` of `old` does. -/
def shiftOf (new old : RawBlock) : Int := (new.begin - old.begin).toInt

/-- Sample `k` of `new` is there and equals the sample of `old` at the same position. -/
def AgreesInPlace (new old : RawBlock) (k : Nat) : Prop :=
  0 ≤ k + shiftOf new old ∧
    ∃ x, new.samples[k]? = some x ∧ old.samples[(k + shiftOf new old).toNat]? = some x

/-- `[s, e)` is a maximal non-empty stretch of `new` that agrees with `old` in place. -/
structure MaximalInPlace (new old : RawBlock) (s e : Nat) : Prop where
  lt : s < e
  agrees : ∀ k, s ≤ k → k < e → AgreesInPlace new old k
  left : s = 0 ∨ ¬ AgreesInPlace new old (s - 1)
  right : ¬ AgreesInPlace new old e

/-- No in-place agreement runs across `floor`: it is the start of `new`, or a sample on one side
    of it disagrees. -/
def Barrier (new old : RawBlock) (floor : Nat) : Prop :=
  floor = 0 ∨ ¬ AgreesInPlace new old (floor - 1) ∨ ¬ AgreesInPlace new old floor

theorem shiftOf_mem_range : -2 ^ 63 ≤ shiftOf new old ∧ shiftOf new old < 2 ^ 63 :=
  Int64.toInt_mem_range _

/-- The in-place index of sample `k` is `k` moved by the shift, or that less `2 ^ 64`. -/
theorem inPlace_toInt_cases {k : Nat} (hk : k < 2 ^ 63) :
    (inPlace new old k).toInt = k + shiftOf new old ∨
      (inPlace new old k).toInt = k + shiftOf new old - 2 ^ 64 := by
  have heq : inPlace new old k = Int64.ofNat k + (new.begin - old.begin) := by
    unfold inPlace
    apply Int64.toBitVec_inj.mp
    simp only [Int64.toBitVec_sub, Int64.toBitVec_add]
    ring
  have hk' := Int64.toInt_ofNat_of_lt k hk
  have hc := Int64.toInt_mem_range (new.begin - old.begin)
  have hr := Int64.toInt_mem_range (Int64.ofNat k + (new.begin - old.begin))
  unfold shiftOf
  rw [heq]
  rcases Int64.toInt_add_cases (Int64.ofNat k) (new.begin - old.begin) with h | h | h <;> omega

/-- A sample that agrees in place lies in `new`, over `old`. -/
theorem AgreesInPlace.bounds {k : Nat} (h : AgreesInPlace new old k) :
    k < new.size ∧ 0 ≤ k + shiftOf new old ∧ k + shiftOf new old < old.size := by
  obtain ⟨h0, x, hx, hy⟩ := h
  have hk := (Array.getElem?_eq_some_iff.mp hx).1
  have hj := (Array.getElem?_eq_some_iff.mp hy).1
  have hsize : old.size = old.samples.size := rfl
  exact ⟨hk, h0, by omega⟩

/-- A pair in place has offset zero. -/
theorem offsetOf_eq_zero {i j : Nat} (hi : i < 2 ^ 63) (hj : j < 2 ^ 63)
    (h : (j : Int) = i + shiftOf new old) : offsetOf new old i j = 0 := by
  rw [offsetOf_eq, ← Int64.toInt_inj, Int64.toInt_zero]
  have hjw := Int64.toInt_ofNat_of_lt j hj
  have hr := Int64.toInt_mem_range (Int64.ofNat j - inPlace new old i)
  have hc := @shiftOf_mem_range new old
  rcases Int64.toInt_sub_cases (Int64.ofNat j) (inPlace new old i) with hs | hs | hs <;>
  rcases @inPlace_toInt_cases new old i hi with hd | hd <;> omega

/-- From a pair in place, agreement `m` samples forward is in-place agreement. -/
theorem agreeAt_iff_agreesInPlace {i j m : Nat} (hj : (j : Int) = i + shiftOf new old) :
    Signal.AgreeAt new.samples old.samples i j m ↔ AgreesInPlace new old (i + m) := by
  have hidx : ((i + m : Nat) + shiftOf new old).toNat = j + m := by omega
  rw [AgreesInPlace, hidx]
  exact ⟨fun h => ⟨by omega, h⟩, fun h => h.2⟩

/-- From a pair in place, agreement `m` samples backward is in-place agreement. -/
theorem agreeBack_iff_agreesInPlace {i j m : Nat} (hj : (j : Int) = i + shiftOf new old) :
    Signal.AgreeBack new.samples old.samples i j m ↔ m ≤ i ∧ AgreesInPlace new old (i - m) := by
  constructor
  · rintro ⟨hmi, hmj, x, hx, hy⟩
    have hidx : ((i - m : Nat) + shiftOf new old).toNat = j - m := by omega
    exact ⟨hmi, by omega, x, hx, by rwa [hidx]⟩
  · rintro ⟨hmi, h0, x, hx, hy⟩
    have hidx : ((i - m : Nat) + shiftOf new old).toNat = j - m := by omega
    rw [hidx] at hy
    exact ⟨hmi, by omega, x, hx, hy⟩

/-! ### Sync points of width zero -/

/-- With width zero a sync point is in place, and `minWordsSearch` samples agree from it. -/
theorem syncPoint_zero_some (hnew : new.size < 2 ^ 63) (hold : old.size < 2 ^ 63) {i j : Nat}
    (hi : i < new.size) (h : syncPoint new old i 0 = some j) :
    (j : Int) = i + shiftOf new old ∧ j < old.size ∧
      minWordsSearch ≤ Signal.runFrom new.samples old.samples i j := by
  obtain ⟨hj, hrun, hnear⟩ := syncPoint_sound hnew hold hi (by decide) h
  -- within zero of in place is in place
  have hoff : (offsetOf new old i j).toInt = 0 := by
    rw [Int64.toInt_zero] at hnear
    exact abs_nonpos_iff.mp hnear
  rw [offsetOf_eq] at hoff
  have hjw := Int64.toInt_ofNat_of_lt j (by omega : j < 2 ^ 63)
  have hd := Int64.toInt_mem_range (inPlace new old i)
  have hc := @shiftOf_mem_range new old
  refine ⟨?_, hj, hrun⟩
  rcases Int64.toInt_sub_cases (Int64.ofNat j) (inPlace new old i) with hs | hs | hs <;>
  rcases @inPlace_toInt_cases new old i (by omega) with hd' | hd' <;> omega

/-- With width zero, a position from which `minWordsSearch` samples agree in place syncs in
    place. -/
theorem syncPoint_zero_of_agrees (hnew : new.size < 2 ^ 63) (hold : old.size < 2 ^ 63) {i : Nat}
    (hi : i < new.size) (h : ∀ m < minWordsSearch, AgreesInPlace new old (i + m)) :
    syncPoint new old i 0 = some (i + shiftOf new old).toNat := by
  obtain ⟨-, h0, hlt⟩ := (h 0 (by decide)).bounds
  have hc := @shiftOf_mem_range new old
  have hr := Int64.toInt_mem_range (inPlace new old i)
  have hd : (inPlace new old i).toInt = i + shiftOf new old := by
    rcases @inPlace_toInt_cases new old i (by omega) with hd | hd <;> omega
  have hrun : minWordsSearch ≤
      Signal.runFrom new.samples old.samples i (inPlace new old i).toInt.toNat := by
    rw [Signal.le_runFrom_iff, Signal.agreesFor_iff]
    intro m hm
    exact (agreeAt_iff_agreesInPlace (by omega)).mpr (h m hm)
  have htest := (inPlace_test_iff hnew hold (by omega)).mpr ⟨by omega, by omega, hrun⟩
  rw [syncPoint_eq, if_pos htest, Int64.toIndex_of_nonneg htest.1, hd]

/-- The run through a width-zero sync point, widened with no floor, is a maximal in-place
    stretch: the common runs stop exactly where in-place agreement does. -/
theorem maximalInPlace_of_syncPoint_zero (hnew : new.size < 2 ^ 63) (hold : old.size < 2 ^ 63)
    {i j : Nat} (hi : i < new.size) (h : syncPoint new old i 0 = some j) :
    MaximalInPlace new old (i - (Signal.runUntil new.samples old.samples i j - 1))
        (i + Signal.runFrom new.samples old.samples i j) ∧
      Signal.runUntil new.samples old.samples i j - 1 ≤ i := by
  obtain ⟨hj, -, hrun⟩ := syncPoint_zero_some hnew hold hi h
  obtain ⟨hfwd, hfstop⟩ := Signal.runFrom_spec new.samples old.samples i j
  obtain ⟨hback, hbstop⟩ := Signal.runUntil_spec new.samples old.samples i j
  set f := Signal.runFrom new.samples old.samples i j
  set r := Signal.runUntil new.samples old.samples i j
  have hpos : 0 < minWordsSearch := by decide
  -- the pair itself agrees, so the backward run is not empty
  have hr0 : 0 < r := by
    have h0 := (agreeAt_iff_agreesInPlace hj).mp (hfwd 0 (by omega))
    apply Nat.pos_of_ne_zero
    intro hz
    apply hbstop
    rw [hz, agreeBack_iff_agreesInPlace hj]
    exact ⟨Nat.zero_le _, by simpa using h0⟩
  have hri := (hback (r - 1) (Nat.sub_lt hr0 Nat.one_pos)).1
  refine ⟨⟨by omega, fun k hk₁ hk₂ => ?_, ?_, ?_⟩, hri⟩
  · -- forward of the pair through the forward run, backward of it through the backward one
    by_cases hki : i ≤ k
    · have := (agreeAt_iff_agreesInPlace hj).mp (hfwd (k - i) (by omega))
      rwa [Nat.add_sub_cancel' hki] at this
    · have := ((agreeBack_iff_agreesInPlace hj).mp (hback (i - k) (by omega))).2
      rwa [Nat.sub_sub_self (by omega)] at this
  · -- the backward run stops at the start of `new` or at a sample that disagrees
    by_cases hri' : r ≤ i
    · refine Or.inr fun hagree => hbstop ((agreeBack_iff_agreesInPlace hj).mpr ⟨hri', ?_⟩)
      rwa [show i - (r - 1) - 1 = i - r by omega] at hagree
    · exact Or.inl (by omega)
  · exact fun hagree => hfstop ((agreeAt_iff_agreesInPlace hj).mpr hagree)

/-! ### Maximal stretches and barriers -/

namespace MaximalInPlace

variable {s e : Nat} (h : MaximalInPlace new old s e)
include h

/-- A maximal stretch ends at a barrier. -/
theorem barrier_stop : Barrier new old e := Or.inr (Or.inr h.right)

/-- A maximal stretch lies in `new`, and over `old`. -/
theorem bounds : e ≤ new.size ∧ 0 ≤ s + shiftOf new old ∧ (e - 1 : Nat) + shiftOf new old < old.size := by
  obtain ⟨-, hs0, -⟩ := (h.agrees s le_rfl h.lt).bounds
  obtain ⟨hen, -, hes⟩ := (h.agrees (e - 1) (by have := h.lt; omega) (by have := h.lt; omega)).bounds
  exact ⟨by omega, hs0, hes⟩

/-- Two maximal stretches that share a sample are the same. -/
theorem eq_of_mem {s' e' k : Nat} (h' : MaximalInPlace new old s' e') (hk : s ≤ k ∧ k < e)
    (hk' : s' ≤ k ∧ k < e') : s = s' ∧ e = e' := by
  have hs : ¬ s < s' := fun hlt =>
    h'.left.elim (fun h0 => by omega) (· (h.agrees _ (by omega) (by omega)))
  have hs' : ¬ s' < s := fun hlt =>
    h.left.elim (fun h0 => by omega) (· (h'.agrees _ (by omega) (by omega)))
  have he : ¬ e < e' := fun hlt => h.right (h'.agrees _ (by omega) hlt)
  have he' : ¬ e' < e := fun hlt => h'.right (h.agrees _ (by omega) hlt)
  omega

/-- A stretch agreeing in place that starts before a maximal one ends by its start. -/
theorem le_start {a b : Nat} (ha : a < s) (hab : ∀ k, a ≤ k → k < b → AgreesInPlace new old k) :
    b ≤ s := by
  by_contra hlt
  exact h.left.elim (fun h0 => by omega) (· (hab _ (by omega) (by omega)))

end MaximalInPlace

/-- A barrier at or below `i` lies at or below the start of any in-place stretch through `i`. -/
theorem Barrier.le_start {floor s i : Nat} (hb : Barrier new old floor) (hfi : floor ≤ i)
    (h : ∀ k, s ≤ k → k ≤ i → AgreesInPlace new old k) : floor ≤ s := by
  by_contra hlt
  rcases hb with h0 | h1 | h2
  · omega
  · exact h1 (h _ (by omega) (by omega))
  · exact h2 (h _ (by omega) hfi)

/-- At a width-zero sync point at or past a barrier, the widened run is the maximal in-place
    stretch through the point, and reaches `minWordsSearch` samples past it. -/
theorem widen_maximalInPlace (hnew : new.size < 2 ^ 63) (hold : old.size < 2 ^ 63)
    {floor i j : Nat} (hi : i < new.size) (hs : syncPoint new old i 0 = some j)
    (hb : Barrier new old floor) (hfi : floor ≤ i) :
    MaximalInPlace new old (widen new old floor i j).1 (widen new old floor i j).2 ∧
      (widen new old floor i j).1 ≤ i ∧ i + minWordsSearch ≤ (widen new old floor i j).2 := by
  obtain ⟨-, hj, hrun⟩ := syncPoint_zero_some hnew hold hi hs
  obtain ⟨hmax, hri⟩ := maximalInPlace_of_syncPoint_zero hnew hold hi hs
  have hpos : 0 < minWordsSearch := by decide
  -- the barrier lies at or below the stretch, so the floor does not cut it
  have hfloor := hb.le_start hfi fun k hk₁ hk₂ => hmax.agrees k hk₁ (by omega)
  rw [widen_eq hnew hold hi hj floor]
  dsimp only
  rw [show max (i - min (Signal.runUntil new.samples old.samples i j - 1) i) floor =
    i - (Signal.runUntil new.samples old.samples i j - 1) by omega]
  exact ⟨hmax, by omega, by omega⟩

/-- The in-place scan's first floor is a barrier: no sample before it lies over `old`. -/
theorem barrier_of_start {floor : Nat} (h : floor = 0 ∨ (floor : Int) = -shiftOf new old) :
    Barrier new old floor := by
  rcases h with h | h
  · exact Or.inl h
  · by_cases h0 : floor = 0
    · exact Or.inl h0
    · exact Or.inr (Or.inl fun hagree => by have := hagree.1; omega)

/-- The in-place scan starts at the first sample of `new` over `old`, or at zero. -/
theorem startIndex_eq :
    Int64.toIndex (max (old.begin - 0 - new.begin) 0) = 0 ∨
      (Int64.toIndex (max (old.begin - 0 - new.begin) 0) : Int) = -shiftOf new old := by
  have heq : old.begin - 0 - new.begin = 0 - (new.begin - old.begin) := by
    apply Int64.toBitVec_inj.mp
    simp only [Int64.toBitVec_sub, Int64.toBitVec_zero, BitVec.sub_zero, BitVec.zero_sub]
    ring
  have hc := Int64.toInt_mem_range (new.begin - old.begin)
  have hr := Int64.toInt_mem_range (0 - (new.begin - old.begin))
  rw [Int64.toIndex_max_zero, heq]
  unfold shiftOf
  rcases Int64.toInt_sub_cases 0 (new.begin - old.begin) with h | h | h <;>
  · rw [Int64.toInt_zero] at h
    omega

/-- The in-place scan's bound from `old`: the samples of `new` before the end of `old`, when
    that count stays in the word range. -/
theorem endIndex_eq (hold : old.size < 2 ^ 63)
    (hfit : (old.size : Int) - shiftOf new old < 2 ^ 63) :
    Int64.toIndex (max (old.endPos + 0 - new.begin) 0) = ((old.size : Int) - shiftOf new old).toNat := by
  have heq : old.endPos + 0 - new.begin = Int64.ofNat old.size - (new.begin - old.begin) := by
    unfold RawBlock.endPos
    apply Int64.toBitVec_inj.mp
    simp only [Int64.toBitVec_sub, Int64.toBitVec_add, Int64.toBitVec_zero, BitVec.add_zero]
    ring
  have hs := Int64.toInt_ofNat_of_lt old.size hold
  have hc := Int64.toInt_mem_range (new.begin - old.begin)
  have hr := Int64.toInt_mem_range (Int64.ofNat old.size - (new.begin - old.begin))
  rw [Int64.toIndex_max_zero, heq]
  unfold shiftOf at hfit ⊢
  rcases Int64.toInt_sub_cases (Int64.ofNat old.size) (new.begin - old.begin) with h | h | h <;>
    omega

end Runs

/-- A run of the in-place scan: at offset zero, at least `minWordsOverlap` samples long, and a
    maximal in-place stretch. -/
structure Run.InPlace (new old : RawBlock) (r : Run) : Prop where
  offset_eq : r.offset = 0
  long : minWordsOverlap ≤ r.stop - r.start
  maximal : Runs.MaximalInPlace new old r.start r.stop

namespace Runs

variable {new old : RawBlock} {hi : Nat}

/-! ### The in-place scan -/

/-- The in-place scan keeps its runs in place: from a barrier at or below the probe, a run is
    only found at a sync point, where it is the maximal stretch through the point, and its end
    is the next barrier. -/
theorem scan_inPlace_sound (hnew : new.size < 2 ^ 63) (hold : old.size < 2 ^ 63)
    (hhi : hi ≤ new.size) (floor i : Nat) (acc : Array Run) (hb : Barrier new old floor)
    (hfi : floor ≤ i) (hacc : ∀ r ∈ acc, r.InPlace new old) :
    ∀ r ∈ scan new old 0 [] hi floor i acc, r.InPlace new old := by
  induction floor, i, acc using scan.induct new old 0 [] hi with
  | case1 _ _ _ _ _ _ hf => simp at hf
  | case2 _ _ _ _ _ _ hf => simp at hf
  | case3 floor i acc h hf hs ih => rw [scan_of_no_sync h hf hs]; exact ih hb (by omega) hacc
  | case4 floor i acc h hf j hs start stop hwd hkeep ih =>
    rw [scan_of_run h hf hs hwd hkeep]
    obtain ⟨hmax, -, -⟩ := widen_maximalInPlace hnew hold (by omega) hs hb hfi
    obtain ⟨hj, hjo, -⟩ := syncPoint_zero_some hnew hold (by omega) hs
    simp only [hwd] at hmax
    refine ih hmax.barrier_stop le_rfl fun q hq => ?_
    rcases Array.mem_push.mp hq with hq | rfl
    · exact hacc q hq
    · exact ⟨offsetOf_eq_zero (by omega) (by omega) hj, hkeep.2, hmax⟩
  | case5 floor i acc h hf j hs start stop hwd hkeep ih =>
    rw [scan_of_short h hf hs hwd hkeep]
    exact ih hb (by omega) hacc
  | case6 floor i acc h => rw [scan_of_not_lt h]; exact hacc

/-- The in-place scan finds a maximal stretch of at least `minWordsOverlap + minWordsRift - 1`
    samples. The induction follows the scan, with the floor a barrier at or below both the probe
    and the stretch, and the probe at least `minWordsSearch` samples before the stretch ends:
    probes before the stretch step by `minWordsRift` or jump to the end of an earlier stretch, so
    one lands in the stretch while `minWordsSearch` samples of it remain. -/
theorem scan_finds_maximal (hnew : new.size < 2 ^ 63) (hold : old.size < 2 ^ 63)
    (hhi : hi ≤ new.size) {s e : Nat} (hm : MaximalInPlace new old s e)
    (hlong : minWordsOverlap + minWordsRift - 1 ≤ e - s) (hend : e - minWordsSearch < hi)
    (floor i : Nat) (acc : Array Run) (hb : Barrier new old floor) (hfi : floor ≤ i)
    (hfs : floor ≤ s) (hie : i + minWordsSearch ≤ e) :
    (⟨s, e, 0⟩ : Run) ∈ scan new old 0 [] hi floor i acc := by
  have hR : minWordsRift = 16 := rfl
  have hS : minWordsSearch = 64 := rfl
  have hO : minWordsOverlap = 64 := rfl
  induction floor, i, acc using scan.induct new old 0 [] hi with
  | case1 _ _ _ _ _ _ hf => simp at hf
  | case2 _ _ _ _ _ _ hf => simp at hf
  | case3 floor i acc h hf hs ih =>
    -- no sync point: the probe lies before the stretch
    rw [scan_of_no_sync h hf hs]
    have his : i < s := by
      by_contra hge
      have := syncPoint_zero_of_agrees hnew hold (by omega) fun m hm' =>
        hm.agrees (i + m) (by omega) (by omega)
      rw [hs] at this
      cases this
    exact ih hb (by omega) hfs (by omega)
  | case4 floor i acc h hf j hs start stop hwd hkeep ih =>
    rw [scan_of_run h hf hs hwd hkeep]
    obtain ⟨hmax, hsi, hstop⟩ := widen_maximalInPlace hnew hold (by omega) hs hb hfi
    obtain ⟨hj, hjo, -⟩ := syncPoint_zero_some hnew hold (by omega) hs
    simp only [hwd] at hmax hsi hstop
    by_cases his : s ≤ i
    · -- the probe lies in the stretch, so the run found is the stretch
      obtain ⟨rfl, rfl⟩ := hm.eq_of_mem hmax ⟨his, by omega⟩ ⟨hsi, by omega⟩
      rw [offsetOf_eq_zero (by omega) (by omega) hj]
      exact mem_scan_of_mem _ _ _ (Array.mem_push.mpr (Or.inr rfl))
    · -- the run found ends by the start of the stretch
      have hle := hm.le_start (by omega) hmax.agrees
      exact ih hmax.barrier_stop le_rfl hle (by omega)
  | case5 floor i acc h hf j hs start stop hwd hkeep ih =>
    -- a width-zero sync point always gives a run long enough to keep
    obtain ⟨-, hsi, hstop⟩ := widen_maximalInPlace hnew hold (by omega) hs hb hfi
    simp only [hwd] at hsi hstop
    exact absurd ⟨by omega, by omega⟩ hkeep
  | case6 floor i acc h => exact absurd (by omega) h

/-- With width zero and nothing covered, the runs found are exactly the in-place ones: each is a
    maximal stretch on which both blocks hold the same samples at the same positions, at offset
    zero and at least `minWordsOverlap` samples long; and every such stretch of at least
    `minWordsOverlap + minWordsRift - 1` samples is found. -/
theorem findRuns_inPlace_exact (new old : RawBlock) (hnew : new.size < 2 ^ 62)
    (hold : old.size < 2 ^ 62) :
    (∀ r ∈ findRuns new old 0 [], r.InPlace new old) ∧
      ∀ s e, MaximalInPlace new old s e → minWordsOverlap + minWordsRift - 1 ≤ e - s →
        (⟨s, e, 0⟩ : Run) ∈ findRuns new old 0 [] := by
  have hS : minWordsSearch = 64 := rfl
  have hc := @shiftOf_mem_range new old
  have hlo := @startIndex_eq new old
  unfold findRuns
  constructor
  · split
    · simp
    · exact scan_inPlace_sound (by omega) (by omega) (by omega) _ _ _ (barrier_of_start hlo)
        le_rfl (by simp)
  · intro s e hm hlong
    obtain ⟨hen, hs0, hes⟩ := hm.bounds
    have hO : minWordsOverlap = 64 := rfl
    have hR : minWordsRift = 16 := rfl
    split
    · omega
    · -- the bound from `old` stays in the word range, since the stretch lies over `old`
      have hend := @endIndex_eq new old (by omega) (by omega)
      dsimp only
      refine scan_finds_maximal (by omega) (by omega) (by omega) hm hlong ?_ _ _ _
        (barrier_of_start hlo) le_rfl (by omega) (by omega)
      rw [hend]
      omega

/-- A read 16 samples after another, scanned in place. -/
theorem findRuns_inPlace_exact_rampReads :
    ((rampRead 16).size < 2 ^ 62 ∧ (rampRead 0).size < 2 ^ 62) ∧
      (∀ r ∈ findRuns (rampRead 16) (rampRead 0) 0 [], r.InPlace (rampRead 16) (rampRead 0)) ∧
      ∀ s e, MaximalInPlace (rampRead 16) (rampRead 0) s e →
        minWordsOverlap + minWordsRift - 1 ≤ e - s →
        (⟨s, e, 0⟩ : Run) ∈ findRuns (rampRead 16) (rampRead 0) 0 [] :=
  ⟨⟨by decide +kernel, by decide +kernel⟩,
    findRuns_inPlace_exact _ _ (by decide +kernel) (by decide +kernel)⟩

end Runs

end VerifiedRip
