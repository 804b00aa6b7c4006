import VerifiedRip.Match.Runs
import VerifiedRip.Proofs.ValueChains
import VerifiedRip.Proofs.RiftSearch
/-!
# The sync search

`Runs.syncPoint new old i width` looks for the sample of an older block `old` that sample `i` of a
fresh block `new` lines up with. It tries in place first (`Runs.SyncsInPlace`). Failing that, a
sample that repeats at `i + 1` finds nothing. Otherwise the search walks the value index of `old`
over the window of positions within `width` of in place, and keeps the agreeing candidate
nearest to in place, the higher one on a tie (`Runs.NearestSync`).

The window's ends are words computed around the in-place index. When they stay inside the word
range (`Runs.WindowFits`), the search answers exactly as a brute-force search over every
position of `old` would. When they do not, the window wraps around and comes out empty, so the
shifted search finds nothing, however near a candidate lies. Whatever the width, a sync point
lies in `old`, within `width` of in place, and starts `minWordsSearch` agreeing samples.

Blocks are taken shorter than `2 ^ 63` samples, as every slice of 16-bit samples is; where the
value index is read, `old` is also shorter than the index's end marker.

## Main statements

* `Runs.syncPoint_eq`: the search as three branches, the last an `argmin` over the agreeing
  candidates.
* `Runs.syncPoint_sound`: a sync point lies in `old`, within `width`, and agrees.
* `Runs.syncPoint_eq_none_of_window_overflow`: with the window past the word range, only the
  in-place sync point is ever found.
* `Runs.syncPoint_finds_nearest_of_windowFits`: with the window inside the word range, the
  search answers as the brute-force one.
-/

namespace VerifiedRip

/-! ### Words -/

section Words

/-- A sum of words is the sum of their values, or that less or more `2 ^ 64`. -/
theorem Int64.toInt_add_cases (a b : Int64) :
    (a + b).toInt = a.toInt + b.toInt ∨ (a + b).toInt = a.toInt + b.toInt - 2 ^ 64 ∨
      (a + b).toInt = a.toInt + b.toInt + 2 ^ 64 := by
  have ha := Int64.le_toInt a
  have hb := Int64.le_toInt b
  have ha' := Int64.toInt_le a
  have hb' := Int64.toInt_le b
  rw [Int64.toInt_maxValue] at ha' hb'
  rw [Int64.toInt_add, Int.bmod_def]
  split <;> omega

/-- A difference of words is the difference of their values, or that less or more `2 ^ 64`. -/
theorem Int64.toInt_sub_cases (a b : Int64) :
    (a - b).toInt = a.toInt - b.toInt ∨ (a - b).toInt = a.toInt - b.toInt - 2 ^ 64 ∨
      (a - b).toInt = a.toInt - b.toInt + 2 ^ 64 := by
  have ha := Int64.le_toInt a
  have hb := Int64.le_toInt b
  have ha' := Int64.toInt_le a
  have hb' := Int64.toInt_le b
  rw [Int64.toInt_maxValue] at ha' hb'
  rw [Int64.toInt_sub, Int.bmod_def]
  split <;> omega

/-- Every word lies in the signed range. -/
theorem Int64.toInt_mem_range (a : Int64) : -2 ^ 63 ≤ a.toInt ∧ a.toInt < 2 ^ 63 := by
  have := Int64.toInt_le a
  rw [Int64.toInt_maxValue] at this
  exact ⟨Int64.le_toInt a, by omega⟩

/-- A word that is not negative indexes its value; a negative one is cut to the start. -/
theorem Int64.toIndex_max_zero (a : Int64) : Int64.toIndex (max a 0) = a.toInt.toNat := by
  show Int64.toIndex (if a ≤ 0 then 0 else a) = a.toInt.toNat
  split
  · rename_i h
    rw [Int64.le_iff_toInt_le, Int64.toInt_zero] at h
    rw [Int64.toIndex_zero]
    omega
  · rename_i h
    rw [Int64.le_iff_toInt_le, Int64.toInt_zero] at h
    exact Int64.toIndex_of_nonneg (Int64.le_iff_toInt_le.mpr (by rw [Int64.toInt_zero]; omega))

/-- The size of a word other than the least is the absolute value of its value. -/
theorem Int64.toInt_magnitude {a : Int64} (h : -2 ^ 63 < a.toInt) :
    (Int64.magnitude a).toInt = |a.toInt| := by
  unfold Int64.magnitude
  have hr := Int64.toInt_mem_range a
  split
  · rename_i hneg
    rw [Int64.lt_iff_toInt_lt, Int64.toInt_zero] at hneg
    rw [Int64.toInt_neg, Int.bmod_eq_of_le (by omega) (by omega), abs_of_neg hneg]
  · rename_i hneg
    rw [Int64.lt_iff_toInt_lt, Int64.toInt_zero] at hneg
    rw [abs_of_nonneg (by omega)]

end Words

namespace Runs

/-! ### Offsets and the window -/

/-- Where sample `j` of `old` lies relative to sample `i` of `new`, as a word: the offset that a
    run through the two carries. -/
def offsetOf (new old : RawBlock) (i j : Nat) : Int64 :=
  old.begin + Int64.ofNat j - (new.begin + Int64.ofNat i)

/-- The index of `old` at the position of sample `i` of `new`, as a word. -/
def inPlace (new old : RawBlock) (i : Nat) : Int64 := new.begin + Int64.ofNat i - old.begin

/-- The search window's ends, `width` either side of in place, lie inside the word range. -/
def WindowFits (new old : RawBlock) (i : Nat) (width : Int64) : Prop :=
  -2 ^ 63 ≤ (inPlace new old i).toInt - width.toInt ∧
    (inPlace new old i).toInt + width.toInt + 1 < 2 ^ 63

variable {new old : RawBlock} {i j : Nat} {width : Int64}

theorem offsetOf_eq : offsetOf new old i j = Int64.ofNat j - inPlace new old i := by
  unfold offsetOf inPlace
  apply Int64.toBitVec_inj.mp
  simp only [Int64.toBitVec_sub, Int64.toBitVec_add]
  ring

theorem distance_eq : distance new old i j = Int64.magnitude (offsetOf new old i j) := rfl

/-- The offset from in place to in place is zero. -/
theorem offsetOf_toIndex_inPlace :
    offsetOf new old i (Int64.toIndex (inPlace new old i)) = 0 := by
  rw [offsetOf_eq, Int64.ofNat_toIndex]
  apply Int64.toBitVec_inj.mp
  simp

/-- The ends of the window of in-place index `d` and width `w ≥ 0`, as words: each is its value,
    or that value moved back into the word range by `2 ^ 64`. -/
theorem window_ends_toInt (d : Int64) {w : Int64} (hw : 0 ≤ w.toInt) :
    ((d - w).toInt = d.toInt - w.toInt ∨ (d - w).toInt = d.toInt - w.toInt + 2 ^ 64) ∧
      ((d + w + 1).toInt = d.toInt + w.toInt + 1 ∨
        (d + w + 1).toInt = d.toInt + w.toInt + 1 - 2 ^ 64) := by
  have hd := Int64.toInt_mem_range d
  have hw' := Int64.toInt_mem_range w
  have hsw := Int64.toInt_mem_range (d + w)
  have hlw := Int64.toInt_mem_range (d - w)
  have hhw := Int64.toInt_mem_range (d + w + 1)
  rcases Int64.toInt_sub_cases d w with hl | hl | hl <;>
  rcases Int64.toInt_add_cases d w with hs | hs | hs <;>
  rcases Int64.toInt_add_cases (d + w) 1 with hh | hh | hh <;>
  · rw [Int64.toInt_one] at hh
    omega

/-- A position in the window of in-place index `d` and width `w` lies within `w` of `d`: a
    window whose ends wrap around is empty. -/
theorem abs_le_of_mem_window {d w : Int64} (hw : 0 ≤ w) (hj : j < 2 ^ 63)
    (hlo : (d - w).toInt.toNat ≤ j) (hhi : j < (d + w + 1).toInt.toNat) :
    |(Int64.ofNat j - d).toInt| ≤ w.toInt := by
  rw [Int64.le_iff_toInt_le, Int64.toInt_zero] at hw
  have hjw := Int64.toInt_ofNat_of_lt j hj
  have hd := Int64.toInt_mem_range d
  have hw' := Int64.toInt_mem_range w
  have how := Int64.toInt_mem_range (Int64.ofNat j - d)
  obtain ⟨hl, hh⟩ := window_ends_toInt d hw
  rw [abs_le]
  rcases hl with hl | hl <;> rcases hh with hh | hh <;>
  rcases Int64.toInt_sub_cases (Int64.ofNat j) d with ho | ho | ho <;> omega

/-- With the window inside the word range, every position within `w` of `d` lies in it, and its
    offset from `d` is the plain difference. -/
theorem mem_window_of_abs_le {d w : Int64} (hw : 0 ≤ w) (hj : j < 2 ^ 63)
    (hfit₁ : -2 ^ 63 ≤ d.toInt - w.toInt) (hfit₂ : d.toInt + w.toInt + 1 < 2 ^ 63)
    (h : |(Int64.ofNat j - d).toInt| ≤ w.toInt) :
    (d - w).toInt.toNat ≤ j ∧ j < (d + w + 1).toInt.toNat ∧
      (Int64.ofNat j - d).toInt = j - d.toInt := by
  rw [Int64.le_iff_toInt_le, Int64.toInt_zero] at hw
  have hjw := Int64.toInt_ofNat_of_lt j hj
  have hd := Int64.toInt_mem_range d
  have hw' := Int64.toInt_mem_range w
  have how := Int64.toInt_mem_range (Int64.ofNat j - d)
  have hlw := Int64.toInt_mem_range (d - w)
  have hhw := Int64.toInt_mem_range (d + w + 1)
  obtain ⟨hl, hh⟩ := window_ends_toInt d hw
  rw [abs_le] at h
  rcases hl with hl | hl <;> rcases hh with hh | hh <;>
  rcases Int64.toInt_sub_cases (Int64.ofNat j) d with ho | ho | ho <;> omega

/-- A window whose ends pass the word range is empty. -/
theorem window_empty_of_overflow {d w : Int64} (hw : 0 ≤ w)
    (hover : ¬ (-2 ^ 63 ≤ d.toInt - w.toInt ∧ d.toInt + w.toInt + 1 < 2 ^ 63)) :
    (d + w + 1).toInt.toNat ≤ (d - w).toInt.toNat := by
  rw [Int64.le_iff_toInt_le, Int64.toInt_zero] at hw
  have hd := Int64.toInt_mem_range d
  have hw' := Int64.toInt_mem_range w
  have hlw := Int64.toInt_mem_range (d - w)
  have hhw := Int64.toInt_mem_range (d + w + 1)
  obtain ⟨hl, hh⟩ := window_ends_toInt d hw
  rcases hl with hl | hl <;> rcases hh with hh | hh <;> omega

/-! ### The search in three branches -/

/-- The word test of in-place agreement, with the run it reads. -/
theorem inPlace_test_iff (hnew : new.size < 2 ^ 63) (hold : old.size < 2 ^ 63)
    (hi : i < 2 ^ 63) :
    (0 ≤ inPlace new old i ∧ Int64.toIndex (inPlace new old i) < old.size ∧
      Int64.ofNat minWordsSearch ≤
        Signal.agreeForward new.samples old.samples (Int64.ofNat i) (inPlace new old i)) ↔
    (0 ≤ (inPlace new old i).toInt ∧ (inPlace new old i).toInt < old.size ∧
      minWordsSearch ≤ Signal.runFrom new.samples old.samples i (inPlace new old i).toInt.toNat) := by
  rw [Int64.le_iff_toInt_le, Int64.toInt_zero]
  constructor
  · rintro ⟨h0, hlt, hagree⟩
    rw [Int64.toIndex_of_nonneg (Int64.le_iff_toInt_le.mpr (by rwa [Int64.toInt_zero]))] at hlt
    rw [← Int64.ofNat_toIndex (inPlace new old i),
      Int64.toIndex_of_nonneg (Int64.le_iff_toInt_le.mpr (by rwa [Int64.toInt_zero])),
      Signal.le_agreeForward_iff hnew hi (by omega) (by decide), ← Signal.le_runFrom_iff] at hagree
    exact ⟨h0, by omega, hagree⟩
  · rintro ⟨h0, hlt, hagree⟩
    have hidx := Int64.toIndex_of_nonneg (Int64.le_iff_toInt_le.mpr (by rwa [Int64.toInt_zero] :
      (0 : Int64).toInt ≤ (inPlace new old i).toInt))
    refine ⟨h0, by omega, ?_⟩
    rw [← Int64.ofNat_toIndex (inPlace new old i), hidx,
      Signal.le_agreeForward_iff hnew hi (by omega) (by decide), ← Signal.le_runFrom_iff]
    exact hagree

/-- The search in three branches: in place; nothing for a repeated sample; otherwise the
    agreeing candidate of the window that is nearest to in place, the first found on a tie. -/
theorem syncPoint_eq :
    syncPoint new old i width =
      if 0 ≤ inPlace new old i ∧ Int64.toIndex (inPlace new old i) < old.size ∧
          Int64.ofNat minWordsSearch ≤
            Signal.agreeForward new.samples old.samples (Int64.ofNat i) (inPlace new old i) then
        some (Int64.toIndex (inPlace new old i))
      else if new.samples[i + 1]? = some (new.samples.getD i 0) then none
      else
        ((old.index.candidates (new.samples.getD i 0) (inPlace new old i - width).toInt.toNat
            (min (inPlace new old i + width + 1).toInt.toNat old.size)).filter fun j =>
          decide (Int64.ofNat minWordsSearch ≤
            Signal.agreeForward new.samples old.samples (Int64.ofNat i) (Int64.ofNat j))).argmin
          fun j => (distance new old i j).toInt := by
  have hlo : new.begin + Int64.ofNat i - width - old.begin =
      new.begin + Int64.ofNat i - old.begin - width := by
    apply Int64.toBitVec_inj.mp
    simp only [Int64.toBitVec_sub, Int64.toBitVec_add]
    ring
  have hhi : new.begin + Int64.ofNat i + width + 1 - old.begin =
      new.begin + Int64.ofNat i - old.begin + width + 1 := by
    apply Int64.toBitVec_inj.mp
    simp only [Int64.toBitVec_sub, Int64.toBitVec_add]
    ring
  unfold syncPoint inPlace
  dsimp only
  split_ifs
  · rfl
  · rfl
  · rw [hlo, hhi, Int64.toIndex_max_zero, Int64.toIndex_max_zero, List.argmin, List.foldl_filter]
    congr 1
    funext best j
    cases best <;> simp [List.argAux, Int64.lt_iff_toInt_lt]

/-! ### What the search finds -/

/-- The agreement test of the shifted search, with the run it reads. -/
theorem agreeTest_iff (hnew : new.size < 2 ^ 63) (hi : i < 2 ^ 63) (hj : j < 2 ^ 63) :
    Int64.ofNat minWordsSearch ≤
        Signal.agreeForward new.samples old.samples (Int64.ofNat i) (Int64.ofNat j) ↔
      minWordsSearch ≤ Signal.runFrom new.samples old.samples i j := by
  rw [Signal.le_agreeForward_iff hnew hi hj (by decide), ← Signal.le_runFrom_iff]

/-- Whatever the blocks and the width, a sync point lies in `old`, within `width` of in place,
    and starts `minWordsSearch` samples on which both blocks agree. -/
theorem syncPoint_sound (hnew : new.size < 2 ^ 63) (hold : old.size < 2 ^ 63) (hi : i < new.size)
    (hw : 0 ≤ width) (h : syncPoint new old i width = some j) :
    j < old.size ∧ minWordsSearch ≤ Signal.runFrom new.samples old.samples i j ∧
      |(offsetOf new old i j).toInt| ≤ width.toInt := by
  rw [syncPoint_eq] at h
  split at h
  · -- in place, at offset zero
    rename_i hin
    cases h
    obtain ⟨-, -, hrun⟩ := (inPlace_test_iff hnew hold (by omega)).mp hin
    rw [Int64.toIndex_of_nonneg hin.1]
    refine ⟨by have := hin.2.1; rwa [Int64.toIndex_of_nonneg hin.1] at this, hrun, ?_⟩
    rw [← Int64.toIndex_of_nonneg hin.1, offsetOf_toIndex_inPlace, Int64.toInt_zero, abs_zero]
    simpa using Int64.le_iff_toInt_le.mp hw
  · split at h
    · cases h
    · -- an agreeing candidate of the window
      have hmem := List.argmin_mem h
      rw [List.mem_filter, decide_eq_true_eq] at hmem
      obtain ⟨hcand, hagree⟩ := hmem
      obtain ⟨hlo, hhi⟩ := ValueIndex.mem_candidates hcand
      have hj : j < old.size := Nat.lt_of_lt_of_le hhi (Nat.min_le_right _ _)
      refine ⟨hj, (agreeTest_iff hnew (by omega) (by omega)).mp hagree, ?_⟩
      rw [offsetOf_eq]
      exact abs_le_of_mem_window hw (by omega) hlo (Nat.lt_of_lt_of_le hhi (Nat.min_le_left _ _))

/-- When the window's ends pass the word range the window comes out empty: unless in place, the
    search finds nothing, however near an agreeing position of `old` lies. -/
theorem syncPoint_eq_none_of_window_overflow (hw : 0 ≤ width)
    (hnot : ¬ (0 ≤ inPlace new old i ∧ Int64.toIndex (inPlace new old i) < old.size ∧
      Int64.ofNat minWordsSearch ≤
        Signal.agreeForward new.samples old.samples (Int64.ofNat i) (inPlace new old i)))
    (hover : ¬ WindowFits new old i width) : syncPoint new old i width = none := by
  rw [syncPoint_eq, if_neg hnot]
  split
  · rfl
  · have hempty := window_empty_of_overflow hw hover
    rw [List.argmin_eq_none, List.filter_eq_nil_iff]
    intro j hj
    have := ValueIndex.mem_candidates hj
    omega

/-! ### The brute-force search -/

/-- Sample `i` of `new` agrees in place with `old` for `minWordsSearch` samples. -/
def SyncsInPlace (new old : RawBlock) (i : Nat) : Prop :=
  0 ≤ (inPlace new old i).toInt ∧ (inPlace new old i).toInt < old.size ∧
    minWordsSearch ≤ Signal.runFrom new.samples old.samples i (inPlace new old i).toInt.toNat

/-- Position `j` of `old` lies within `width` of in place for sample `i` of `new`, and the two
    blocks agree from there for `minWordsSearch` samples. -/
def SyncCandidate (new old : RawBlock) (width : Int64) (i j : Nat) : Prop :=
  j < old.size ∧ |(offsetOf new old i j).toInt| ≤ width.toInt ∧
    minWordsSearch ≤ Signal.runFrom new.samples old.samples i j

/-- `j` is the sync candidate nearest to in place, the higher one on a tie. -/
def NearestSync (new old : RawBlock) (width : Int64) (i j : Nat) : Prop :=
  SyncCandidate new old width i j ∧ ∀ j', SyncCandidate new old width i j' →
    |(offsetOf new old i j).toInt| < |(offsetOf new old i j').toInt| ∨
      |(offsetOf new old i j).toInt| = |(offsetOf new old i j').toInt| ∧ j' ≤ j

/-- In a strictly decreasing list the higher of two members comes first. -/
theorem idxOf_le_idxOf_iff {l : List Nat} (hl : l.Pairwise (· > ·)) {a m : Nat} (ha : a ∈ l)
    (hm : m ∈ l) : l.idxOf m ≤ l.idxOf a ↔ a ≤ m := by
  induction l with
  | nil => cases ha
  | cons x t ih =>
    rw [List.pairwise_cons] at hl
    rcases List.mem_cons.mp ha with rfl | ha' <;> rcases List.mem_cons.mp hm with rfl | hm'
    · simp
    · have := hl.1 m hm'
      simp [show a ≠ m by omega]
      omega
    · have := hl.1 a ha'
      simp [show m ≠ a by omega]
      omega
    · have hxm : x ≠ m := fun h => by have := hl.1 m hm'; omega
      have hxa : x ≠ a := fun h => by have := hl.1 a ha'; omega
      simp [hxm, hxa, ih hl.2 ha' hm']

/-- On a strictly decreasing list, `argmin` picks the member of least key, the greatest one on a
    tie. -/
theorem argmin_eq_some_iff_of_pairwise_gt {l : List Nat} (hl : l.Pairwise (· > ·))
    (f : Nat → Int) {j : Nat} :
    l.argmin f = some j ↔ j ∈ l ∧ ∀ j' ∈ l, f j < f j' ∨ f j = f j' ∧ j' ≤ j := by
  rw [List.argmin_eq_some_iff]
  constructor
  · rintro ⟨hj, hmin, hfirst⟩
    refine ⟨hj, fun j' hj' => ?_⟩
    rcases lt_or_eq_of_le (hmin j' hj') with hlt | heq
    · exact Or.inl hlt
    · exact Or.inr ⟨heq, (idxOf_le_idxOf_iff hl hj' hj).mp (hfirst j' hj' heq.ge)⟩
  · rintro ⟨hj, hnear⟩
    refine ⟨hj, fun j' hj' => ?_, fun j' hj' hle => ?_⟩
    · rcases hnear j' hj' with hlt | ⟨heq, -⟩
      · exact hlt.le
      · exact heq.le
    · rcases hnear j' hj' with hlt | ⟨-, hj'j⟩
      · exact absurd hle (not_le.mpr hlt)
      · exact (idxOf_le_idxOf_iff hl hj' hj).mpr hj'j

/-- On a sync candidate, the search's key is the distance from in place. -/
theorem distance_toInt_of_syncCandidate (h : SyncCandidate new old width i j) :
    (distance new old i j).toInt = |(offsetOf new old i j).toInt| := by
  rw [distance_eq, Int64.toInt_magnitude]
  have hw' := Int64.toInt_mem_range width
  have := (abs_le.mp h.2.1).1
  omega

section BruteForce

variable (hnew : new.size < 2 ^ 63) (hold : old.size < 2 ^ 32 - 1)
  (hi : i + minWordsSearch ≤ new.size) (hw : 0 ≤ width) (hfit : WindowFits new old i width)
include hnew hold hi hw hfit

/-- The agreeing candidates the search walks are exactly the sync candidates. -/
theorem mem_syncList_iff :
    j ∈ (old.index.candidates (new.samples.getD i 0) (inPlace new old i - width).toInt.toNat
        (min (inPlace new old i + width + 1).toInt.toNat old.size)).filter (fun j =>
          decide (Int64.ofNat minWordsSearch ≤
            Signal.agreeForward new.samples old.samples (Int64.ofNat i) (Int64.ofNat j))) ↔
      SyncCandidate new old width i j := by
  have hpos : 0 < minWordsSearch := by decide
  have hin : i < new.samples.size := Nat.lt_of_lt_of_le (by omega) hi
  have hx : new.samples.getD i 0 = new.samples[i] := by simp [Array.getD, hin]
  rw [List.mem_filter, decide_eq_true_eq, old.index_eq,
    ValueIndex.mem_candidates_build (hold : old.samples.size < 2 ^ 32 - 1), hx]
  constructor
  · rintro ⟨⟨hlo, hhi, -⟩, hagree⟩
    have hj : j < old.size := Nat.lt_of_lt_of_le hhi (Nat.min_le_right _ _)
    refine ⟨hj, ?_, (agreeTest_iff hnew (by omega) (by omega)).mp hagree⟩
    rw [offsetOf_eq]
    exact abs_le_of_mem_window hw (by omega) hlo (Nat.lt_of_lt_of_le hhi (Nat.min_le_left _ _))
  · rintro ⟨hj, hnear, hrun⟩
    rw [offsetOf_eq] at hnear
    obtain ⟨hlo, hhi, -⟩ := mem_window_of_abs_le hw (by omega : j < 2 ^ 63) hfit.1 hfit.2 hnear
    -- the first agreeing pair holds the sample searched for
    obtain ⟨y, hy, hyo⟩ := (Signal.runFrom_spec new.samples old.samples i j).1 0 (by omega)
    simp only [Nat.add_zero, Array.getElem?_eq_getElem hin, Option.some.injEq] at hy hyo
    refine ⟨⟨hlo, lt_min hhi hj, by rw [hyo, hy]⟩, ?_⟩
    exact (agreeTest_iff hnew (by omega) (by omega)).mpr hrun

/-- The search's pick among the agreeing candidates of the window is the nearest sync
    candidate, the higher one on a tie; it picks none exactly when there is no sync candidate. -/
theorem argmin_syncList_iff :
    (∀ j, ((old.index.candidates (new.samples.getD i 0) (inPlace new old i - width).toInt.toNat
        (min (inPlace new old i + width + 1).toInt.toNat old.size)).filter fun j =>
          decide (Int64.ofNat minWordsSearch ≤
            Signal.agreeForward new.samples old.samples (Int64.ofNat i) (Int64.ofNat j))).argmin
          (fun j => (distance new old i j).toInt) = some j ↔ NearestSync new old width i j) ∧
      (((old.index.candidates (new.samples.getD i 0) (inPlace new old i - width).toInt.toNat
        (min (inPlace new old i + width + 1).toInt.toNat old.size)).filter fun j =>
          decide (Int64.ofNat minWordsSearch ≤
            Signal.agreeForward new.samples old.samples (Int64.ofNat i) (Int64.ofNat j))).argmin
          (fun j => (distance new old i j).toInt) = none ↔
        ∀ j, ¬ SyncCandidate new old width i j) := by
  have hpair := ((ValueIndex.candidates_build_pairwise (hold : old.samples.size < 2 ^ 32 - 1)
    (new.samples.getD i 0) (inPlace new old i - width).toInt.toNat
    (min (inPlace new old i + width + 1).toInt.toNat old.size)).filter (fun j =>
      decide (Int64.ofNat minWordsSearch ≤
        Signal.agreeForward new.samples old.samples (Int64.ofNat i) (Int64.ofNat j))))
  rw [← old.index_eq] at hpair
  have hmem := fun j => @mem_syncList_iff new old i j width hnew hold hi hw hfit
  constructor
  · intro j
    rw [argmin_eq_some_iff_of_pairwise_gt hpair, hmem j, NearestSync]
    -- on sync candidates the search's key is the distance from in place
    refine and_congr_right fun hjc => forall_congr' fun j' => ?_
    rw [hmem j']
    exact imp_congr_right fun hj'c => by
      simp only [distance_toInt_of_syncCandidate hjc, distance_toInt_of_syncCandidate hj'c]
  · rw [List.argmin_eq_none, List.eq_nil_iff_forall_not_mem]
    exact forall_congr' fun j => not_congr (hmem j)

end BruteForce

/-- With the search window inside the word range, the indexed search answers as the
    brute-force one: in place if the blocks agree there; nothing for a sample that repeats at
    `i + 1`; otherwise the agreeing position of `old` within `width` nearest to in place, the
    higher one on a tie, and nothing if there is none. -/
theorem syncPoint_finds_nearest_of_windowFits (hnew : new.size < 2 ^ 63)
    (hold : old.size < 2 ^ 32 - 1) (hi : i + minWordsSearch ≤ new.size) (hw : 0 ≤ width)
    (hfit : WindowFits new old i width) :
    (SyncsInPlace new old i → syncPoint new old i width = some (inPlace new old i).toInt.toNat) ∧
      (¬ SyncsInPlace new old i → new.samples[i + 1]? = new.samples[i]? →
        syncPoint new old i width = none) ∧
      (¬ SyncsInPlace new old i → new.samples[i + 1]? ≠ new.samples[i]? →
        (∀ j, syncPoint new old i width = some j ↔ NearestSync new old width i j) ∧
          (syncPoint new old i width = none ↔ ∀ j, ¬ SyncCandidate new old width i j)) := by
  have hpos : 0 < minWordsSearch := by decide
  have hin : i < new.samples.size := Nat.lt_of_lt_of_le (by omega) hi
  have htest := inPlace_test_iff hnew (by omega : old.size < 2 ^ 63) (by omega : i < 2 ^ 63)
  have hrep : new.samples[i + 1]? = some (new.samples.getD i 0) ↔
      new.samples[i + 1]? = new.samples[i]? := by
    simp [Array.getD, hin]
  refine ⟨fun h => ?_, fun h hr => ?_, fun h hr => ?_⟩
  · rw [syncPoint_eq, if_pos (htest.mpr h), Int64.toIndex_of_nonneg (htest.mpr h).1]
  · rw [syncPoint_eq, if_neg (fun h' => h (htest.mp h')), if_pos (hrep.mpr hr)]
  · rw [syncPoint_eq, if_neg (fun h' => h (htest.mp h')), if_neg (fun h' => hr (hrep.mp h'))]
    exact argmin_syncList_iff hnew hold hi hw hfit

/-- A read of a rising ramp of 80 samples, placed at `begin`. -/
def rampRead (begin : Int64) : RawBlock :=
  RawBlock.ofSignal ((Array.range 80).map Int16.ofNat) begin 0

/-- A read 16 samples after another, searched from its first sample 100 samples either side. -/
theorem syncPoint_finds_nearest_rampReads :
    ((rampRead 16).size < 2 ^ 63 ∧ (rampRead 0).size < 2 ^ 32 - 1 ∧
        0 + minWordsSearch ≤ (rampRead 16).size ∧ (0 : Int64) ≤ 100 ∧
        WindowFits (rampRead 16) (rampRead 0) 0 100) ∧
      (SyncsInPlace (rampRead 16) (rampRead 0) 0 →
        syncPoint (rampRead 16) (rampRead 0) 0 100 =
          some (inPlace (rampRead 16) (rampRead 0) 0).toInt.toNat) ∧
      (¬ SyncsInPlace (rampRead 16) (rampRead 0) 0 →
        (rampRead 16).samples[0 + 1]? = (rampRead 16).samples[0]? →
        syncPoint (rampRead 16) (rampRead 0) 0 100 = none) ∧
      (¬ SyncsInPlace (rampRead 16) (rampRead 0) 0 →
        (rampRead 16).samples[0 + 1]? ≠ (rampRead 16).samples[0]? →
        (∀ j, syncPoint (rampRead 16) (rampRead 0) 0 100 = some j ↔
          NearestSync (rampRead 16) (rampRead 0) 100 0 j) ∧
          (syncPoint (rampRead 16) (rampRead 0) 0 100 = none ↔
            ∀ j, ¬ SyncCandidate (rampRead 16) (rampRead 0) 100 0 j)) :=
  have hfit : WindowFits (rampRead 16) (rampRead 0) 0 100 := by
    unfold WindowFits
    decide +kernel
  ⟨⟨by decide +kernel, by decide +kernel, by decide +kernel, by decide, hfit⟩,
    syncPoint_finds_nearest_of_windowFits (by decide +kernel) (by decide +kernel)
      (by decide +kernel) (by decide) hfit⟩

end Runs

end VerifiedRip
