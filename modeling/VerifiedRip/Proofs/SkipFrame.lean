import VerifiedRip.Proofs.SessionRuns
import VerifiedRip.Proofs.SyncSearch
import VerifiedRip.Proofs.RootAlignment
/-!
# Giving up a frame

When the retries for the frame at `b` run out and the root still lacks it, `skipFrame` gives it
up. With skipping off the read fails with the frame's sector and nothing changes. With skipping
on, the root keeps its verified samples up to the frame's end and silence fills the rest, so the
frame handed out holds the root's samples from `b` up to the verified end and zeros after. The
root then ends with the frame, and its skipped span runs from the first silent position to the
frame's end, or from the start of an earlier skipped span at the root's end that the silence
continues.

## Main definitions

* `Root.fillFrom`: the first position of the frame that a skip fills with silence.
* `Session.SkipsFrame`: what a skip with skipping on promises.

## Main statements

* `Session.skipFrame_of_outside`: a root that does not reach the frame starts afresh as silence.
* `Session.skipsFrame_of_reaches`: a root that reaches it is cut and padded with silence.
* `Session.skipFrame_keeps_span_order`: the skipped span a skip leaves is in order when the frame
  does not end past the greatest position.
* `Session.skipFrame_keeps_verified`.
-/

namespace VerifiedRip

theorem Int64.le_max_left (a b : Int64) : a ≤ max a b :=
  Int64.le_iff_toInt_le.mpr (by rw [Int64.toInt_max]; omega)

theorem Int64.le_max_right (a b : Int64) : b ≤ max a b :=
  Int64.le_iff_toInt_le.mpr (by rw [Int64.toInt_max]; omega)

namespace Signal

/-- The frame at index `k` of samples cut at `j` and padded with silence to `k + frameWords`: the
    samples before `j`, zeros after. -/
theorem extract_pad (v : Signal) {k j : Nat} (hj : j ≤ v.size) (hjn : j ≤ k + frameWords) :
    (v.extract 0 j ++ zeros (k + frameWords - j)).extract k (k + frameWords) =
      Array.ofFn fun i : Fin frameWords => if k + i < j then v.getD (k + i) 0 else 0 := by
  apply Array.ext_getElem?
  intro i
  have hlen : (v.extract 0 j ++ zeros (k + frameWords - j)).size = k + frameWords := by
    simp [zeros]
    omega
  rw [Array.getElem?_extract, Array.getElem?_ofFn, hlen]
  by_cases hi : i < frameWords
  · rw [if_pos (by omega), dif_pos hi, Array.getElem?_append]
    by_cases hk : k + i < j
    · rw [if_pos (by simp; omega), if_pos hk, Array.getElem?_extract, if_pos (by omega),
        Array.getD_eq_getD_getElem?]
      simp [Array.getElem?_eq_getElem (show k + i < v.size by omega)]
    · rw [if_neg (by simp; omega), if_neg hk]
      simp [zeros, Array.getElem?_replicate]
      omega
  · rw [if_neg (by omega), dif_neg hi]

end Signal

namespace Root

variable {r : Root} {b : Int64}

/-- A root of fewer than `2 ^ 62` samples that reaches position `b` ends where its size says: its
    end did not wrap around. -/
theorem toInt_endPos_of_reaches (hsize : r.size < 2 ^ 62) (hb : r.begin ≤ b) (he : b ≤ r.endPos) :
    r.endPos.toInt = r.begin.toInt + r.size := by
  have hb' := Int64.le_iff_toInt_le.mp hb
  have he' := Int64.le_iff_toInt_le.mp he
  have hn : (Int64.ofNat r.size).toInt = r.size := Int64.toInt_ofNat_of_lt _ (by omega)
  have hr := Int64.toInt_mem_range r.begin
  have hr' := Int64.toInt_mem_range r.endPos
  unfold endPos at he' hr' ⊢
  rcases Int64.toInt_add_cases r.begin (Int64.ofNat r.size) with h | h | h <;> omega

/-- A root that starts at or before `b` and ends one frame after it hands out its last frame
    there. -/
theorem frameAt?_of_endPos (hb : r.begin ≤ b) (he : r.endPos = b + Int64.ofNat frameWords)
    (hsize : r.size = r.indexOf b + frameWords) :
    r.frameAt? b = some (r.samples.extract (r.indexOf b) (r.indexOf b + frameWords)) := by
  have hs : r.samples.size = r.indexOf b + frameWords := hsize
  have hne : r.isEmpty = false := by simp [isEmpty, Array.isEmpty, hs, frameWords]
  have hc : r.coversFrame b = true := by simp [coversFrame, covers, hne, hb, he]
  simp only [frameAt?, hc, true_and]
  rw [if_pos (le_of_eq hsize.symm)]

theorem endPos_of_isEmpty (h : r.isEmpty = true) : r.endPos = r.begin := by
  have hsz : r.size = 0 := by simpa [isEmpty, size] using h
  simp [endPos, hsz]

section Reaches

variable (hsize : r.size < 2 ^ 62) (hb : r.begin ≤ b) (he : b ≤ r.endPos)
include hsize hb he

/-- A root that reaches `b` but cannot hand out the frame there ends before that frame does. -/
theorem toInt_endPos_lt_of_frameAt? (hne : r.isEmpty = false) (hnone : r.frameAt? b = none) :
    r.endPos.toInt < b.toInt + frameWords := by
  have hend := toInt_endPos_of_reaches hsize hb he
  have hb' := Int64.le_iff_toInt_le.mp hb
  have hk := r.indexOf_of_le b hb
  have hw : (Int64.ofNat frameWords).toInt = frameWords := Int64.toInt_ofNat_of_lt _ (by decide)
  have hfw : frameWords = 1176 := rfl
  have hr := Int64.toInt_mem_range r.endPos
  have hbr := Int64.toInt_mem_range b
  by_contra hlong
  -- the frame's end does not wrap, so the root covers the frame by its positions and its samples
  have hstop : (b + Int64.ofNat frameWords).toInt = b.toInt + frameWords := by
    rw [Int64.toInt_add_of_range _ _ (by omega) (by omega), hw]
  have hcov : r.coversFrame b = true := by
    simp only [coversFrame, covers, hne, Bool.not_false, Bool.true_and, Bool.and_eq_true,
      decide_eq_true_eq, Int64.le_iff_toInt_le, hstop]
    omega
  have hfit : r.indexOf b + frameWords ≤ r.size := by
    rw [hk]
    omega
  simp [frameAt?, hcov, hfit] at hnone

/-- A root that reaches `b` but lacks the frame there ends before the frame does, whether it
    holds samples or none. -/
theorem toInt_endPos_lt_of_frame_missing (hnone : r.frameAt? b = none) :
    r.endPos.toInt < b.toInt + frameWords := by
  cases hne : r.isEmpty
  · exact toInt_endPos_lt_of_frameAt? hsize hb he hne hnone
  · have hb' := Int64.le_iff_toInt_le.mp hb
    have hfw : frameWords = 1176 := rfl
    rw [endPos_of_isEmpty hne]
    omega

/-- Cutting the root at a position between its start and its end keeps the samples before it. -/
theorem truncateAt_of_between (p : Int64) (hp : r.begin.toInt ≤ p.toInt) (hp' : p.toInt ≤ r.endPos.toInt) :
    r.truncateAt p = { r with samples := r.samples.extract 0 (p.toInt - r.begin.toInt).toNat } := by
  have hend := toInt_endPos_of_reaches hsize hb he
  have hsub : (p - r.begin).toInt = p.toInt - r.begin.toInt := by
    have hr := Int64.toInt_mem_range (p - r.begin)
    rcases Int64.toInt_sub_cases p r.begin with h | h | h <;> omega
  rw [truncateAt, Int64.toIndex_max_zero, hsub]

/-- The frame at `b` ends `frameWords` samples past `b`'s index, however near the greatest word
    it lies. -/
theorem toIndex_frameEnd :
    Int64.toIndex (b + Int64.ofNat frameWords - r.begin) = r.indexOf b + frameWords := by
  have hend := toInt_endPos_of_reaches hsize hb he
  have hb' := Int64.le_iff_toInt_le.mp hb
  have he' := Int64.le_iff_toInt_le.mp he
  have hw : (Int64.ofNat frameWords).toInt = frameWords := Int64.toInt_ofNat_of_lt _ (by decide)
  have hfw : frameWords = 1176 := rfl
  have hstop := Int64.toInt_mem_range (b + Int64.ofNat frameWords)
  have hdiff := Int64.toInt_mem_range (b + Int64.ofNat frameWords - r.begin)
  have hsub : (b + Int64.ofNat frameWords - r.begin).toInt = b.toInt - r.begin.toInt + frameWords := by
    rcases Int64.toInt_add_cases b (Int64.ofNat frameWords) with h | h | h <;>
      rcases Int64.toInt_sub_cases (b + Int64.ofNat frameWords) r.begin with h' | h' | h' <;> omega
  rw [Int64.toIndex_of_nonneg (Int64.le_iff_toInt_le.mpr (by rw [hsub]; simp; omega)), hsub,
    r.indexOf_of_le b hb]
  omega

/-- Counting `b`'s index and a frame from the root's start reaches the frame's end. -/
theorem begin_add_frameEnd :
    r.begin + Int64.ofNat (r.indexOf b + frameWords) = b + Int64.ofNat frameWords := by
  have hend := toInt_endPos_of_reaches hsize hb he
  have hb' := Int64.le_iff_toInt_le.mp hb
  have he' := Int64.le_iff_toInt_le.mp he
  have hk := r.indexOf_of_le b hb
  have hfw : frameWords = 1176 := rfl
  apply Int64.toInt_inj.mp
  rw [Int64.toInt_add, Int64.toInt_add, Int64.toInt_ofNat_of_lt _ (by omega),
    Int64.toInt_ofNat_of_lt _ (by decide)]
  congr 1
  omega

section Fill

variable (hne : r.isEmpty = false) (hnone : r.frameAt? b = none)
  (horder : ∀ a e, r.skipped = some (a, e) → a ≤ e) (sector : Sector)
include hne hnone horder

/-- A skip cuts a root that reaches `b` at or past `b` and within the root, which ends before the
    frame does. -/
theorem toInt_fill_bounds :
    r.begin.toInt ≤ b.toInt ∧ b.toInt ≤ (max r.verifiedEnd b).toInt ∧
      (max r.verifiedEnd b).toInt ≤ r.begin.toInt + r.size ∧
      r.begin.toInt + r.size < b.toInt + frameWords := by
  have hv := Int64.le_iff_toInt_le.mp (verifiedEnd_le_endPos horder)
  have hend := toInt_endPos_of_reaches hsize hb he
  have hshort := toInt_endPos_lt_of_frameAt? hsize hb he hne hnone
  have hb' := Int64.le_iff_toInt_le.mp hb
  have he' := Int64.le_iff_toInt_le.mp he
  have hfill := Int64.toInt_max r.verifiedEnd b
  omega

/-- A root that reaches `b` but lacks the frame there is cut by a skip at its first silent
    position, its verified end or `b`, and padded with silence to the frame's end. -/
theorem fillSkipped_of_reaches :
    r.fillSkipped b sector =
      { r with
        samples := r.samples.extract 0 ((max r.verifiedEnd b).toInt - r.begin.toInt).toNat ++
          Signal.zeros
            (r.indexOf b + frameWords - ((max r.verifiedEnd b).toInt - r.begin.toInt).toNat)
        lastSector := sector
        skipped := some (r.skipStart (max r.verifiedEnd b), b + Int64.ofNat frameWords) } := by
  obtain ⟨hb', hbfill, hfill, hshort⟩ := toInt_fill_bounds hsize hb he hne hnone horder
  have hend := toInt_endPos_of_reaches hsize hb he
  have hk := r.indexOf_of_le b hb
  have hfw : frameWords = 1176 := rfl
  have hrs : r.size = r.samples.size := rfl
  rw [fillSkipped, if_neg (by simp [hne, Int64.not_lt.mpr hb, Int64.not_lt.mpr he])]
  dsimp only
  rw [truncateAt_of_between hsize hb he (max r.verifiedEnd b) (by omega) (by omega)]
  dsimp only
  -- the cut keeps `j` samples, fewer than the frame's end needs, so the rest is silence
  set j := ((max r.verifiedEnd b).toInt - r.begin.toInt).toNat with hj
  have hjs : (r.samples.extract 0 j).size = j := by simp only [Array.size_extract]; omega
  rw [toIndex_frameEnd hsize hb he, if_neg (by simp only [size, hjs]; omega)]
  simp only [size, hjs]

/-- The filled root ends with the frame at `b`. -/
theorem size_fillSkipped_of_reaches :
    (r.fillSkipped b sector).size = r.indexOf b + frameWords := by
  obtain ⟨hb', hbfill, hfill, hshort⟩ := toInt_fill_bounds hsize hb he hne hnone horder
  have hk := r.indexOf_of_le b hb
  have hfw : frameWords = 1176 := rfl
  have hrs : r.size = r.samples.size := rfl
  rw [fillSkipped_of_reaches hsize hb he hne hnone horder sector]
  simp only [size, Array.size_append, Array.size_extract, Signal.zeros, Array.size_replicate]
  omega

/-- The silence is marked as skipped up to the frame's end. -/
theorem skipped_fillSkipped_of_reaches :
    (r.fillSkipped b sector).skipped =
      some (r.skipStart (max r.verifiedEnd b), b + Int64.ofNat frameWords) := by
  rw [fillSkipped_of_reaches hsize hb he hne hnone horder sector]

theorem endPos_fillSkipped_of_reaches :
    (r.fillSkipped b sector).endPos = b + Int64.ofNat frameWords := by
  have hbegin : (r.fillSkipped b sector).begin = r.begin := by
    rw [fillSkipped_of_reaches hsize hb he hne hnone horder sector]
  rw [endPos, hbegin, size_fillSkipped_of_reaches hsize hb he hne hnone horder sector]
  exact begin_add_frameEnd hsize hb he

/-- The filled root hands out at `b` the root's samples up to its verified end and silence
    after. -/
theorem frameAt?_fillSkipped_of_reaches :
    (r.fillSkipped b sector).frameAt? b = some (Array.ofFn fun i : Fin frameWords =>
      if b.toInt + i < r.verifiedEnd.toInt then r.samples.getD (r.indexOf b + i) 0 else 0) := by
  have hv := Int64.le_iff_toInt_le.mp (verifiedEnd_le_endPos horder)
  obtain ⟨hb', hbfill, hfill, hshort⟩ := toInt_fill_bounds hsize hb he hne hnone horder
  have hend := toInt_endPos_of_reaches hsize hb he
  have hmax := Int64.toInt_max r.verifiedEnd b
  have hk := r.indexOf_of_le b hb
  have hfw : frameWords = 1176 := rfl
  have hrs : r.size = r.samples.size := rfl
  -- the filled root starts where the root did, so `b` keeps its index
  have hbegin : (r.fillSkipped b sector).begin = r.begin := by
    rw [fillSkipped_of_reaches hsize hb he hne hnone horder sector]
  have hidx : (r.fillSkipped b sector).indexOf b = r.indexOf b := by
    simp only [indexOf, hbegin]
  have hsamples : (r.fillSkipped b sector).samples =
      r.samples.extract 0 ((max r.verifiedEnd b).toInt - r.begin.toInt).toNat ++
        Signal.zeros
          (r.indexOf b + frameWords - ((max r.verifiedEnd b).toInt - r.begin.toInt).toNat) := by
    rw [fillSkipped_of_reaches hsize hb he hne hnone horder sector]
  rw [frameAt?_of_endPos (hbegin ▸ hb) (endPos_fillSkipped_of_reaches hsize hb he hne hnone horder sector)
    (hidx ▸ size_fillSkipped_of_reaches hsize hb he hne hnone horder sector), hidx, hsamples,
    Signal.extract_pad r.samples (by omega) (by omega)]
  congr 2
  funext i
  refine if_congr ?_ rfl rfl
  omega

end Fill

end Reaches

/-- Silence that continues a skipped span at the root's end joins it. -/
theorem skipStart_of_trailing {a fill : Int64} (hsk : r.skipped = some (a, r.endPos))
    (ha : a ≤ fill) : r.skipStart fill = a := by
  simp [skipStart, hsk, ha]

/-- Silence that continues no skipped span starts a span of its own. -/
theorem skipStart_of_not_trailing {fill : Int64} (hfresh : ∀ a, r.skipped ≠ some (a, r.endPos)) :
    r.skipStart fill = fill := by
  unfold skipStart
  split
  · rename_i a e hsk
    have hne : e ≠ r.endPos := fun hee => hfresh a (by rw [hsk, hee])
    simp [hne]
  · rfl

/-- The first position of the frame at `b` that a skip fills with silence: the verified end,
    when the root reaches `b` and its verified part goes past `b`; `b` otherwise. -/
def fillFrom (r : Root) (b : Int64) : Int64 :=
  if r.begin ≤ b ∧ b ≤ r.endPos then max r.verifiedEnd b else b

end Root

namespace Session

variable {σ : Type} (s : Session σ) (b : Int64) (m : Int32)

/-- What giving up the frame at `b` with skipping on promises, for the session `s` before and the
    answer and session `out` after. The skip succeeds. The frame handed out holds the samples of
    `s`'s root from `b` up to its verified end where that root reaches `b`, and zeros elsewhere.
    The root then ends with the frame. Its skipped span runs to the frame's end, from the start of
    an earlier skipped span at the old root's end when the silence continues one, else from the
    first silent position. The frame counts as handed out, and the one report is the skip. -/
structure SkipsFrame (out : Except RipError Unit × Session σ) : Prop where
  ok : out.1 = .ok ()
  frame : out.2.frame = Array.ofFn fun i : Fin frameWords =>
    if s.cache.root.begin ≤ b ∧ b ≤ s.cache.root.endPos ∧
        b.toInt + i < s.cache.root.verifiedEnd.toInt then
      s.cache.root.samples.getD (s.cache.root.indexOf b + i) 0
    else 0
  endPos : out.2.cache.root.endPos = b + Int64.ofNat frameWords
  skipped_of_continues : ∀ a, s.cache.root.isEmpty = false → s.cache.root.begin ≤ b →
    b ≤ s.cache.root.endPos → s.cache.root.skipped = some (a, s.cache.root.endPos) →
    out.2.cache.root.skipped = some (a, b + Int64.ofNat frameWords)
  skipped_of_fresh : (∀ a, s.cache.root.isEmpty = false → s.cache.root.begin ≤ b →
      b ≤ s.cache.root.endPos → s.cache.root.skipped ≠ some (a, s.cache.root.endPos)) →
    out.2.cache.root.skipped = some (s.cache.root.fillFrom b, b + Int64.ofNat frameWords)
  returned : b + Int64.ofNat frameWords ≤ out.2.cache.root.returnedLimit
  reports : out.2.reports = s.reports.push ⟨b, .skip⟩

/-- With skipping off, giving up the frame at `b` fails with its sector, the frame count below
    `b` as a sector word, and changes nothing. -/
theorem skipFrame_of_disabled (hskip : s.enableSkip = false) :
    (skipFrame b m).run s =
      (.error (.sectorSkipped (Sector.ofInt (b / Int64.ofNat frameWords).toInt) m), s) := by
  rw [skipFrame, run_get_bind]
  dsimp only
  rw [if_pos (by simp [hskip])]
  rfl

/-- A skip where the root does not reach the frame: the root starts afresh as one frame of
    silence at `b`, all of it skipped, and hands that frame out. -/
theorem skipFrame_of_outside (hskip : s.enableSkip = true)
    (hout : s.cache.root.isEmpty ∨ b < s.cache.root.begin ∨ s.cache.root.endPos < b) :
    (skipFrame b m).run s =
      (.ok (), { s with
        reports := s.reports.push ⟨b, .skip⟩
        frame := Signal.zeros frameWords
        cache := s.cache.modifyRoot fun _ =>
          { Root.set (Signal.zeros frameWords) b (Sector.ofInt (b / Int64.ofNat frameWords).toInt) with
            skipped := some (b, b + Int64.ofNat frameWords)
            returnedLimit := max b (b + Int64.ofNat frameWords) } }) := by
  rw [skipFrame_of_fillSkipped s b m _ hskip (Root.frameAt?_fillSkipped_of_outside _ b _ hout)]
  simp only [FragmentCache.modifyRoot]
  rw [Root.fillSkipped_of_outside _ b _ hout]
  rfl

/-- A skip where the root reaches the frame but lacks it: the root is cut at the first silent
    position, its verified end or `b`, and padded with silence to the frame's end, which it then
    hands out. -/
theorem skipsFrame_of_reaches (hskip : s.enableSkip = true) (hne : s.cache.root.isEmpty = false)
    (hb : s.cache.root.begin ≤ b) (he : b ≤ s.cache.root.endPos)
    (hsize : s.cache.root.size < 2 ^ 62)
    (horder : ∀ a e, s.cache.root.skipped = some (a, e) → a ≤ e)
    (hnone : s.cache.root.frameAt? b = none) : SkipsFrame s b ((skipFrame b m).run s) := by
  have hskipped := Root.skipped_fillSkipped_of_reaches hsize hb he hne hnone horder
    (Sector.ofInt (b / Int64.ofNat frameWords).toInt)
  rw [skipFrame_of_fillSkipped s b m _ hskip
    (Root.frameAt?_fillSkipped_of_reaches hsize hb he hne hnone horder _)]
  refine ⟨rfl, ?_, ?_, ?_, ?_, Int64.le_max_right _ _, rfl⟩
  · -- the frame: the root's samples before the first silent position, silence after
    dsimp only
    congr 1
    funext i
    simp only [hb, he, true_and]
  · dsimp only [FragmentCache.modifyRoot]
    rw [Root.endPos_withReturnedLimit]
    exact Root.endPos_fillSkipped_of_reaches hsize hb he hne hnone horder _
  · -- an earlier skipped span at the root's end is continued from its start
    intro a _ _ _ hsk
    have hva := Root.verifiedEnd_of_trailing hsk rfl
    dsimp only [FragmentCache.modifyRoot]
    rw [Root.skipped_withReturnedLimit, hskipped,
      Root.skipStart_of_trailing hsk (by rw [hva]; exact Int64.le_max_left _ _)]
  · -- otherwise the span starts at the first silent position
    intro hfresh
    dsimp only [FragmentCache.modifyRoot]
    rw [Root.skipped_withReturnedLimit, hskipped,
      Root.skipStart_of_not_trailing fun a => hfresh a hne hb he, Root.fillFrom, if_pos ⟨hb, he⟩]

/-- A skip where the root does not reach the frame keeps nothing of it: a root that reaches `b`
    at all is then empty, so its verified part ends at or before `b`. -/
theorem skipsFrame_of_outside (hskip : s.enableSkip = true)
    (hout : s.cache.root.isEmpty ∨ b < s.cache.root.begin ∨ s.cache.root.endPos < b)
    (horder : ∀ a e, s.cache.root.skipped = some (a, e) → a ≤ e) :
    SkipsFrame s b ((skipFrame b m).run s) := by
  rw [skipFrame_of_outside s b m hskip hout]
  have hv := Int64.le_iff_toInt_le.mp (Root.verifiedEnd_le_endPos horder)
  have hshort : s.cache.root.begin ≤ b → b ≤ s.cache.root.endPos →
      s.cache.root.verifiedEnd.toInt ≤ b.toInt := by
    intro hb he
    have hempty : s.cache.root.isEmpty = true := by
      rcases hout with h | h | h
      · exact h
      · exact absurd hb (Int64.not_le.mpr h)
      · exact absurd he (Int64.not_le.mpr h)
    have hend := Root.endPos_of_isEmpty hempty
    have hb' := Int64.le_iff_toInt_le.mp hb
    have he' := Int64.le_iff_toInt_le.mp he
    rw [hend] at he' hv
    omega
  refine ⟨rfl, ?_, ?_, ?_, ?_, ?_, rfl⟩
  · -- no sample of the old root is kept
    apply Array.ext_getElem?
    intro i
    rw [Array.getElem?_ofFn]
    split
    · rename_i hi
      rw [if_neg (fun h => by have := hshort h.1 h.2.1; omega)]
      simp [Signal.zeros, hi]
    · rename_i hi
      simp [Signal.zeros, hi]
  · show b + Int64.ofNat (Signal.zeros frameWords).size = b + Int64.ofNat frameWords
    simp [Signal.zeros]
  · intro a hne hb he _
    rcases hout with h | h | h
    · rw [hne] at h
      exact absurd h Bool.false_ne_true
    · exact absurd hb (Int64.not_le.mpr h)
    · exact absurd he (Int64.not_le.mpr h)
  · intro _
    show some (b, _) = some (s.cache.root.fillFrom b, _)
    unfold Root.fillFrom
    split
    · rename_i h
      rw [Int64.max_eq_right (Int64.le_iff_toInt_le.mpr (hshort h.1 h.2))]
    · rfl
  · exact Int64.le_max_right b (b + Int64.ofNat frameWords)

/-- With skipping on, a skip of a frame the root lacks keeps what `SkipsFrame` promises, whether
    or not the root reaches the frame. -/
theorem skipsFrame_of_enabled (hskip : s.enableSkip = true) (hnone : s.cache.root.frameAt? b = none)
    (hsize : s.cache.root.size < 2 ^ 62)
    (horder : ∀ a e, s.cache.root.skipped = some (a, e) → a ≤ e) :
    SkipsFrame s b ((skipFrame b m).run s) := by
  by_cases hout : s.cache.root.isEmpty ∨ b < s.cache.root.begin ∨ s.cache.root.endPos < b
  · exact skipsFrame_of_outside s b m hskip hout horder
  · simp only [not_or, Bool.not_eq_true, Int64.not_lt] at hout
    obtain ⟨hne, hb, he⟩ := hout
    exact skipsFrame_of_reaches s b m hskip hne hb he hsize horder hnone

/-- The frame a skip hands out stays in the root at `b`, so a later read of that frame finds it
    there. -/
theorem frameAt?_skipFrame (hskip : s.enableSkip = true) (hnone : s.cache.root.frameAt? b = none)
    (hsize : s.cache.root.size < 2 ^ 62)
    (horder : ∀ a e, s.cache.root.skipped = some (a, e) → a ≤ e) :
    ((skipFrame b m).run s).2.cache.root.frameAt? b = some ((skipFrame b m).run s).2.frame := by
  obtain ⟨f, hf⟩ : ∃ f, (s.cache.root.fillSkipped b
      (Sector.ofInt (b / Int64.ofNat frameWords).toInt)).frameAt? b = some f := by
    by_cases hout : s.cache.root.isEmpty ∨ b < s.cache.root.begin ∨ s.cache.root.endPos < b
    · exact ⟨_, Root.frameAt?_fillSkipped_of_outside _ b _ hout⟩
    · simp only [not_or, Bool.not_eq_true, Int64.not_lt] at hout
      obtain ⟨hne, hb, he⟩ := hout
      exact ⟨_, Root.frameAt?_fillSkipped_of_reaches hsize hb he hne hnone horder _⟩
  rw [skipFrame_of_fillSkipped s b m f hskip hf]
  dsimp only [FragmentCache.modifyRoot]
  rw [Root.frameAt?_withReturnedLimit]
  exact hf

/-- Giving up a frame whose end is not past the greatest position keeps the root's skipped span
    in order: the span the skip leaves ends with the frame, past the old root's end and its
    verified part. Every other edit of a root keeps its span or clears it. -/
theorem skipFrame_keeps_span_order (hnone : s.cache.root.frameAt? b = none)
    (hsize : s.cache.root.size < 2 ^ 62)
    (horder : ∀ a e, s.cache.root.skipped = some (a, e) → a ≤ e)
    (hend : b < b + Int64.ofNat frameWords) :
    ∀ a e, ((skipFrame b m).run s).2.cache.root.skipped = some (a, e) → a ≤ e := by
  cases hskip : s.enableSkip
  · rw [skipFrame_of_disabled s b m hskip]
    exact horder
  have hs := skipsFrame_of_enabled s b m hskip hnone hsize horder
  have hw : (b + Int64.ofNat frameWords).toInt = b.toInt + frameWords := by
    rw [Int64.toInt_add_of_lt b _ (by decide) hend, Int64.toInt_ofNat_of_lt _ (by decide)]
  have hv := Int64.le_iff_toInt_le.mp (Root.verifiedEnd_le_endPos horder)
  have hfw : frameWords = 1176 := rfl
  intro a e hae
  rw [Int64.le_iff_toInt_le]
  by_cases hcont : ∃ a₀, s.cache.root.isEmpty = false ∧ s.cache.root.begin ≤ b ∧
      b ≤ s.cache.root.endPos ∧ s.cache.root.skipped = some (a₀, s.cache.root.endPos)
  · -- the skip continues a span that ends with the old root, before the frame's end
    obtain ⟨a₀, hne, hb, he, hsk⟩ := hcont
    rw [hs.skipped_of_continues a₀ hne hb he hsk] at hae
    obtain ⟨rfl, rfl⟩ := Prod.mk.inj (Option.some.inj hae)
    have ha₀ := Int64.le_iff_toInt_le.mp (horder _ _ hsk)
    have hlt := Root.toInt_endPos_lt_of_frame_missing hsize hb he hnone
    omega
  · -- a fresh span starts at the first silent position, at the latest the frame's start
    rw [hs.skipped_of_fresh fun a₀ hne hb he hsk => hcont ⟨a₀, hne, hb, he, hsk⟩] at hae
    obtain ⟨rfl, rfl⟩ := Prod.mk.inj (Option.some.inj hae)
    unfold Root.fillFrom
    split
    · rename_i hreach
      have hlt := Root.toInt_endPos_lt_of_frame_missing hsize hreach.1 hreach.2 hnone
      rw [Int64.toInt_max]
      omega
    · omega

/-- Giving up the frame at `b` keeps the verified part of the frame and nothing else. With
    skipping off, the read fails with the frame's sector and the retry limit, and the session is
    left as it was. With skipping on, for a root that lacks the frame (as the verification loop
    finds it when it gives the frame up), holds fewer than `2 ^ 62` samples and has its skipped
    span in order, the frame handed out holds the root's samples from `b` up to its verified end
    and silence after, the root ends with the frame and marks the silence as skipped, and the
    skip is reported (`SkipsFrame`). -/
theorem skipFrame_keeps_verified (hnone : s.cache.root.frameAt? b = none)
    (hsize : s.cache.root.size < 2 ^ 62)
    (horder : ∀ a e, s.cache.root.skipped = some (a, e) → a ≤ e) :
    (s.enableSkip = false → (skipFrame b m).run s =
        (.error (.sectorSkipped (Sector.ofInt (b / Int64.ofNat frameWords).toInt) m), s)) ∧
    (s.enableSkip = true → SkipsFrame s b ((skipFrame b m).run s)) := by
  exact ⟨skipFrame_of_disabled s b m, fun hskip => skipsFrame_of_enabled s b m hskip hnone hsize horder⟩

/-- A session over the synthetic drive whose root holds samples 1000 to 1299 of the signal. -/
def partialRoot : Session MemoryDisc :=
  { ofDrive syntheticDrive with cache := { root := Root.set (Synth.range 1000 1300) 1000 0 } }

/-- Giving up the second frame keeps samples 1176 to 1299 and fills the rest with silence. -/
theorem skipFrame_keeps_verified_partialRoot :
    partialRoot.cache.root.frameAt? (Int64.ofNat frameWords) = none ∧
      partialRoot.cache.root.size < 2 ^ 62 ∧
      (∀ a e, partialRoot.cache.root.skipped = some (a, e) → a ≤ e) ∧
      partialRoot.enableSkip = true ∧
      SkipsFrame partialRoot (Int64.ofNat frameWords)
        ((skipFrame (Int64.ofNat frameWords) 20).run partialRoot) :=
  have hnone : partialRoot.cache.root.frameAt? (Int64.ofNat frameWords) = none := by
    simp [partialRoot, Root.frameAt?, Root.coversFrame, Root.covers, Root.endPos, Root.size, Root.set,
      Synth.range]
    intro _ _ h
    exact absurd h (by decide)
  have hsize : partialRoot.cache.root.size < 2 ^ 62 := by
    simp [partialRoot, Root.set, Root.size, Synth.range]
  have horder : ∀ a e, partialRoot.cache.root.skipped = some (a, e) → a ≤ e := by
    simp [partialRoot, Root.set]
  ⟨hnone, hsize, horder, rfl,
    (skipFrame_keeps_verified partialRoot _ 20 hnone hsize horder).2 rfl⟩

end Session

end VerifiedRip
