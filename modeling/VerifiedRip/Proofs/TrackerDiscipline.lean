import Mathlib
import VerifiedRip.Tracker
/-!
# The width and drift discipline of the tracker

A record counts an offset on one stage. Every `statsAdjustInterval` new offsets on that stage it
reaches the adjustments, which look at stage two first and stage one second, whichever stage the
offset went to. Stage two calls for a drift correction when it has counted enough offsets and
their mean has moved past a quarter of the width; the correction is that mean rounded to a
multiple of `minSectorEpsilon`, added to the drift and taken off every cached position at once,
and stage two starts afresh. Stage one re-estimates the width from three times its mean size and
one and a half times its extreme offsets since the last estimate, clamped to the allowed range.

This module states what that gives over every run of records, width settings, drift resets and
stage switches (`TrackerOp`): the width never leaves `[minSectorEpsilon, maxDynOverlap]`, the drift
moves only by a due correction, and every width estimate covers each stage-one offset counted since
the previous one.

## Main definitions

* `Tracker.count`, `Tracker.reachesAdjust`, `Tracker.driftDue`, `Tracker.driftStep`,
  `Tracker.widthDue`: the moments and amounts a record acts on.
* `Tracker.CorrectsDrift`: what one record does to the drift, the cache and stage two.
* `TrackerOp.WidthDiscipline`: the width bounds and the width cover, step by step along a run.

## Main statements

* `Tracker.record_eq`: a record counts, then adjusts drift and width or does nothing more.
* `Tracker.Brackets.record`: the step lemma behind `WidthDiscipline`.
* `TrackerOp.tracker_discipline`.
-/

namespace VerifiedRip

/-- The value of the larger of two words. -/
theorem Int64.toInt_max (a b : Int64) : (max a b).toInt = max a.toInt b.toInt := by
  change (if a ≤ b then b else a).toInt = _
  split <;> rename_i h <;> rw [Int64.le_iff_toInt_le] at h <;> omega

/-- The value of the smaller of two words. -/
theorem Int64.toInt_min (a b : Int64) : (min a b).toInt = min a.toInt b.toInt := by
  change (if a ≤ b then a else b).toInt = _
  split <;> rename_i h <;> rw [Int64.le_iff_toInt_le] at h <;> omega

/-- One and a half times a word that is not negative and below `2 ^ 40` is exact. -/
theorem Int64.toInt_mul_three_div_two {x : Int64} (h0 : 0 ≤ x.toInt) (h1 : x.toInt < 2 ^ 40) :
    (x * 3 / 2).toInt = x.toInt * 3 / 2 := by
  have h2 : (2 : Int64).toInt = 2 := by decide
  have h3 : (3 : Int64).toInt = 3 := by decide
  have e1 : (x.toInt * 3).bmod (2 ^ 64) = x.toInt * 3 := Int.bmod_eq_of_le (by omega) (by omega)
  have hdiv : (x.toInt * 3).tdiv 2 = x.toInt * 3 / 2 := Int.tdiv_eq_ediv_of_nonneg (by omega)
  have e2 : ((x.toInt * 3).tdiv 2).bmod (2 ^ 64) = (x.toInt * 3).tdiv 2 :=
    Int.bmod_eq_of_le (by rw [hdiv]; omega) (by rw [hdiv]; omega)
  rw [Int64.toInt_div, Int64.toInt_mul, h3, h2, e1, e2, hdiv]

namespace Tracker

variable (t : Tracker) (stage : Stage) (v : Int64) (c : FragmentCache)

/-! ### The moments a record acts on -/

/-- The summary of a stage. -/
def stats : Stage → OffsetStats
  | .raw => t.stage1
  | .root => t.stage2

/-- The tracker with `v` counted on `stage`, before any adjustment. -/
def count : Tracker :=
  match stage with
  | .raw => { t with stage1 := t.stage1.add v }
  | .root => { t with stage2 := t.stage2.add v }

/-- Whether recording `v` on `stage` reaches the adjustments: the stage counts, and has seen
    `statsAdjustInterval` new offsets with this one. -/
def reachesAdjust : Bool :=
  !(t.stats stage).disabled && decide (statsAdjustInterval ≤ ((t.stats stage).add v).newPoints)

/-- Whether stage two calls for a drift correction: it has counted `statsAdjustInterval` offsets,
    and their truncated mean exceeds a quarter of the width in size. -/
def driftDue : Bool :=
  decide (statsAdjustInterval ≤ t.stage2.points) &&
    decide (t.width / 4 < Int64.magnitude (t.stage2.sum / t.stage2.points))

/-- The correction stage two calls for: its truncated mean, rounded toward zero to a multiple of
    `minSectorEpsilon`. -/
def driftStep : Int64 := t.stage2.sum / t.stage2.points / minSectorEpsilon * minSectorEpsilon

/-- Whether stage one re-estimates the width: it has counted `statsAdjustInterval` offsets. -/
def widthDue : Bool := decide (statsAdjustInterval ≤ t.stage1.points)

/-- The width stage one calls for before clamping: three times its mean size, widened to one and
    a half times its least and greatest offsets. -/
def widthEstimate (s : OffsetStats) : Int64 :=
  max (max (s.absSum / s.points * 3) (-s.least * 3 / 2)) (s.greatest * 3 / 2)

/-- A width clamped to `[minSectorEpsilon, maxDynOverlap]`. -/
def clampWidth (w : Int64) : Int64 := max minSectorEpsilon (min w maxDynOverlap)

/-- The stage-one offsets that recording `v` on `stage` counts: `v` itself, when it goes to stage
    one and stage one counts. -/
def counted : List Int64 :=
  match stage with
  | .raw => if t.stage1.disabled then [] else [v]
  | .root => []

/-! ### What a record does -/

theorem stats_count : (t.count stage v).stats stage = (t.stats stage).add v := by
  cases stage <;> rfl

/-- A record counts the offset, then either adjusts drift and width, or does nothing more. -/
theorem record_eq :
    t.record stage v c =
      if t.reachesAdjust stage v then
        (((t.count stage v).correctDrift c).1.adjustWidth.1, ((t.count stage v).correctDrift c).2.1,
          ((t.count stage v).correctDrift c).2.2 ++
            ((t.count stage v).correctDrift c).1.adjustWidth.2)
      else (t.count stage v, c, []) := by
  unfold record reachesAdjust
  -- a disabled stage ignores the offset; otherwise the count of new offsets decides
  by_cases hd : (t.stats stage).disabled = true
  · cases stage <;> simp_all [stats, count, OffsetStats.add]
  · by_cases hn : statsAdjustInterval ≤ ((t.stats stage).add v).newPoints
    · cases stage <;> simp only [stats, count] at hd hn ⊢ <;>
        simp only [hd, hn, if_true, if_false, Bool.not_false, Bool.true_and, decide_true,
          Bool.false_eq_true]
    · cases stage <;> simp only [stats, count] at hd hn ⊢ <;> simp [hd, hn]

/-- A drift correction, when due, adds its amount to the drift, rebases the cache by it and
    restarts stage two; otherwise nothing changes. -/
theorem correctDrift_eq :
    t.correctDrift c =
      if t.driftDue then
        ({ t with drift := t.drift + t.driftStep, stage2 := t.stage2.reset },
          (c.rebase t.driftStep).1,
          ⟨c.root.endPos, .drift⟩ :: (c.rebase t.driftStep).2.map fun p => ⟨p, .cacheError⟩)
      else (t, c, []) := by
  unfold correctDrift driftDue driftStep
  by_cases h1 : statsAdjustInterval ≤ t.stage2.points
  · by_cases h2 : t.width / 4 < Int64.magnitude (t.stage2.sum / t.stage2.points)
    · simp [h1, h2]
    · simp [h1, h2]
  · simp [h1]

theorem correctDrift_stage1 : (t.correctDrift c).1.stage1 = t.stage1 := by
  rw [correctDrift_eq]
  split <;> rfl

theorem correctDrift_width : (t.correctDrift c).1.width = t.width := by
  rw [correctDrift_eq]
  split <;> rfl

/-- Re-estimating the width leaves the drift and stage two alone. -/
theorem adjustWidth_drift : t.adjustWidth.1.drift = t.drift := by
  unfold adjustWidth
  dsimp only
  split <;> rfl

theorem adjustWidth_stage2 : t.adjustWidth.1.stage2 = t.stage2 := by
  unfold adjustWidth
  dsimp only
  split <;> rfl

/-- When stage one is due, the width becomes its clamped estimate and the extremes restart at
    zero. -/
theorem adjustWidth_of_due (h : t.widthDue = true) :
    t.adjustWidth.1.width = clampWidth (widthEstimate t.stage1) ∧
      t.adjustWidth.1.stage1.least = 0 ∧ t.adjustWidth.1.stage1.greatest = 0 := by
  unfold widthDue at h
  unfold adjustWidth
  rw [if_pos (of_decide_eq_true h)]
  exact ⟨rfl, by split <;> rfl, by split <;> rfl⟩

theorem adjustWidth_of_not_due (h : t.widthDue = false) : t.adjustWidth.1 = t := by
  unfold widthDue at h
  unfold adjustWidth
  rw [if_neg (of_decide_eq_false h)]

/-! ### The drift -/

/-- What one record does to the drift, the cache and stage two. When it reaches the adjustments
    and stage two, with the offset counted, calls for a correction, the drift grows by exactly
    that correction, the cache is rebased by it, and stage two starts afresh, keeping whether it
    is disabled. Otherwise the drift and the cache stay as they were, and so does stage two once
    the offset is counted. -/
structure CorrectsDrift : Prop where
  of_due : t.reachesAdjust stage v = true → (t.count stage v).driftDue = true →
    (t.record stage v c).1.drift = t.drift + (t.count stage v).driftStep ∧
    (t.record stage v c).2.1 = (c.rebase (t.count stage v).driftStep).1 ∧
    (t.record stage v c).1.stage2 = (t.count stage v).stage2.reset
  of_not_due : ¬ (t.reachesAdjust stage v = true ∧ (t.count stage v).driftDue = true) →
    (t.record stage v c).1.drift = t.drift ∧ (t.record stage v c).2.1 = c ∧
    (t.record stage v c).1.stage2 = (t.count stage v).stage2

theorem count_drift : (t.count stage v).drift = t.drift := by
  cases stage <;> rfl

theorem correctsDrift : t.CorrectsDrift stage v c where
  of_due hr hd := by
    rw [record_eq, if_pos hr]
    simp only [adjustWidth_drift, adjustWidth_stage2]
    rw [correctDrift_eq, if_pos hd]
    exact ⟨by rw [count_drift], rfl, rfl⟩
  of_not_due h := by
    rw [record_eq]
    split
    · next hr =>
      have hd : (t.count stage v).driftDue = false := by simpa [hr] using h
      simp only [adjustWidth_drift, adjustWidth_stage2]
      rw [correctDrift_eq, if_neg (by simp [hd])]
      exact ⟨count_drift t stage v, rfl, rfl⟩
    · exact ⟨count_drift t stage v, rfl, rfl⟩

/-! ### The width -/

/-- A clamped width lies in `[minSectorEpsilon, maxDynOverlap]`. -/
theorem clampWidth_mem (w : Int64) :
    minSectorEpsilon ≤ clampWidth w ∧ clampWidth w ≤ maxDynOverlap := by
  have hlo : minSectorEpsilon.toInt = 128 := by decide
  have hhi : maxDynOverlap.toInt = 37632 := by decide
  simp only [clampWidth, Int64.le_iff_toInt_le, Int64.toInt_max, Int64.toInt_min, hlo, hhi]
  omega

/-- The least width that covers offset `v`: one and a half times its size, or `maxDynOverlap`. -/
def cover (v : Int64) : Int := min maxDynOverlap.toInt ((3 * v.toInt.natAbs / 2 : Nat) : Int)

/-- What holds between the steps of a run, for the stage-one offsets `pending` counted since the
    last width estimate: the width is in range, and the least and greatest stage-one offsets
    bracket zero and every pending offset, and are below `2 ^ 40` in size. -/
structure Brackets (t : Tracker) (pending : List Int64) : Prop where
  width_ge : minSectorEpsilon ≤ t.width
  width_le : t.width ≤ maxDynOverlap
  least_nonpos : t.stage1.least.toInt ≤ 0
  greatest_nonneg : 0 ≤ t.stage1.greatest.toInt
  least_gt : -2 ^ 40 < t.stage1.least.toInt
  greatest_lt : t.stage1.greatest.toInt < 2 ^ 40
  mem : ∀ u ∈ pending, t.stage1.least.toInt ≤ u.toInt ∧ u.toInt ≤ t.stage1.greatest.toInt

/-- The brackets read only the width and stage one's extremes. -/
theorem Brackets.congr {t t' : Tracker} {pending : List Int64} (hB : t.Brackets pending)
    (hl : t'.stage1.least = t.stage1.least) (hg : t'.stage1.greatest = t.stage1.greatest)
    (hw : t'.width = t.width) : t'.Brackets pending := by
  obtain ⟨h₁, h₂, h₃, h₄, h₅, h₆, h₇⟩ := hB
  exact ⟨hw ▸ h₁, hw ▸ h₂, hl ▸ h₃, hg ▸ h₄, hl ▸ h₅, hg ▸ h₆, hl ▸ hg ▸ h₇⟩

/-- The clamped estimate of a stage-one summary whose extremes bracket an offset `u` of size
    below `2 ^ 40` covers `u`: one and a half times the greatest, or the least, is at least as
    large. -/
theorem cover_le_clampWidth (s : OffsetStats) (hl : s.least.toInt ≤ 0) (hg : 0 ≤ s.greatest.toInt)
    (hl' : -2 ^ 40 < s.least.toInt) (hg' : s.greatest.toInt < 2 ^ 40) {u : Int64}
    (hu : s.least.toInt ≤ u.toInt ∧ u.toInt ≤ s.greatest.toInt) :
    cover u ≤ (clampWidth (widthEstimate s)).toInt := by
  have hhi : maxDynOverlap.toInt = 37632 := by decide
  have hlo : minSectorEpsilon.toInt = 128 := by decide
  have hneg : (-s.least).toInt = -s.least.toInt := by
    rw [Int64.toInt_neg]
    exact Int.bmod_eq_of_le (by omega) (by omega)
  -- one and a half times either extreme is exact: no word it forms wraps around
  have hgreat := Int64.toInt_mul_three_div_two hg hg'
  have hleast := @Int64.toInt_mul_three_div_two (-s.least) (by omega) (by omega)
  rw [hneg] at hleast
  simp only [cover, clampWidth, widthEstimate, Int64.toInt_max, Int64.toInt_min, hhi, hlo, hgreat,
    hleast]
  omega

/-- Counting an offset below `2 ^ 40` in size keeps the brackets, around the offset too. -/
theorem Brackets.count {pending : List Int64} (hB : t.Brackets pending)
    (hv : v.toInt.natAbs < 2 ^ 40) : (t.count stage v).Brackets (pending ++ t.counted stage v) := by
  cases stage with
  | root =>
    have hC : (t.count .root v).Brackets pending := hB.congr rfl rfl rfl
    simpa [counted] using hC
  | raw =>
    cases hd : t.stage1.disabled with
    | true =>
      have h1 : (t.count .raw v).stage1 = t.stage1 := by simp [count, OffsetStats.add, hd]
      have hC : (t.count .raw v).Brackets pending := hB.congr (by rw [h1]) (by rw [h1]) rfl
      simpa [counted, hd] using hC
    | false =>
      obtain ⟨h₁, h₂, h₃, h₄, h₅, h₆, h₇⟩ := hB
      have hl : (t.count .raw v).stage1.least.toInt = min t.stage1.least.toInt v.toInt := by
        simp [count, OffsetStats.add, hd, Int64.toInt_min]
      have hg : (t.count .raw v).stage1.greatest.toInt = max t.stage1.greatest.toInt v.toInt := by
        simp [count, OffsetStats.add, hd, Int64.toInt_max]
      refine ⟨h₁, h₂, by omega, by omega, by omega, by omega, ?_⟩
      intro u hu
      simp only [counted, hd, Bool.false_eq_true, if_false, List.mem_append,
        List.mem_singleton] at hu
      rcases hu with hu | rfl
      · have := h₇ u hu
        omega
      · omega

/-- A record keeps the brackets: around the offsets counted so far and the one it counts when it
    does not re-estimate the width, around nothing when it does; and a re-estimate covers every
    one of those offsets. -/
theorem Brackets.record {pending : List Int64} (hB : t.Brackets pending)
    (hv : v.toInt.natAbs < 2 ^ 40) :
    ((t.reachesAdjust stage v && (t.count stage v).widthDue) = true →
      ∀ u ∈ pending ++ t.counted stage v, cover u ≤ (t.record stage v c).1.width.toInt) ∧
    (t.record stage v c).1.Brackets
      (if t.reachesAdjust stage v && (t.count stage v).widthDue then []
        else pending ++ t.counted stage v) := by
  have hC := hB.count t stage v hv
  set t₁ := t.count stage v
  -- a drift correction leaves the width and stage one alone
  have hD : ((t₁.correctDrift c).1).Brackets (pending ++ t.counted stage v) :=
    hC.congr (by rw [correctDrift_stage1]) (by rw [correctDrift_stage1]) (t₁.correctDrift_width c)
  rw [record_eq]
  cases hr : t.reachesAdjust stage v with
  | false => exact ⟨by simp, by simpa using hC⟩
  | true =>
    simp only [if_true, Bool.true_and]
    cases hw : t₁.widthDue with
    | false =>
      rw [adjustWidth_of_not_due _ (by rwa [widthDue, correctDrift_stage1, ← widthDue])]
      exact ⟨by simp, by simpa using hD⟩
    | true =>
      have hw' : (t₁.correctDrift c).1.widthDue = true := by
        rwa [widthDue, correctDrift_stage1, ← widthDue]
      obtain ⟨hwidth, hleast, hgreat⟩ := adjustWidth_of_due _ hw'
      rw [correctDrift_stage1] at hwidth
      obtain ⟨hlo, hhi⟩ := clampWidth_mem (widthEstimate t₁.stage1)
      refine ⟨fun _ u hu => ?_, ?_⟩
      · rw [hwidth]
        exact cover_le_clampWidth _ hC.least_nonpos hC.greatest_nonneg hC.least_gt hC.greatest_lt
          (hC.mem u hu)
      · refine ⟨hwidth ▸ hlo, hwidth ▸ hhi, ?_, ?_, ?_, ?_, by simp⟩
        · rw [hleast]; decide
        · rw [hgreat]; decide
        · rw [hleast]; decide
        · rw [hgreat]; decide

/-- A new tracker brackets nothing yet, its width at `maxDynOverlap`. -/
theorem Brackets.init : ({} : Tracker).Brackets [] :=
  ⟨by decide, by decide, by decide, by decide, by decide, by decide, by simp⟩

end Tracker

/-- An operation on the tracker: a record, a width setting, a drift reset or a stage switched
    off. -/
inductive TrackerOp where
  | record (stage : Stage) (v : Int64)
  | setWidth (w : Int64)
  | resetDrift
  | disable (stage : Stage)

namespace TrackerOp

/-- The tracker and the cache after the operation. -/
def run : TrackerOp → Tracker → FragmentCache → Tracker × FragmentCache
  | record stage v, t, c => ((t.record stage v c).1, (t.record stage v c).2.1)
  | setWidth w, t, c => (t.setWidth w, c)
  | resetDrift, t, c => (t.resetDrift, c)
  | disable stage, t, c => (t.disable stage, c)

/-- The stage-one offsets the operation counts. -/
def counted : TrackerOp → Tracker → List Int64
  | record stage v, t => t.counted stage v
  | _, _ => []

/-- Whether the operation re-estimates the width from stage one. -/
def adjustsWidth : TrackerOp → Tracker → Bool
  | record stage v, t => t.reachesAdjust stage v && (t.count stage v).widthDue
  | _, _ => false

/-- The size of the offset the operation records; zero for the others. -/
def valueSize : TrackerOp → Nat
  | record _ v => v.toInt.natAbs
  | _ => 0

/-- The width discipline along the run of `ops` from `t` and `c`, where `pending` are the
    stage-one offsets counted since stage one last re-estimated the width: after every step the
    width lies in `[minSectorEpsilon, maxDynOverlap]`, and every step that re-estimates it leaves
    it covering each pending offset, the one that step counts included. -/
def WidthDiscipline : Tracker → FragmentCache → List Int64 → List TrackerOp → Prop
  | _, _, _, [] => True
  | t, c, pending, op :: ops =>
    (minSectorEpsilon ≤ (op.run t c).1.width ∧ (op.run t c).1.width ≤ maxDynOverlap) ∧
    (op.adjustsWidth t = true →
      ∀ u ∈ pending ++ op.counted t, Tracker.cover u ≤ (op.run t c).1.width.toInt) ∧
    WidthDiscipline (op.run t c).1 (op.run t c).2
      (if op.adjustsWidth t then [] else pending ++ op.counted t) ops

variable {t : Tracker} {pending : List Int64}

/-- One operation keeps the brackets, and a width estimate covers the offsets it closes. -/
theorem step (hB : t.Brackets pending) (op : TrackerOp) (c : FragmentCache)
    (hop : op.valueSize < 2 ^ 40) :
    (op.adjustsWidth t = true →
      ∀ u ∈ pending ++ op.counted t, Tracker.cover u ≤ (op.run t c).1.width.toInt) ∧
    (op.run t c).1.Brackets (if op.adjustsWidth t then [] else pending ++ op.counted t) := by
  cases op with
  | record stage v => exact hB.record t stage v c hop
  | setWidth w =>
    obtain ⟨hlo, hhi⟩ := Tracker.clampWidth_mem w
    have hS : (t.setWidth w).Brackets pending :=
      ⟨hlo, hhi, hB.least_nonpos, hB.greatest_nonneg, hB.least_gt, hB.greatest_lt, hB.mem⟩
    exact ⟨by simp [adjustsWidth], by simpa [adjustsWidth, counted, run] using hS⟩
  | resetDrift =>
    have hS : t.resetDrift.Brackets pending := hB.congr rfl rfl rfl
    exact ⟨by simp [adjustsWidth], by simpa [adjustsWidth, counted, run] using hS⟩
  | disable stage =>
    have hS : (t.disable stage).Brackets pending := by
      cases stage <;> exact hB.congr rfl rfl rfl
    exact ⟨by simp [adjustsWidth], by simpa [adjustsWidth, counted, run] using hS⟩

/-- From bracketing states, every run of operations whose offsets are below `2 ^ 40` in size
    keeps the width discipline. -/
theorem widthDiscipline_of_brackets (hB : t.Brackets pending) (c : FragmentCache)
    (ops : List TrackerOp) (hops : ∀ op ∈ ops, op.valueSize < 2 ^ 40) :
    WidthDiscipline t c pending ops := by
  induction ops generalizing t c pending with
  | nil => trivial
  | cons op ops ih =>
    obtain ⟨hcover, hB'⟩ := step hB op c (hops op List.mem_cons_self)
    exact ⟨⟨hB'.width_ge, hB'.width_le⟩, hcover,
      ih hB' _ fun op' h => hops op' (List.mem_cons_of_mem _ h)⟩

/-- The tracker keeps its discipline. Every record moves the drift only by a correction that
    stage two calls for at that moment, and then by exactly that correction, rebasing the cache by
    it and restarting stage two. Over every run of operations from a new tracker whose offsets are
    below `2 ^ 40` in size, the width stays in `[minSectorEpsilon, maxDynOverlap]`, and every width
    estimate covers each stage-one offset counted since the previous one. -/
theorem tracker_discipline :
    (∀ t stage v c, Tracker.CorrectsDrift t stage v c) ∧
    ∀ (c : FragmentCache) (ops : List TrackerOp), (∀ op ∈ ops, op.valueSize < 2 ^ 40) →
      WidthDiscipline {} c [] ops :=
  ⟨Tracker.correctsDrift, fun c ops hops =>
    widthDiscipline_of_brackets Tracker.Brackets.init c ops hops⟩

/-- Ten stage-one offsets of ±100, ten stage-two offsets of 300, a width setting, a drift reset,
    stage one switched off and one more stage-one offset. -/
def sampleOps : List TrackerOp :=
  (List.replicate 5 [record .raw 100, record .raw (-100)]).flatten ++
    List.replicate 10 (record .root 300) ++
    [setWidth 5000, resetDrift, disable .raw, record .raw 1000]

theorem tracker_discipline_sampleOps :
    (∀ op ∈ sampleOps, op.valueSize < 2 ^ 40) ∧ WidthDiscipline {} {} [] sampleOps :=
  have hops : ∀ op ∈ sampleOps, op.valueSize < 2 ^ 40 := by decide
  ⟨hops, tracker_discipline.2 {} sampleOps hops⟩

end TrackerOp

end VerifiedRip
