import VerifiedRip.Proofs.TrackerDiscipline
/-!
# Stages switched off

Switching a stage off stops it from counting offsets, but the adjustments still read its sums:
every record that reaches the adjustments, whichever stage it counts on, tests stage two's mean
for a drift correction and stage one's count for a width estimate, whether or not that stage is
switched off. A stage switched off before it has counted `statsAdjustInterval` offsets never
passes its test again, and so has no further influence on the tracker. A stage switched off
later keeps acting through its stale sums: stage one re-estimates the width at every stage-two
adjustment (`Tracker.record_root_rewidens_of_points`), and stage two corrects the drift at
stage-one adjustments (`Tracker.record_raw_corrects_of_due`).

## Main definitions

* `Tracker.WidthFrozen`, `Tracker.DriftFrozen`: a stage switched off short of its first test.
* `TrackerOp.reports`, `TrackerOp.runAll`: the reports of an operation, and of a whole run.
* `TrackerOp.settleWidth`, `TrackerOp.settleDrift`: what an operation does to the width and the
  drift by setting them outright.

## Main statements

* `Tracker.record_of_widthFrozen`, `Tracker.record_of_driftFrozen`: the step lemmas.
* `TrackerOp.runAll_disabled_stage_inert`: over every run, a frozen stage one leaves the width
  to the width settings and reports no estimate, and a frozen stage two leaves the drift to the
  drift resets, never rebases the cache and reports no correction.
-/

namespace VerifiedRip

namespace Tracker

variable (t : Tracker) (stage : Stage) (v : Int64) (c : FragmentCache)

/-- Stage one is switched off and has counted too few offsets for a width estimate. -/
def WidthFrozen : Prop := t.stage1.disabled = true ∧ t.stage1.points < statsAdjustInterval

/-- Stage two is switched off and has counted too few offsets for a drift correction. -/
def DriftFrozen : Prop := t.stage2.disabled = true ∧ t.stage2.points < statsAdjustInterval

theorem count_stage1 (h : t.stage1.disabled = true) : (t.count stage v).stage1 = t.stage1 := by
  cases stage <;> simp [count, OffsetStats.add, h]

theorem count_stage2 (h : t.stage2.disabled = true) : (t.count stage v).stage2 = t.stage2 := by
  cases stage <;> simp [count, OffsetStats.add, h]

theorem count_width : (t.count stage v).width = t.width := by
  cases stage <;> rfl

theorem adjustWidth_of_points_lt (h : t.stage1.points < statsAdjustInterval) :
    t.adjustWidth = (t, []) := by
  unfold adjustWidth
  rw [if_neg (Int64.not_le.2 h)]

theorem correctDrift_of_points_lt (h : t.stage2.points < statsAdjustInterval) :
    t.correctDrift c = (t, c, []) := by
  unfold correctDrift
  rw [if_neg (Int64.not_le.2 h)]

/-- A due width estimate reports the clamped estimate. -/
theorem adjustWidth_reports_of_due (h : t.widthDue = true) :
    t.adjustWidth.2 = [⟨clampWidth (widthEstimate t.stage1), .overlap⟩] := by
  unfold widthDue at h
  unfold adjustWidth
  rw [if_pos (of_decide_eq_true h)]
  rfl

/-- A drift correction reports the drift and the entries it releases, never a width. -/
theorem correctDrift_reports_ne_overlap : ∀ r ∈ (t.correctDrift c).2.2, r.event ≠ .overlap := by
  rw [correctDrift_eq]
  split <;> simp

/-- A width estimate reports the width, never a drift. -/
theorem adjustWidth_reports_ne_drift : ∀ r ∈ t.adjustWidth.2, r.event ≠ .drift := by
  unfold adjustWidth
  dsimp only
  split <;> simp

/-- A record keeps a frozen stage one frozen and the width as it was, and reports no width. -/
theorem record_of_widthFrozen (h : t.WidthFrozen) :
    (t.record stage v c).1.WidthFrozen ∧ (t.record stage v c).1.width = t.width ∧
      ∀ r ∈ (t.record stage v c).2.2, r.event ≠ .overlap := by
  obtain ⟨hd, hp⟩ := h
  have h1 := count_stage1 t stage v hd
  rw [record_eq]
  split
  · -- a drift correction leaves stage one and the width alone, and no estimate is due
    have hs : ((t.count stage v).correctDrift c).1.stage1 = t.stage1 :=
      (correctDrift_stage1 _ c).trans h1
    rw [adjustWidth_of_points_lt _ (by rw [hs]; exact hp)]
    refine ⟨⟨by rw [hs]; exact hd, by rw [hs]; exact hp⟩,
      (correctDrift_width _ c).trans (count_width t stage v), ?_⟩
    simpa using correctDrift_reports_ne_overlap _ c
  · exact ⟨⟨by rw [h1]; exact hd, by rw [h1]; exact hp⟩, count_width t stage v, by simp⟩

/-- A record keeps a frozen stage two frozen, the drift and the cache as they were, and reports
    no correction. -/
theorem record_of_driftFrozen (h : t.DriftFrozen) :
    (t.record stage v c).1.DriftFrozen ∧ (t.record stage v c).1.drift = t.drift ∧
      (t.record stage v c).2.1 = c ∧ ∀ r ∈ (t.record stage v c).2.2, r.event ≠ .drift := by
  obtain ⟨hd, hp⟩ := h
  have h2 := count_stage2 t stage v hd
  rw [record_eq]
  split
  · -- no correction is due, and a width estimate leaves the drift and stage two alone
    rw [correctDrift_of_points_lt _ c (by rw [h2]; exact hp)]
    have hs : (t.count stage v).adjustWidth.1.stage2 = t.stage2 := (adjustWidth_stage2 _).trans h2
    refine ⟨⟨by rw [hs]; exact hd, by rw [hs]; exact hp⟩,
      (adjustWidth_drift _).trans (count_drift t stage v), rfl, ?_⟩
    simpa using adjustWidth_reports_ne_drift (t.count stage v)
  · exact ⟨⟨by rw [h2]; exact hd, by rw [h2]; exact hp⟩, count_drift t stage v, rfl, by simp⟩

/-- The width estimate does not ask whether stage one is switched off: once stage one has counted
    `statsAdjustInterval` offsets, every stage-two record that reaches the adjustments sets the
    width to stage one's clamped estimate, and reports it. -/
theorem record_root_rewidens_of_points (hp : statsAdjustInterval ≤ t.stage1.points)
    (hr : t.reachesAdjust .root v = true) :
    (t.record .root v c).1.width = clampWidth (widthEstimate t.stage1) ∧
      ⟨clampWidth (widthEstimate t.stage1), .overlap⟩ ∈ (t.record .root v c).2.2 := by
  rw [record_eq, if_pos hr]
  -- counting on stage two and a drift correction both leave stage one as it was
  have hs : ((t.count .root v).correctDrift c).1.stage1 = t.stage1 := correctDrift_stage1 _ c
  have hdue : ((t.count .root v).correctDrift c).1.widthDue = true := by
    simp [widthDue, hs, hp]
  have hw := (adjustWidth_of_due _ hdue).1
  rw [hs] at hw
  refine ⟨hw, ?_⟩
  rw [adjustWidth_reports_of_due _ hdue, hs]
  simp

/-- The drift correction does not ask whether stage two is switched off: a stage-one record that
    reaches the adjustments while stage two calls for a correction adds it to the drift. -/
theorem record_raw_corrects_of_due (hr : t.reachesAdjust .raw v = true) (hd : t.driftDue = true) :
    (t.record .raw v c).1.drift = t.drift + t.driftStep :=
  ((correctsDrift t .raw v c).of_due hr hd).1

end Tracker

namespace TrackerOp

/-- The reports of the operation: a record's own; the other operations report nothing. -/
def reports : TrackerOp → Tracker → FragmentCache → List Report
  | record stage v, t, c => (t.record stage v c).2.2
  | _, _, _ => []

/-- The tracker and the cache after `ops` in turn, with every report made on the way. -/
def runAll : List TrackerOp → Tracker → FragmentCache → Tracker × FragmentCache × List Report
  | [], t, c => (t, c, [])
  | op :: ops, t, c =>
    let r := runAll ops (op.run t c).1 (op.run t c).2
    (r.1, r.2.1, op.reports t c ++ r.2.2)

/-- The width after the operation, were it moved only by a width setting. -/
def settleWidth : TrackerOp → Int64 → Int64
  | setWidth w, _ => Tracker.clampWidth w
  | _, w => w

/-- The drift after the operation, were it moved only by a drift reset. -/
def settleDrift : TrackerOp → Int64 → Int64
  | resetDrift, _ => 0
  | _, d => d

variable {t : Tracker}

theorem widthFrozen_step (h : t.WidthFrozen) (op : TrackerOp) (c : FragmentCache) :
    (op.run t c).1.WidthFrozen ∧ (op.run t c).1.width = op.settleWidth t.width ∧
      ∀ r ∈ op.reports t c, r.event ≠ .overlap := by
  cases op with
  | record stage v => exact t.record_of_widthFrozen stage v c h
  | setWidth w => exact ⟨h, rfl, by simp [reports]⟩
  | resetDrift => exact ⟨h, rfl, by simp [reports]⟩
  | disable stage =>
    cases stage with
    | raw => exact ⟨⟨rfl, h.2⟩, rfl, by simp [reports]⟩
    | root => exact ⟨h, rfl, by simp [reports]⟩

theorem driftFrozen_step (h : t.DriftFrozen) (op : TrackerOp) (c : FragmentCache) :
    (op.run t c).1.DriftFrozen ∧ (op.run t c).1.drift = op.settleDrift t.drift ∧
      (op.run t c).2 = c ∧ ∀ r ∈ op.reports t c, r.event ≠ .drift := by
  cases op with
  | record stage v => exact t.record_of_driftFrozen stage v c h
  | setWidth w => exact ⟨h, rfl, rfl, by simp [reports]⟩
  | resetDrift =>
    -- a reset zeroes stage two's counts and keeps it switched off
    exact ⟨⟨h.1, show (0 : Int64) < statsAdjustInterval by decide⟩, rfl, rfl, by simp [reports]⟩
  | disable stage =>
    cases stage with
    | raw => exact ⟨h, rfl, rfl, by simp [reports]⟩
    | root => exact ⟨⟨rfl, h.2⟩, rfl, rfl, by simp [reports]⟩

theorem runAll_of_widthFrozen (ops : List TrackerOp) (c : FragmentCache) (h : t.WidthFrozen) :
    (runAll ops t c).1.width = ops.foldl (fun w op => op.settleWidth w) t.width ∧
      ∀ r ∈ (runAll ops t c).2.2, r.event ≠ .overlap := by
  induction ops generalizing t c with
  | nil => exact ⟨rfl, by simp [runAll]⟩
  | cons op ops ih =>
    obtain ⟨h', hw, hr⟩ := widthFrozen_step h op c
    obtain ⟨ihw, ihr⟩ := ih _ h'
    refine ⟨by rw [runAll, List.foldl_cons, ← hw]; exact ihw, fun r hmem => ?_⟩
    rcases List.mem_append.1 hmem with hmem | hmem
    · exact hr r hmem
    · exact ihr r hmem

theorem runAll_of_driftFrozen (ops : List TrackerOp) (c : FragmentCache) (h : t.DriftFrozen) :
    (runAll ops t c).1.drift = ops.foldl (fun d op => op.settleDrift d) t.drift ∧
      (runAll ops t c).2.1 = c ∧ ∀ r ∈ (runAll ops t c).2.2, r.event ≠ .drift := by
  induction ops generalizing t c with
  | nil => exact ⟨rfl, rfl, by simp [runAll]⟩
  | cons op ops ih =>
    obtain ⟨h', hd, hc, hr⟩ := driftFrozen_step h op c
    obtain ⟨ihd, ihc, ihr⟩ := ih _ h'
    refine ⟨by rw [runAll, List.foldl_cons, ← hd]; exact ihd, by rw [runAll]; exact ihc.trans hc,
      fun r hmem => ?_⟩
    rcases List.mem_append.1 hmem with hmem | hmem
    · exact hr r hmem
    · exact ihr r hmem

/-- A stage switched off before it has counted `statsAdjustInterval` offsets has no further
    influence, over every run of records, width settings, drift resets and stage switches. With
    stage one so switched off, the width after the run is the one its width settings leave, and
    no width estimate is reported. With stage two so switched off, the drift after the run is the
    one its drift resets leave, the cache is never rebased, and no drift correction is
    reported. -/
theorem runAll_disabled_stage_inert (ops : List TrackerOp) (t : Tracker) (c : FragmentCache) :
    (t.stage1.disabled = true → t.stage1.points < statsAdjustInterval →
      (runAll ops t c).1.width = ops.foldl (fun w op => op.settleWidth w) t.width ∧
        ∀ r ∈ (runAll ops t c).2.2, r.event ≠ .overlap) ∧
    (t.stage2.disabled = true → t.stage2.points < statsAdjustInterval →
      (runAll ops t c).1.drift = ops.foldl (fun d op => op.settleDrift d) t.drift ∧
        (runAll ops t c).2.1 = c ∧ ∀ r ∈ (runAll ops t c).2.2, r.event ≠ .drift) :=
  ⟨fun hd hp => runAll_of_widthFrozen ops c ⟨hd, hp⟩,
    fun hd hp => runAll_of_driftFrozen ops c ⟨hd, hp⟩⟩

theorem runAll_disabled_stage_inert_sampleOps :
    (((({} : Tracker).disable .raw).disable .root).stage1.disabled = true ∧
      ((({} : Tracker).disable .raw).disable .root).stage1.points < statsAdjustInterval) ∧
    (((({} : Tracker).disable .raw).disable .root).stage2.disabled = true ∧
      ((({} : Tracker).disable .raw).disable .root).stage2.points < statsAdjustInterval) ∧
    (runAll sampleOps ((({} : Tracker).disable .raw).disable .root) {}).1.width =
      sampleOps.foldl (fun w op => op.settleWidth w) maxDynOverlap ∧
    (runAll sampleOps ((({} : Tracker).disable .raw).disable .root) {}).1.drift =
      sampleOps.foldl (fun d op => op.settleDrift d) 0 :=
  have h1 : ((({} : Tracker).disable .raw).disable .root).stage1.disabled = true ∧
      ((({} : Tracker).disable .raw).disable .root).stage1.points < statsAdjustInterval :=
    ⟨rfl, by decide⟩
  have h2 : ((({} : Tracker).disable .raw).disable .root).stage2.disabled = true ∧
      ((({} : Tracker).disable .raw).disable .root).stage2.points < statsAdjustInterval :=
    ⟨rfl, by decide⟩
  ⟨h1, h2, ((runAll_disabled_stage_inert sampleOps _ {}).1 h1.1 h1.2).1,
    ((runAll_disabled_stage_inert sampleOps _ {}).2 h2.1 h2.2).1⟩

end TrackerOp

end VerifiedRip
