import VerifiedRip.Cache
import VerifiedRip.Event
/-!
# Adaptive search width and drift

The tracker keeps two offset summaries. Stage one sees the offsets at which raw reads agree
with each other; every `statsAdjustInterval` new offsets it sets the search width to three
times their mean size, widened to one and a half times the extreme offsets, clamped to
`[minSectorEpsilon, maxDynOverlap]`. Stage two sees the offsets at which fragments line up with
the root; when their mean drifts past a quarter of the width, the drift is rounded to a
multiple of `minSectorEpsilon`, added to the total drift, and the cache is moved back by it.
Long-running stage-one sums decay by a factor of 1.2 once past `statsDecayThreshold` points.
The width, the drift and every sum are 64-bit words, and their arithmetic wraps around.

Each stage's summary (`OffsetStats`) counts the offsets seen in all and since the last
adjustment, their sum, the sum of their sizes, and the least and greatest (both starting from
zero). A disabled summary ignores new offsets.
-/

namespace VerifiedRip

/-- Running statistics of observed offsets. -/
structure OffsetStats where
  /-- Offsets counted in all. -/
  points : Int64 := 0
  /-- Offsets counted since the last adjustment. -/
  newPoints : Int64 := 0
  /-- Sum of the offsets. -/
  sum : Int64 := 0
  /-- Sum of the offsets' sizes. -/
  absSum : Int64 := 0
  /-- Least offset, or zero. -/
  least : Int64 := 0
  /-- Greatest offset, or zero. -/
  greatest : Int64 := 0
  /-- Whether new offsets are ignored. -/
  disabled : Bool := false
deriving DecidableEq, Repr

namespace OffsetStats

/-- Counts one offset, unless disabled. -/
def add (s : OffsetStats) (v : Int64) : OffsetStats :=
  if s.disabled then s
  else
    { s with
      absSum := s.absSum + Int64.magnitude v
      points := s.points + 1
      newPoints := s.newPoints + 1
      sum := s.sum + v
      least := min s.least v
      greatest := max s.greatest v }

/-- Stops counting. -/
def disable (s : OffsetStats) : OffsetStats := { s with disabled := true }

/-- Forgets every offset, keeping whether counting is disabled. -/
def reset (s : OffsetStats) : OffsetStats := { disabled := s.disabled }

end OffsetStats

/-- Smallest search width, in samples. -/
def minSectorEpsilon : Int64 := 128

/-- Largest search width, in samples: `maxSectorOverlap` frames. -/
def maxDynOverlap : Int64 := 37632

/-- New offsets between adjustments. -/
def statsAdjustInterval : Int64 := 10

/-- Stage-one points past which the sums decay. -/
def statsDecayThreshold : Int64 := 600

/-- Which summary an offset goes to. -/
inductive Stage where
  /-- Raw reads agreeing with each other. -/
  | raw
  /-- Fragments lining up with the root. -/
  | root
deriving DecidableEq, Repr

/-- Search width and drift, with the summaries they are estimated from. -/
structure Tracker where
  stage1 : OffsetStats := {}
  stage2 : OffsetStats := {}
  /-- Search width, in samples. -/
  width : Int64 := maxDynOverlap
  /-- Total drift applied so far, in samples. -/
  drift : Int64 := 0
deriving Repr

namespace Tracker

/-- Sets the search width, clamped to `[minSectorEpsilon, maxDynOverlap]`. -/
def setWidth (t : Tracker) (w : Int64) : Tracker :=
  { t with width := max minSectorEpsilon (min w maxDynOverlap) }

/-- Forgets the drift and the stage-two summary. -/
def resetDrift (t : Tracker) : Tracker := { t with drift := 0, stage2 := t.stage2.reset }

/-- Stops a stage from counting. -/
def disable (t : Tracker) : Stage → Tracker
  | .raw => { t with stage1 := t.stage1.disable }
  | .root => { t with stage2 := t.stage2.disable }

/-- A value divided by 1.2 in double precision, truncated toward zero. -/
def decay (x : Int64) : Int64 := (Float.ofInt x.toInt / 1.2).toInt64

/-- Applies a drift correction if stage two's mean has moved past a quarter of the width. -/
def correctDrift (t : Tracker) (c : FragmentCache) : Tracker × FragmentCache × List Report :=
  if statsAdjustInterval ≤ t.stage2.points then
    let av := t.stage2.sum / t.stage2.points
    if t.width / 4 < Int64.magnitude av then
      let av := av / minSectorEpsilon * minSectorEpsilon
      let mark : Report := ⟨c.root.endPos, .drift⟩
      let (c, released) := c.rebase av
      ({ t with drift := t.drift + av, stage2 := t.stage2.reset }, c,
        mark :: released.map fun p => ⟨p, .cacheError⟩)
    else (t, c, [])
  else (t, c, [])

/-- Re-estimates the width from stage one, then decays and restarts its window. -/
def adjustWidth (t : Tracker) : Tracker × List Report :=
  let s := t.stage1
  if statsAdjustInterval ≤ s.points then
    let w := s.absSum / s.points * 3
    let w := max (max w (-s.least * 3 / 2)) (s.greatest * 3 / 2)
    let width := max minSectorEpsilon (min w maxDynOverlap)
    let s := if statsDecayThreshold < s.points then
        { s with points := decay s.points, sum := decay s.sum, absSum := decay s.absSum }
      else s
    ({ t with width, stage1 := { s with least := 0, greatest := 0, newPoints := 0 } },
      [⟨width, .overlap⟩])
  else (t, [])

/-- Counts an offset on a stage; every `statsAdjustInterval` new points on that stage, corrects
    drift and re-estimates the width. -/
def record (t : Tracker) (stage : Stage) (v : Int64) (c : FragmentCache) :
    Tracker × FragmentCache × List Report :=
  let s := match stage with
    | .raw => t.stage1
    | .root => t.stage2
  if s.disabled then (t, c, [])
  else
    let s := s.add v
    let t := match stage with
      | .raw => { t with stage1 := s }
      | .root => { t with stage2 := s }
    if statsAdjustInterval ≤ s.newPoints then
      let (t, c, r1) := t.correctDrift c
      let (t, r2) := t.adjustWidth
      (t, c, r1 ++ r2)
    else (t, c, [])

end Tracker

end VerifiedRip
