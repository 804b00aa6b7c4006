import VerifiedRip.Block.Raw
import VerifiedRip.Match.Agreement
/-!
# Agreement runs between two reads

`findRuns new old width covered` scans a fresh raw block `new` for stretches that agree with an
older block `old`, either in place or displaced by at most `width` samples. At each probed
position the synchronisation point is the in-place one if the two blocks agree there for
`minWordsSearch` samples, and otherwise the nearest agreeing position of `old` within the width
(`syncPoint`, through the block's `ValueIndex`). Each hit is widened backwards and forwards
into a `Run` of at least `minWordsOverlap` samples; runs come out in increasing, disjoint order.
Positions inside a `covered` range are skipped.

`mergeRanges` joins overlapping or touching ranges; verification uses it to mark what the
in-place runs already cover.
-/

namespace VerifiedRip

/-- A stretch `[start, stop)` of the fresh block that agrees with the old block displaced by
    `offset` samples. -/
structure Run where
  start : Nat
  stop : Nat
  offset : Int64
deriving DecidableEq, Repr

namespace Runs

/-- Distance between the positions of sample `j` of `old` and sample `i` of `new`, as a word. -/
def distance (new old : RawBlock) (i j : Nat) : Int64 :=
  Int64.magnitude (old.begin + Int64.ofNat j - (new.begin + Int64.ofNat i))

/-- Where sample `i` of `new` lines up with `old`: in place if they agree there for
    `minWordsSearch` samples; otherwise none if `new` repeats its sample at `i + 1`; otherwise the
    position within `width` of in-place that agrees for `minWordsSearch` samples and lies
    nearest, the higher one on a tie. -/
def syncPoint (new old : RawBlock) (i : Nat) (width : Int64) : Option Nat :=
  let search := Int64.ofNat minWordsSearch
  let abs := new.begin + Int64.ofNat i
  let j0 := abs - old.begin
  if 0 ≤ j0 ∧ Int64.toIndex j0 < old.size ∧
      search ≤ Signal.agreeForward new.samples old.samples (Int64.ofNat i) j0 then
    some (Int64.toIndex j0)
  else
    let x := new.samples.getD i 0
    if new.samples[i + 1]? = some x then none
    else
      let lo := Int64.toIndex (max (abs - width - old.begin) 0)
      let hi := min (Int64.toIndex (max (abs + width + 1 - old.begin) 0)) old.size
      let agrees := fun (j : Nat) =>
        search ≤ Signal.agreeForward new.samples old.samples (Int64.ofNat i) (Int64.ofNat j)
      (old.index.candidates x lo hi).foldl
        (fun best j =>
          if agrees j then
            match best with
            | some b => if distance new old i j < distance new old i b then some j else best
            | none => some j
          else best)
        none

/-- The run through the synchronisation point `i` of `new`, `j` of `old`: widened backwards
    while the blocks agree (but not before `floor`) and forwards while they agree. -/
def widen (new old : RawBlock) (floor i j : Nat) : Nat × Nat :=
  let oi := Int64.ofNat i
  let oj := Int64.ofNat j
  let back := Int64.toIndex (max (Signal.agreeBackward new.samples old.samples oi oj) 0)
  let fwd := Int64.toIndex (Signal.agreeForward new.samples old.samples oi oj)
  (max (i - min back i) floor, i + fwd)

/-- The scan of `findRuns` from position `i`, runs found so far in `acc`, none of them reaching
    past `floor`. Stops at `hi`. -/
def scan (new old : RawBlock) (width : Int64) (covered : List (Nat × Nat)) (hi : Nat)
    (floor i : Nat) (acc : Array Run) : Array Run :=
  if _hlt : i < hi then
    match covered.find? (fun r => r.1 ≤ i && i < r.2) with
    | some (_, e) =>
      if i < e then scan new old width covered hi floor e acc else acc
    | none =>
      match syncPoint new old i width with
      | none => scan new old width covered hi floor (i + minWordsRift) acc
      | some j =>
        match widen new old floor i j with
        | (start, stop) =>
          if _hs : i < stop ∧ minWordsOverlap ≤ stop - start then
            scan new old width covered hi stop stop
              (acc.push ⟨start, stop, old.begin + Int64.ofNat j - (new.begin + Int64.ofNat i)⟩)
          else scan new old width covered hi floor (i + minWordsRift) acc
  else acc
termination_by hi - i
decreasing_by all_goals (have : minWordsRift = 16 := rfl); all_goals simp_wf; all_goals omega

end Runs

/-- Runs of `new` that agree with `old` within `width` samples of in place, skipping the
    `covered` ranges. Either block shorter than `minWordsSearch` gives none. -/
def findRuns (new old : RawBlock) (width : Int64) (covered : List (Nat × Nat)) : Array Run :=
  if new.size < minWordsSearch ∨ old.size < minWordsSearch then #[]
  else
    let lo := Int64.toIndex (max (old.begin - width - new.begin) 0)
    let hi := min (Int64.toIndex (max (old.endPos + width - new.begin) 0))
      (new.size - minWordsSearch + 1)
    Runs.scan new old width covered hi lo lo #[]

/-- Adds the range `r` to the ranges joined so far, which are kept last first: `r` extends the
    last one if it starts at or before that one's end, and follows it otherwise. -/
def joinRange (acc : List (Nat × Nat)) (r : Nat × Nat) : List (Nat × Nat) :=
  match acc with
  | (s, e) :: rest => if r.1 ≤ e then (s, max e r.2) :: rest else r :: acc
  | [] => [r]

/-- Ranges in lexicographic order: by start, then by end. -/
def rangeLE (p q : Nat × Nat) : Bool := p.1 < q.1 || (p.1 == q.1 && p.2 ≤ q.2)

/-- Sorts ranges and joins those that overlap or touch. -/
def mergeRanges (ranges : List (Nat × Nat)) : List (Nat × Nat) :=
  ((ranges.mergeSort rangeLE).foldl joinRange []).reverse

end VerifiedRip
