import VerifiedRip.Audio.Signal
import VerifiedRip.Disc.Basic
/-!
# The root

The root is the reconciled stream: verified samples placed at a position, from which frames
are handed out. It remembers how far frames have been handed out (`returnedLimit`) and, when a
frame had to be skipped, the span of silence standing in for it (`skipped`). Positions are
64-bit words. An edit at a position is made at that position's distance from the root's start,
read as an index; an edit whose index lies past the end is refused (`insert?`, `remove?`).
-/

namespace VerifiedRip

/-- The reconciled stream of verified samples. -/
structure Root where
  samples : Signal := #[]
  begin : Int64 := 0
  /-- Frames before this position have been handed out. -/
  returnedLimit : Int64 := 0
  lastSector : Sector := 0
  /-- Silence that stands in for a skipped frame, as `[start, stop)`. -/
  skipped : Option (Int64 × Int64) := none

namespace Root

/-- Number of samples. -/
def size (r : Root) : Nat := r.samples.size

/-- Whether the root holds no sample. -/
def isEmpty (r : Root) : Bool := r.samples.isEmpty

/-- One past the position of the last sample. -/
def endPos (r : Root) : Int64 := r.begin + Int64.ofNat r.size

/-- End of the verified part: a skipped span that reaches the end does not count. -/
def verifiedEnd (r : Root) : Int64 :=
  match r.skipped with
  | some (s, e) => if e = r.endPos then s else r.endPos
  | none => r.endPos

/-- Whether the root holds every position of `[b, e)`. -/
def covers (r : Root) (b e : Int64) : Bool := !r.isEmpty && r.begin ≤ b && e ≤ r.endPos

/-- Starts the root afresh with `samples` at `begin`; nothing is handed out yet. -/
def set (samples : Signal) (begin : Int64) (lastSector : Sector) : Root :=
  { samples, begin, lastSector, returnedLimit := begin }

/-- Appends samples at the end. -/
def append (r : Root) (v : Signal) : Root := { r with samples := r.samples ++ v }

/-- The index of position `pos` in the samples: its distance from the start, as an index. -/
def indexOf (r : Root) (pos : Int64) : Nat := Int64.toIndex (pos - r.begin)

/-- Inserts samples at `pos`, whose index must not lie past the end. -/
def insert? (r : Root) (pos : Int64) (v : Signal) : Option Root :=
  let k := r.indexOf pos
  if k ≤ r.size then
    some { r with samples := r.samples.extract 0 k ++ v ++ r.samples.extract k r.size }
  else none

/-- Removes up to `count` samples at `pos`, whose index must not lie past the end. The end of
    the removed span is an unsigned 64-bit word, index plus `count` wrapping around; a span
    whose end wraps to before its start is refused. -/
def remove? (r : Root) (pos : Int64) (count : Nat) : Option Root :=
  let k := r.indexOf pos
  let stop := min (UInt64.ofNat k + UInt64.ofNat count).toNat r.size
  if k ≤ stop then some { r with samples := r.samples.extract 0 k ++ r.samples.extract stop r.size }
  else none

/-- Drops every sample from `pos` on. -/
def truncateAt (r : Root) (pos : Int64) : Root :=
  { r with samples := r.samples.extract 0 (Int64.toIndex (max (pos - r.begin) 0)) }

/-- Drops the samples before `pos`, moving the start up to it (or to the end). -/
def dropBefore (r : Root) (pos : Int64) : Root :=
  let n := min (Int64.toIndex (max (pos - r.begin) 0)) r.size
  { r with samples := r.samples.extract n r.size, begin := r.begin + Int64.ofNat n }

/-- Whether the root covers the frame at `pos` by its positions, the frame's end as a word. -/
def coversFrame (r : Root) (pos : Int64) : Bool := r.covers pos (pos + Int64.ofNat frameWords)

/-- The frame of `frameWords` samples at `pos`, if the root holds all of it. -/
def frameAt? (r : Root) (pos : Int64) : Option Signal :=
  let k := r.indexOf pos
  if r.coversFrame pos ∧ k + frameWords ≤ r.size then some (r.samples.extract k (k + frameWords))
  else none

/-- Whether the root covers the frame at `pos` by its positions while the frame's samples
    run past the root's end: the frame's end wrapped around. -/
def frameOverruns (r : Root) (pos : Int64) : Bool :=
  r.coversFrame pos && r.size < r.indexOf pos + frameWords

/-- Where silence filled in from `fill` starts its skipped span: at the start of a skipped span
    that runs to the root's end and starts by `fill`, which the silence continues; at `fill`
    otherwise. -/
def skipStart (r : Root) (fill : Int64) : Int64 :=
  match r.skipped with
  | some (a, e) => if e = r.endPos ∧ a ≤ fill then a else fill
  | none => fill

/-- The root once the frame at `pos` is given up. A root that does not reach `pos` starts
    afresh as a frame of silence there. Otherwise it keeps its verified part (up to `pos` at
    least) and silence fills it to the frame's end; the silence is remembered as skipped, joined
    to a skipped span that ran to the old end. -/
def fillSkipped (r : Root) (pos : Int64) (sector : Sector) : Root :=
  let stop := pos + Int64.ofNat frameWords
  if r.isEmpty ∨ pos < r.begin ∨ r.endPos < pos then
    { Root.set (Signal.zeros frameWords) pos sector with skipped := some (pos, stop) }
  else
    let fill := max r.verifiedEnd pos
    let root := r.truncateAt fill
    let n := Int64.toIndex (stop - root.begin)
    let samples := if n ≤ root.size then root.samples.extract 0 n
      else root.samples ++ Signal.zeros (n - root.size)
    { root with samples, lastSector := sector, skipped := some (r.skipStart fill, stop) }

end Root

end VerifiedRip
