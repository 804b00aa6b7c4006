import VerifiedRip.Drive.Read
import VerifiedRip.Tracker
/-!
# Reading sessions

A session reads a range of sectors frame by frame through a drive, keeping the fragment cache,
the tracker, its mode, the cursor (a sample position at a frame boundary) and the reading
range. This module holds the session record, its settings and `seek`; reading is in
`Session.Read`. Session operations run in `SessionM`, a state monad over the session, and note
their progress in the session's report log.

A session's mode is a set of bits: verification against a second read, overlap checking,
rift repair and refusal to skip. Bits the session does not know are kept, so the mode reads
back as it was set.
-/

namespace VerifiedRip

/-- Session mode bits, every bit retained. -/
structure ReadMode where
  bits : Int32
deriving DecidableEq, Repr

namespace ReadMode

/-- Verify each read against another. -/
def verify : Int32 := 0x01
/-- Fragment-level checks (kept for completeness of the bit set). -/
def fragment : Int32 := 0x02
/-- Overlap checking between reads. -/
def overlap : Int32 := 0x04
/-- Scratch detection (kept for completeness of the bit set). -/
def scratch : Int32 := 0x08
/-- Repair rifts between agreeing runs. -/
def repair : Int32 := 0x10
/-- Never give a sector up. -/
def neverSkip : Int32 := 0x20

/-- Every bit set: the mode a session starts in. -/
def full : ReadMode := ⟨0xFF⟩

/-- Whether some bit of `flag` is set. -/
def has (m : ReadMode) (flag : Int32) : Bool := m.bits &&& flag != 0

/-- Whether reads are verified rather than passed through. -/
def verified (m : ReadMode) : Bool := m.has (verify ||| overlap)

end ReadMode

/-- Sectors read ahead of the frame being verified. -/
def defaultReadahead : Nat := 150

/-- Fruitless reads before a frame is given up. -/
def defaultSessionRetries : Int32 := 20

/-- A verified-reading session over a drive on a source of type `σ`. -/
structure Session (σ : Type) where
  drive : Drive σ
  cache : FragmentCache := {}
  tracker : Tracker := {}
  mode : ReadMode := ReadMode.full
  /-- Sample position of the next frame. -/
  cursor : Int64
  /-- First sector of the reading range. -/
  firstSector : Sector
  /-- Last sector of the reading range. -/
  lastSector : Sector
  /-- Whether unreadable frames are replaced by silence. -/
  enableSkip : Bool := true
  readahead : Nat := defaultReadahead
  maxRetries : Int32 := defaultSessionRetries
  /-- The last frame handed out. -/
  frame : Signal := Signal.zeros frameWords
  /-- A sector that failed to read, skipped by later block reads. -/
  badSector : Option Sector := none
  /-- Progress reports of the current read. -/
  reports : Array Report := #[]

/-- Session operations: state changes of a session. -/
abbrev SessionM (σ : Type) := StateM (Session σ)

/-- Where a seek counts from. -/
inductive SeekOrigin where
  /-- Sector `n` itself. -/
  | start (n : Int)
  /-- `n` sectors from the cursor's sector. -/
  | current (n : Int)
  /-- `n` sectors from the last sector of the range. -/
  | last (n : Int)
deriving DecidableEq, Repr

namespace Session

variable {σ : Type}

/-- A session over the whole audio range of an open drive, in full mode. -/
def ofDrive (d : Drive σ) : Session σ :=
  { drive := d, cursor := d.firstSector.toInt64 * Int64.ofNat frameWords,
    firstSector := d.firstSector, lastSector := d.lastSector }

/-- The sector under the cursor: the frame count below it, as a sector word. -/
def cursorSector (s : Session σ) : Sector := Sector.ofInt (s.cursor.toInt / frameWords)

/-- Sets the mode; a mode with `neverSkip` turns skipping off. -/
def setMode (s : Session σ) (m : ReadMode) : Session σ :=
  { s with mode := m, enableSkip := !m.has ReadMode.neverSkip }

/-- Fixes the search width to `sectors` frames (a 64-bit product) and stops adapting it. -/
def setOverlap (s : Session σ) (sectors : Int64) : Session σ :=
  let t := s.tracker.setWidth (sectors * Int64.ofNat frameWords)
  { s with tracker := { t with stage1 := t.stage1.disable } }

/-- Sets how many sectors a block read asks for (at least one). -/
def setReadahead (s : Session σ) (n : Nat) : Session σ := { s with readahead := max n 1 }

/-- Sets how many fruitless reads are allowed before a frame is given up. -/
def setMaxRetries (s : Session σ) (r : Int32) : Session σ := { s with maxRetries := r }

/-- Narrows the reading range to `[start, stop]` within the drive's audio range; a cursor
    outside the new range moves to its start. -/
def setRange (s : Session σ) (start stop : Sector) : Session σ :=
  let first := max start s.drive.firstSector
  let last := min stop s.drive.lastSector
  let s := { s with firstSector := first, lastSector := last }
  if s.cursorSector < first ∨ last < s.cursorSector then
    { s with cursor := first.toInt64 * Int64.ofNat frameWords }
  else s

/-- `a + b` held to the range of 64-bit signed words. -/
def saturatingAdd (a b : Int) : Int := max (-9223372036854775808) (min (a + b) 9223372036854775807)

/-- Moves the cursor to a sector clamped into the range, forgetting the cache and the drift.
    A target counted from the cursor or the range's end stops at the 64-bit limits. Refused
    when the range is empty. -/
def seek? (s : Session σ) (o : SeekOrigin) : Option (Sector × Session σ) :=
  if s.lastSector < s.firstSector then none
  else
    let target := match o with
      | .start n => n
      | .current n => saturatingAdd s.cursorSector.toInt n
      | .last n => saturatingAdd s.lastSector.toInt n
    let sector := max s.firstSector.toInt (min target s.lastSector.toInt)
    some (Sector.ofInt sector,
      { s with cursor := Int64.ofInt (sector * frameWords), cache := s.cache.resetAll,
               tracker := s.tracker.resetDrift, badSector := none })

/-- Notes a progress report. -/
def report (pos : Int64) (e : Event) : SessionM σ Unit :=
  modify fun s => { s with reports := s.reports.push ⟨pos, e⟩ }

/-- Counts an offset on the tracker, noting its reports. -/
def record (stage : Stage) (v : Int64) : SessionM σ Unit :=
  modify fun s =>
    let (t, c, rs) := s.tracker.record stage v s.cache
    { s with tracker := t, cache := c, reports := s.reports ++ rs.toArray }

/-- Changes the root. -/
def editRoot (f : Root → Root) : SessionM σ Unit :=
  modify fun s => { s with cache := s.cache.modifyRoot f }

/-- Removes a fragment from the cache. -/
def dropFragment (h : Handle Fragment) : SessionM σ Unit :=
  modify fun s => { s with cache := (s.cache.removeFragment h).1 }

end Session

end VerifiedRip
