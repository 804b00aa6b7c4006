import VerifiedRip.Drive.Basic
/-!
# Reading through a drive

A drive read asks for at most `nsectors` sectors and no more than the caller has room for
(one fewer under the underrun test flag). A failed batch is retried: after five failures the
batch shrinks to three quarters on each further failure, and after `maxRetries` retries the
read gives up, as a skipped sector if it had shrunk to one sector, as unrecoverable otherwise.
A source that cannot retry, or a drive told not to, gives up at the first failure.

Under a jitter test flag, one read in ten (every read with `alwaysJitter`) is displaced by a
random number of bytes: the drive reads one sector more from the displaced start and hands out
the whole sectors that follow the displaced byte.
-/

namespace VerifiedRip

/-- Retries before a batch read gives up. -/
def maxRetries : Nat := 8

namespace Drive

variable {σ : Type} [SectorSource σ]

/-- Reads `count` sectors at `begin`, retrying as described above; `retry` failures so far. -/
def readBlocksFrom (d : Drive σ) (begin : Sector) (count retry : Nat) :
    Except RipError ByteArray × Drive σ :=
  let (r, source) := SectorSource.readAudio d.source begin count
  let d := { d with source }
  match r with
  | .ok bytes => (.ok bytes, d)
  | .error err =>
    let msg := err.message
    if !d.errorRetry || !SectorSource.supportsRetry d.source then
      (.error (.noRetry begin), d.noteError s!"Read of sector {begin.toInt} failed: {msg}")
    else if count = 1 ∧ maxRetries - 1 < retry then
      (.error (.sectorSkipped begin (Int32.ofNat retry)),
        d.noteError s!"Skipping unreadable sector {begin.toInt}")
    else
      let count := if 4 < retry ∧ 1 < count then count * 3 / 4 else count
      if maxRetries < retry + 1 then
        (.error (.unrecoverable begin),
          d.noteError s!"Unrecoverable error reading {count} sectors at {begin.toInt}: {msg}")
      else readBlocksFrom d begin count (retry + 1)
termination_by maxRetries + 1 - retry
decreasing_by all_goals (have : maxRetries = 8 := rfl); all_goals omega

/-- Reads `count` sectors at `begin` with retries. -/
def readBlocks (d : Drive σ) (begin : Sector) (count : Nat) : Except RipError ByteArray × Drive σ :=
  d.readBlocksFrom begin count 0

/-- The split of a byte displacement into whole sectors and a byte offset into the sector
    after them: `jitter = sectorBytes * sectors + offset` with `0 ≤ offset ≤ sectorBytes`
    (the offset is a whole sector only for negative multiples of a sector). -/
def splitJitter (jitter : Int) : Int × Int :=
  if 0 ≤ jitter then (jitter.tdiv sectorBytes, jitter.tmod sectorBytes)
  else (jitter.tdiv sectorBytes - 1, sectorBytes - (-jitter).tmod sectorBytes)

/-- Reads `sectors` sectors at `begin` displaced by `jitter` bytes: one sector more from the
    displaced start, keeping the whole sectors after the byte offset. A displaced start at or
    before sector zero, or a displaced end past the lead-out, reads undisplaced. -/
def readShifted (d : Drive σ) (begin : Sector) (sectors : Nat) (jitter : Int) :
    Except RipError ByteArray × Drive σ :=
  let (jsec, offset) := splitJitter jitter
  let shifted := begin.toInt + jsec
  let (start, count, offset) :=
    if 0 < shifted ∧ shifted + sectors + 1 ≤ d.toc.leadout.toInt then
      (Sector.ofInt shifted, sectors + 1, offset)
    else (begin, sectors, 0)
  match d.readBlocks start count with
  | (.ok scratch, d) =>
    let o := offset.toNat
    let whole := min ((scratch.size - o) / sectorBytes) sectors
    (.ok (scratch.extract o (o + whole * sectorBytes)), d)
  | (.error e, d) => (.error e, d)

/-- A read under a jitter flag: plain nine times in ten unless every read is jittered,
    otherwise displaced by the level's coefficient times a spread drawn in `[-147, 147]`. -/
def readJittered (d : Drive σ) (begin : Sector) (sectors : Nat) : Except RipError ByteArray × Drive σ :=
  let (plain, d) :=
    if d.testFlags.alwaysJitter then (false, d)
    else
      let (u0, jitter) := d.jitter.next
      (u0 ≤ 0.9, { d with jitter })
  if plain then d.readBlocks begin sectors
  else
    let (u, jitter) := d.jitter.next
    let d := { d with jitter }
    let spread := ((u - 0.5) * 2352.0 / 8.0).toInt64.toInt
    d.readShifted begin sectors (d.testFlags.jitter.coefficient * spread)

/-- Reads up to `sectors` sectors at `begin` into room for `room` sectors: the bytes of the
    whole sectors delivered. -/
def read (d : Drive σ) (begin : Sector) (sectors room : Nat) : Except RipError ByteArray × Drive σ :=
  if !d.opened then (.error .deviceNotOpen, d)
  else
    let n := min (min sectors d.nsectors) room
    let n := if d.testFlags.underrun ∧ 1 < n then n - 1 else n
    if n = 0 then (.ok ByteArray.empty, d)
    else if d.testFlags.jitter = .none then d.readBlocks begin n
    else d.readJittered begin n

end Drive

end VerifiedRip
