import VerifiedRip.Session.Basic
import VerifiedRip.Match.Runs
/-!
# Stage one: reading and verifying raw blocks

`readBlock` reads a batch of sectors starting a search width before the end of the root (or
before the frame, with no root yet) and stores it as a raw block, placed where the drift says
it belongs. A failed batch is retried sector by sector; a sector that still fails ends the
batch and is remembered so that later batches start after it. The batch is read into a buffer
sized by a 64-bit product of its sector count: a buffer past the signed 64-bit range panics.

`verifyBlock` compares a new block with every stored block that lies within the search width:
in-place runs first (joined by `mergeRanges`), then displaced runs outside them. Every run
becomes a verified fragment, and every run's offset is counted on the tracker's stage one.
-/

namespace VerifiedRip

namespace Session

variable {σ : Type} [SectorSource σ]

/-- The reads of a batch of `count` sectors from `sector`, `read` of them delivered in `acc`;
    `single` once a failure has switched to sector-by-sector reads. Returns the bytes read, or
    the error that ends the session's read. -/
def readBatch (sector : Sector) (count : Nat) (drift : Int64) (read : Nat) (single : Bool)
    (acc : ByteArray) : SessionM σ (Except RipError ByteArray) := do
  if h : read < count then
    let s ← get
    let lsn := sector + Int32.ofNat read
    let want := if single then 1 else count - read
    let (r, drive) := s.drive.read lsn want (count - read)
    set { s with drive }
    match r with
    | .ok bytes =>
      if _hn : bytes.size / sectorBytes = 0 then pure (.ok acc)
      else readBatch sector count drift (read + bytes.size / sectorBytes) single (acc ++ bytes)
    | .error .deviceNotOpen => pure (.error .deviceNotOpen)
    | .error e =>
      report (lsn.toInt64 * Int64.ofNat frameWords - drift) .readError
      if single || e.isSkip then
        modify fun s => { s with badSector := some lsn }
        pure (.ok acc)
      else if _hs : single = false then readBatch sector count drift read true acc
      else pure (.ok acc)
  else pure (.ok acc)
termination_by 2 * (count - read) + (if single then 0 else 1)
decreasing_by
  · have e : sectorBytes = 2352 := rfl
    rw [e] at _hn ⊢
    split <;> omega
  · subst _hs; simp only [Bool.false_eq_true, if_false, if_true]; omega

/-- The sector the next batch for the frame at `begin` starts at: a search width before the
    root's end (before `begin` with no root yet), moved by the drift, not before the range, and
    past the remembered bad sector when that lies between it and the frame. -/
def blockSector (s : Session σ) (begin : Int64) : Sector :=
  let anchor := if s.cache.root.isEmpty then begin else s.cache.root.endPos
  let anchor := anchor - s.tracker.width + s.tracker.drift
  let sector := max (Sector.ofInt (anchor.toInt / frameWords)) s.firstSector
  let target := Sector.ofInt (begin / Int64.ofNat frameWords).toInt
  match s.badSector with
  | some bad => if sector ≤ bad ∧ bad < target then bad + 1 else sector
  | none => sector

/-- Reads the next batch for the frame at `begin` and stores it as a raw block. -/
def readBlock (begin : Int64) : SessionM σ (Except RipError (Option (Handle RawBlock))) := do
  let s ← get
  let drift := s.tracker.drift
  let sector := s.blockSector begin
  if s.lastSector < sector then return .ok none
  let count := min s.readahead (s.lastSector - sector + 1).toCount
  -- the batch's buffer takes `count * sectorBytes` bytes, a 64-bit product: its allocation
  -- panics past the signed range, and a product that wraps leaves room for fewer sectors
  let bufBytes := count * sectorBytes % Nat.pow 2 64
  if Nat.pow 2 63 ≤ bufBytes then return .error .panic
  match ← readBatch sector (min count (bufBytes / sectorBytes)) drift 0 false ByteArray.empty with
  | .error e => pure (.error e)
  | .ok bytes =>
    let read := bytes.size / sectorBytes
    if read = 0 then return .ok none
    let blockBegin := sector.toInt64 * Int64.ofNat frameWords - drift
    report blockBegin .read
    let block := RawBlock.ofSignal (Signal.ofBytes bytes) blockBegin (sector + Int32.ofNat read - 1)
    let s ← get
    let (cache, h) := s.cache.insertBlock block
    set { s with cache }
    pure (.ok (some h))

/-- The runs that verify block `new` (stored under `h`) against the other stored blocks within
    `width`, sorted by position, and the offsets to count: one zero per in-place run, then the
    displaced runs' offsets. -/
def runsFor (c : FragmentCache) (h : Handle RawBlock) (new : RawBlock) (width : Int64) :
    List Run × List Int64 :=
  let olds := (c.blockList.filter fun p =>
      p.1 != h && new.begin < p.2.endPos + width && p.2.begin - width < new.endPos).map (·.2)
  let inPlace := olds.flatMap fun old => (findRuns new old 0 []).toList.map fun r => (r.start, r.stop)
  let covered := mergeRanges inPlace
  let shifted := olds.flatMap fun old => (findRuns new old width covered).toList
  let runs := covered.map (fun r => (⟨r.1, r.2, 0⟩ : Run)) ++ shifted
  let sorted := runs.mergeSort fun r q => r.start < q.start || (r.start == q.start && r.stop ≤ q.stop)
  (sorted, inPlace.map (fun _ => 0) ++ shifted.map (·.offset))

/-- Cuts verified fragments out of the block under `h` and counts their offsets. -/
def verifyBlock (h : Handle RawBlock) : SessionM σ Unit := do
  let s ← get
  match s.cache.block? h with
  | none => pure ()
  | some new =>
    let (runs, offsets) := runsFor s.cache h new s.tracker.width
    let cache := runs.foldl (fun c r => (c.insertFragment (Fragment.ofBlock new h r.start r.stop r.offset)).1)
      s.cache
    set { s with cache }
    for v in offsets do
      record .raw v

end Session

end VerifiedRip
