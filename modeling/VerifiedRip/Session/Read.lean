import VerifiedRip.Session.Verify
import VerifiedRip.Session.Merge
/-!
# Reading frames

`Session.readLimited` delivers the frame under the cursor and moves the cursor one frame on.
Without verification (neither `verify` nor `overlap` in the mode) the frame is read directly,
silence standing in for an unreadable sector when skipping is on. With verification, the frame
is handed out only once the root covers it: the session alternates stage two (merging
fragments into the root) and stage one (reading and verifying another block) until it does.
Reads that do not grow the root count as retries; once `maxRetries` retries in a row have
passed, the frame is skipped: its verified part is kept and the rest filled with silence, which
the root remembers as its skipped span.
-/

namespace VerifiedRip

namespace Session

variable {σ : Type} [SectorSource σ]

/-- Hands out the frame at `begin` if the root covers it. -/
def copyFrame (begin : Int64) : SessionM σ Bool := do
  let s ← get
  match s.cache.root.frameAt? begin with
  | none => return false
  | some f =>
    set { s with frame := f,
                 cache := s.cache.modifyRoot fun r =>
                   { r with returnedLimit := max r.returnedLimit (begin + Int64.ofNat frameWords) } }
    return true

/-- Gives up verifying the frame at `begin`: with skipping on, the root keeps what it verified
    of the frame and silence fills the rest; with skipping off, the read fails. -/
def skipFrame (begin : Int64) (retries : Int32) : SessionM σ (Except RipError Unit) := do
  let s ← get
  let sector := Sector.ofInt (begin / Int64.ofNat frameWords).toInt
  if !s.enableSkip then return .error (.sectorSkipped sector retries)
  report begin .skip
  editRoot (·.fillSkipped begin sector)
  let _ ← copyFrame begin
  return .ok ()

/-- The verification loop for the frame at `begin`: `retries` fruitless rounds so far, the root
    having reached `lastEnd` at most. A round that takes the root's end past `lastEnd` counts
    the retries afresh; the loop still ends, since `lastEnd` only rises, as a 64-bit word, and
    between two rises the retries run out. -/
def verifyRounds (begin : Int64) (maxRetries : Int32) (retries : Int) (lastEnd : Int64) :
    SessionM σ (Except RipError Unit) := do
  if ← copyFrame begin then return .ok ()
  -- past half the budget any agreed position may seed the root; the doubled count is a 32-bit
  -- word, which wraps once the retry limit passes `2 ^ 30`
  let relaxed := maxRetries ≤ Int32.ofInt retries * 2
  mergeFragments begin relaxed
  if ← copyFrame begin then return .ok ()
  match ← readBlock begin with
  | .error e => return .error e
  | .ok (some h) =>
    verifyBlock h
    mergeFragments begin relaxed
  | .ok none => pure ()
  let s ← get
  if hgrew : lastEnd < s.cache.root.endPos then
    if maxRetries.toInt ≤ 0 then
      if ← copyFrame begin then return .ok ()
      return ← skipFrame begin maxRetries
    verifyRounds begin maxRetries 0 s.cache.root.endPos
  else
    if maxRetries.toInt ≤ retries + 1 then
      if ← copyFrame begin then return .ok ()
      return ← skipFrame begin maxRetries
    verifyRounds begin maxRetries (retries + 1) lastEnd
termination_by ((Int64.maxValue.toInt - lastEnd.toInt).toNat, (maxRetries.toInt - retries).toNat)
decreasing_by
  · -- the root's end rose past `lastEnd`, and no word lies above the greatest
    have hlt := Int64.lt_iff_toInt_lt.1 hgrew
    have hmax := Int64.toInt_le s.cache.root.endPos
    exact Prod.Lex.left _ _ (by omega)
  · exact Prod.Lex.right _ (by omega)

/-- Verifies the frame at `begin` and hands it out. -/
def readVerified (begin : Int64) (maxRetries : Int32) : SessionM σ (Except RipError Unit) := do
  modify fun s => { s with cache := s.cache.trim begin (begin + Int64.ofNat frameWords) }
  let s ← get
  verifyRounds begin maxRetries 0 s.cache.root.endPos

/-- Hands out silence for the frame under the cursor. -/
def fillSilence : SessionM σ (Except RipError Unit) := do
  report (← get).cursor .skip
  modify fun s => { s with frame := Signal.zeros frameWords }
  return .ok ()

/-- Reads the frame of `sector` directly, without verification. -/
def readDirect (sector : Sector) : SessionM σ (Except RipError Unit) := do
  let s ← get
  report s.cursor .read
  let s ← get
  let (r, drive) := s.drive.read sector 1 1
  set { s with drive }
  match r with
  | .ok bytes =>
    if bytes.size / sectorBytes = 1 then
      modify fun s => { s with frame := Signal.ofBytes bytes }
      return .ok ()
    else if s.enableSkip then fillSilence
    else return .error .noDataRead
  | .error e =>
    if s.enableSkip ∧ e ≠ .deviceNotOpen then fillSilence else return .error e

/-- Reads the frame under the cursor, allowing `maxRetries` fruitless rounds, and moves the
    cursor on. The reports of the read are collected afresh. -/
def readLimited (maxRetries : Int32) : SessionM σ (Except RipError Signal) := do
  modify fun s => { s with reports := #[] }
  let s ← get
  let sector := s.cursorSector
  if s.lastSector < sector then return .error (.unaddressable sector)
  let r ← if s.mode.verified then readVerified s.cursor maxRetries else readDirect sector
  match r with
  | .error e => return .error e
  | .ok () =>
    modify fun s => { s with cursor := s.cursor + Int64.ofNat frameWords }
    return .ok (← get).frame

/-- Reads the frame under the cursor with the session's retry limit. -/
def read : SessionM σ (Except RipError Signal) := do
  readLimited (← get).maxRetries

/-- Reads up to `max` frames while the cursor lies in the range, with the reports of each; a
    panic ends the reading. -/
def readAll (max : Nat) : SessionM σ (List (Except RipError Signal × Array Report)) := do
  match max with
  | 0 => return []
  | n + 1 =>
    let s ← get
    if s.lastSector < s.cursorSector then return []
    let r ← read
    let reps := (← get).reports
    -- a panic ends the iteration
    if r matches .error .panic then return [(r, reps)]
    return (r, reps) :: (← readAll n)

end Session

end VerifiedRip
