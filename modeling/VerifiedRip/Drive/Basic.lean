import VerifiedRip.Disc.Basic
import VerifiedRip.Error
import VerifiedRip.Drive.TestFlags
import VerifiedRip.Audio.Signal
/-!
# The drive

A drive wraps a sector source with what reading needs around it: the table of contents read
at opening and the audio range derived from it, the per-read sector cap, test flags, whether
failed reads are retried, the stream of jitter draws, and two text logs (errors and messages),
each kept only when its destination is `MessageDest.log`. The generator behind the jitter
draws is a parameter of the drive, given when it is opened.

What a drive reads from is a sector source (`SectorSource`), anything that delivers raw audio
sectors. Its state is explicit: every operation returns the new state with its outcome. A read
of `n` sectors at `begin` answers with the bytes of at most `n` whole sectors, or with an
error.

Opening reads the table of contents (a disc without tracks is refused), then checks that audio
can be read by reading one sector in the middle of each audio track until one succeeds.
-/

namespace VerifiedRip

/-- Devices that deliver raw CD audio sectors. -/
class SectorSource (σ : Type) where
  /-- Reads up to `n` sectors from `begin`: the bytes of the sectors delivered. -/
  readAudio : σ → (begin : Sector) → (n : Nat) → Except RipError ByteArray × σ
  /-- Sets the reading speed. -/
  setSpeed : σ → Int32 → Except RipError Unit × σ
  /-- Switches digital audio extraction on or off. -/
  enableCdda : σ → Bool → Except RipError Unit × σ
  /-- Reads the table of contents. -/
  readToc : σ → Except RipError Toc × σ
  /-- Whether failed reads may be retried. -/
  supportsRetry : σ → Bool

/-- Where notes of a drive go. -/
inductive MessageDest where
  /-- Dropped. -/
  | forget
  /-- Printed by the host and not kept. -/
  | print
  /-- Kept in the drive's log until drained. -/
  | log
deriving DecidableEq, Repr

/-- The draws in `[0, 1)` that simulated jitter takes: the `n`-th draw of the generator, and how
    many draws were taken so far. -/
structure UnitStream where
  draw : Nat → Float
  taken : Nat := 0

/-- The next draw and the stream after it. -/
def UnitStream.next (g : UnitStream) : Float × UnitStream :=
  (g.draw g.taken, { g with taken := g.taken + 1 })

/-- Default cap on sectors per read. -/
def defaultNSectors : Nat := 8

/-- A drive reading from a source of type `σ`. -/
structure Drive (σ : Type) where
  source : σ
  opened : Bool := false
  /-- Most sectors one read asks for. -/
  nsectors : Nat := defaultNSectors
  testFlags : TestFlags := ⟨0⟩
  /-- Whether failed reads are retried. -/
  errorRetry : Bool := true
  toc : Toc
  /-- First sector of the first audio track. -/
  firstSector : Sector := 0
  /-- Last sector of the audio tracks (zero if none ends later). -/
  lastSector : Sector := 0
  errorDest : MessageDest
  messageDest : MessageDest
  errors : String := ""
  messages : String := ""
  jitter : UnitStream

namespace Drive

variable {σ : Type}

/-- Notes an error, kept if errors are logged. -/
def noteError (d : Drive σ) (text : String) : Drive σ :=
  if d.errorDest = .log then { d with errors := d.errors ++ text ++ "\n" } else d

/-- Notes a message, kept if messages are logged. -/
def noteMessage (d : Drive σ) (text : String) : Drive σ :=
  if d.messageDest = .log then { d with messages := d.messages ++ text ++ "\n" } else d

/-- Takes the error log, if it holds anything. -/
def takeErrors (d : Drive σ) : Option String × Drive σ :=
  if d.errors.isEmpty then (none, d) else (some d.errors, { d with errors := "" })

/-- Takes the message log, if it holds anything. -/
def takeMessages (d : Drive σ) : Option String × Drive σ :=
  if d.messages.isEmpty then (none, d) else (some d.messages, { d with messages := "" })

/-- Number of tracks in the table, as a byte. -/
def trackCount (d : Drive σ) : UInt8 := UInt8.ofNat d.toc.tracks.length

/-- First sector of a track. -/
def trackFirst (d : Drive σ) (t : UInt8) : Except RipError Sector :=
  match d.toc.indexOf? t with
  | some i => .ok ((d.toc.tracks[i]?.map (·.start)).getD 0)
  | none => .error (.invalidTrack t)

/-- Last sector of a track: one before the next track, or before the lead-out (wrapping). -/
def trackLast (d : Drive σ) (t : UInt8) : Except RipError Sector :=
  match d.toc.indexOf? t with
  | some i => .ok (((d.toc.tracks[i + 1]?.map (·.start)).getD d.toc.leadout) - 1)
  | none => .error (.invalidTrack t)

/-- Whether a track holds audio; false for a track the table does not list. -/
def trackIsAudio (d : Drive σ) (t : UInt8) : Bool :=
  match d.toc.indexOf? t with
  | some i => (d.toc.tracks[i]?.map (·.audio)).getD false
  | none => false

/-- The track holding a sector: the last listed track starting at or before it, for sectors
    before the lead-out. -/
def trackOfSector (d : Drive σ) (lsn : Sector) : Option UInt8 :=
  if lsn < 0 ∨ d.toc.leadout ≤ lsn then none
  else (d.toc.tracks.reverse.find? (·.start ≤ lsn)).map (·.track)

/-- The audio range: from the start of the first audio track to the latest last sector of an
    audio track, never below zero (latest as signed words). -/
def scanAudioRange (d : Drive σ) : Drive σ :=
  let audio := d.toc.tracks.filter (·.audio)
  let first := (audio.head?.map (·.start)).getD 0
  let last := audio.foldl (fun (acc : Sector) e =>
    match d.trackLast e.track with
    | .ok v => max acc v
    | .error _ => acc) 0
  { d with firstSector := first, lastSector := last }

/-- Sets the cap on sectors per read (at least one). -/
def setNSectors (d : Drive σ) (n : Nat) : Drive σ := { d with nsectors := max n 1 }

/-- Chooses where errors and messages go. -/
def setVerbose (d : Drive σ) (errors messages : MessageDest) : Drive σ :=
  { d with errorDest := errors, messageDest := messages }

variable [SectorSource σ]

/-- Switches extraction on or off, noting a refusal. -/
def switchCdda (d : Drive σ) (on : Bool) : Drive σ :=
  let (r, source) := SectorSource.enableCdda d.source on
  let d := { d with source }
  match r with
  | .ok () => d
  | .error e =>
    let msg := e.message
    d.noteError ((if on then "Unable to enter CDDA mode: " else "Unable to leave CDDA mode: ") ++ msg)

/-- Tries one sector in the middle of each audio track, in table order, until one reads. The
    middle is computed in sector words: the span halves toward zero, and both steps wrap. -/
def probeTracks (d : Drive σ) : List TocEntry → Bool × Drive σ
  | [] => (false, d)
  | e :: rest =>
    let t := e.track.toNat
    let first := (d.trackFirst e.track).toOption.getD 0
    let last := (d.trackLast e.track).toOption.getD 0
    let sector := first + (last - first) / 2
    let (r, source) := SectorSource.readAudio d.source sector 1
    let d := { d with source }
    match r with
    | .ok bytes =>
      if sectorBytes ≤ bytes.size then
        (true, d.noteMessage s!"Verified CDDA read in track {t} at sector {sector.toInt}")
      else probeTracks (d.noteError s!"Empty read in track {t} at sector {sector.toInt}") rest
    | .error e =>
      let msg := e.message
      probeTracks (d.noteError s!"Read of track {t} at sector {sector.toInt} failed: {msg}") rest

/-- Checks at opening that audio can be read. -/
def verifyReads (d : Drive σ) : Except RipError Unit × Drive σ :=
  let d := d.switchCdda true
  let audio := d.toc.tracks.filter (·.audio)
  let (ok, d) := d.probeTracks audio
  if ok then (.ok (), d)
  else
    let d := d.switchCdda false
    if audio.isEmpty then (.error .noAudioTracks, d.noteError "No audio tracks found on disc")
    else (.error .noDataRead, d.noteError "Unable to read any data from the drive")

/-- Opens a drive on `source`, logging to `dest`, with the jitter draws of `jitter`. -/
def open? (source : σ) (dest : MessageDest) (jitter : UnitStream) : Except RipError (Drive σ) :=
  let (toc, source) := SectorSource.readToc source
  match toc with
  | .error e => .error (.tocUnreadable e.message)
  | .ok toc =>
    if toc.tracks.isEmpty then .error (.tocUnreadable "disc reports no tracks")
    else
      let d : Drive σ := { source, toc, errorDest := dest, messageDest := dest, jitter }
      match d.scanAudioRange.verifyReads with
      | (.ok (), d) => .ok { d with opened := true }
      | (.error e, _) => .error e

/-- Closes the drive, switching extraction off if it was open. -/
def close (d : Drive σ) : Drive σ :=
  let d := if d.opened then d.switchCdda false else d
  { d with opened := false }

/-- Sets the reading speed. -/
def setSpeed (d : Drive σ) (speed : Int32) : Except RipError Unit × Drive σ :=
  let (r, source) := SectorSource.setSpeed d.source speed
  (r, { d with source })

end Drive

end VerifiedRip
