import VerifiedRip.Disc.Basic
/-!
# Read errors

Why a drive or a session could not deliver data. Each cause carries what its message names
(a sector, a track, a transport fault); `RipError.message` gives the text and `RipError.code`
the number a caller can test, one per cause.
-/

namespace VerifiedRip

/-- A fault reported by the transport that carries commands to the drive. -/
inductive TransportFault where
  | writeFailed
  | readFailed
  | underrun
  | illegalRequest
  | medium
  | busy
  | notReady
  | unspecified
deriving DecidableEq, Repr

/-- The text of a transport fault. -/
def TransportFault.message : TransportFault → String
  | .writeFailed => "Error writing packet command to device"
  | .readFailed => "Error reading command from device"
  | .underrun => "SCSI packet data underrun (too little data)"
  | .illegalRequest => "Illegal SCSI request (rejected by target)"
  | .medium => "Medium error reading data"
  | .busy => "Device busy"
  | .notReady => "Device not ready"
  | .unspecified => "Unspecified error"

/-- Why reading failed. Sectors are logical sector numbers. -/
inductive RipError where
  /-- The table of contents could not be read; the detail says why. -/
  | tocUnreadable (detail : String)
  /-- The drive delivered no data at all. -/
  | noDataRead
  /-- Retries ran out on a batch read at this sector. -/
  | unrecoverable (sector : Sector)
  /-- A read failed and the drive cannot retry. -/
  | noRetry (sector : Sector)
  /-- The sector was given up after this many retries. -/
  | sectorSkipped (sector : Sector) (retries : Int32)
  /-- The sector lies past the end of the reading range. -/
  | unaddressable (sector : Sector)
  /-- The drive is closed. -/
  | deviceNotOpen
  /-- The disc has no track of this number. -/
  | invalidTrack (track : UInt8)
  /-- The disc holds no audio track. -/
  | noAudioTracks
  /-- The transport failed. -/
  | transport (fault : TransportFault)
  /-- The library panicked: a block read asked for a buffer of `2 ^ 63` bytes or more. This is no
      error the library returns: the session ends with it. -/
  | panic
deriving DecidableEq, Repr

namespace RipError

/-- The text that explains the error. -/
def message : RipError → String
  | .tocUnreadable s => "Unable to read table of contents: " ++ s
  | .noDataRead => "Could not read any data from drive"
  | .unrecoverable l => s!"Unknown, unrecoverable error reading data at LSN {l.toInt}"
  | .noRetry l => s!"Read failed at LSN {l.toInt} and the drive does not support retries"
  | .sectorSkipped l r => s!"Sector skip at LSN {l.toInt} after {r.toInt} retries"
  | .unaddressable l => s!"Unaddressable sector: {l.toInt}"
  | .deviceNotOpen => "Device not open"
  | .invalidTrack t => let n := t.toNat; s!"Invalid track number: {n}"
  | .noAudioTracks => "No audio tracks on disc"
  | .transport f => "Transport error: " ++ f.message
  | .panic => "capacity overflow"

/-- The number that identifies the cause. -/
def code : RipError → Int
  | .tocUnreadable _ => -2
  | .noDataRead => -6
  | .unrecoverable _ => -7
  | .noRetry _ => -8
  | .sectorSkipped _ _ => -10
  | .unaddressable _ => -11
  | .deviceNotOpen => -15
  | .invalidTrack _ => -401
  | .noAudioTracks => -403
  | .transport _ => -500
  -- a panic has no code of its own
  | .panic => 0

/-- Only a given-up sector is the non-fatal "treat the sector as lost" signal. -/
def isSkip : RipError → Bool
  | .sectorSkipped _ _ => true
  | _ => false

end RipError

end VerifiedRip
