/-!
# Progress reports

While it reads, a session reports what it does at which sample position: raw reads,
verification, repairs of each kind, skipped frames, drift and width adjustments, read
failures and cache releases. A `Report` pairs a position with an `Event`.
-/

namespace VerifiedRip

/-- What happened at a reported position. -/
inductive Event where
  | read
  | verify
  | fixupEdge
  | fixupAtom
  | scratch
  | skip
  | drift
  | overlap
  | fixupDropped
  | fixupDuped
  | readError
  | cacheError
deriving DecidableEq, Repr

/-- The short name of an event. -/
def Event.name : Event → String
  | .read => "read"
  | .verify => "verify"
  | .fixupEdge => "fixup_edge"
  | .fixupAtom => "fixup_atom"
  | .scratch => "scratch"
  | .skip => "skip"
  | .drift => "drift"
  | .overlap => "overlap"
  | .fixupDropped => "fixup_dropped"
  | .fixupDuped => "fixup_duped"
  | .readError => "read_error"
  | .cacheError => "cache_error"

/-- An event at a sample position (for width adjustments, the new width). -/
structure Report where
  position : Int64
  event : Event
deriving DecidableEq, Repr

end VerifiedRip
