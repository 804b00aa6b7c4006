import VerifiedRip.Block.Raw
import VerifiedRip.Arena
/-!
# Verified fragments

A verified fragment is a stretch of a raw block that agreed with another read. It remembers
the block it was cut from and the offset at which the agreement was found (zero for in-place
agreement).
-/

namespace VerifiedRip

/-- Samples that two reads agreed on, placed at `begin`. -/
structure Fragment where
  samples : Signal
  begin : Int64
  lastSector : Sector
  /-- The raw block the samples were cut from. -/
  source : Option (Handle RawBlock)
  /-- Offset of the agreeing read, relative to this one. -/
  offset : Int64

namespace Fragment

/-- The samples `[start, stop)` of block `b` (stored under `h`), as a fragment. -/
def ofBlock (b : RawBlock) (h : Handle RawBlock) (start stop : Nat) (offset : Int64) :
    Fragment where
  samples := b.samples.extract start stop
  begin := b.begin + Int64.ofNat start
  lastSector := b.lastSector
  source := some h
  offset := offset

/-- Number of samples. -/
def size (f : Fragment) : Nat := f.samples.size

/-- One past the position of the last sample. -/
def endPos (f : Fragment) : Int64 := f.begin + Int64.ofNat f.size

/-- Whether the fragment holds a sample at `pos`. -/
def contains (f : Fragment) (pos : Int64) : Bool := f.begin ≤ pos && pos < f.endPos

/-- The fragment moved back by `av` samples. -/
def shift (f : Fragment) (av : Int64) : Fragment := { f with begin := f.begin - av }

end Fragment

end VerifiedRip
