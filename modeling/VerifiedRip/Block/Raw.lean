import VerifiedRip.Match.ValueIndex
import VerifiedRip.Disc.Basic
import VerifiedRip.Audio.Signal
/-!
# Raw blocks

A raw block is the data of one drive read: consecutive samples placed at a sample position (a
64-bit word, so its end wraps past the greatest position),
with the last sector the read covered and a `ValueIndex` of its samples. The index is kept
with the samples it was built from (`index_eq`), so moving a block only changes its position.
-/

namespace VerifiedRip

/-- Samples of one read, placed at `begin`. -/
structure RawBlock where
  samples : Signal
  begin : Int64
  lastSector : Sector
  index : ValueIndex
  index_eq : index = ValueIndex.build samples

namespace RawBlock

/-- A raw block of `samples` at `begin`, its index built. -/
def ofSignal (samples : Signal) (begin : Int64) (lastSector : Sector) : RawBlock :=
  ⟨samples, begin, lastSector, ValueIndex.build samples, rfl⟩

/-- Number of samples. -/
def size (b : RawBlock) : Nat := b.samples.size

/-- One past the position of the last sample. -/
def endPos (b : RawBlock) : Int64 := b.begin + Int64.ofNat b.size

/-- The block moved back by `av` samples. -/
def shift (b : RawBlock) (av : Int64) : RawBlock := { b with begin := b.begin - av }

end RawBlock

end VerifiedRip
