/-!
# Sectors and the table of contents

A logical sector number is a signed 32-bit word. Arithmetic on sector numbers wraps around at
the ends of that range: the sector before `-2³¹` is `2³¹ - 1`. A wide integer becomes a
sector by keeping its low 32 bits (`Sector.ofInt`). A sector difference used as a count of
sectors is read as a 64-bit machine word (`Sector.toCount`), so a negative difference is a
count beyond `2⁶³`.

A disc's table of contents lists its tracks (number, first sector, whether it holds audio) and
the lead-out, the first sector past the last track. Track numbers are bytes; the lead-out has
the reserved number `leadoutTrack`.
-/

namespace VerifiedRip

/-- A logical sector number. -/
abbrev Sector := Int32

namespace Sector

/-- The sector with the low 32 bits of `n`. -/
def ofInt (n : Int) : Sector := Int32.ofInt n

/-- The sector number read as a 64-bit count: itself when it is not negative, `2⁶⁴` more
    otherwise. -/
def toCount (s : Sector) : Nat := s.toInt64.toUInt64.toNat

end Sector

/-- One track of a table of contents. -/
structure TocEntry where
  track : UInt8
  start : Sector
  audio : Bool
deriving DecidableEq, Repr

/-- The number that marks the lead-out. -/
def leadoutTrack : UInt8 := 0xAA

/-- A disc's tracks, in table order, and its lead-out sector. -/
structure Toc where
  tracks : List TocEntry
  leadout : Sector
deriving DecidableEq, Repr

namespace Toc

/-- The lead-out as a table entry: never audio. -/
def leadoutEntry (t : Toc) : TocEntry := ⟨leadoutTrack, t.leadout, false⟩

/-- Position in the table of the first entry numbered `track`. -/
def indexOf? (t : Toc) (track : UInt8) : Option Nat := t.tracks.findIdx? (·.track == track)

end Toc

end VerifiedRip
