/-!
# Audio signals, frame geometry and sample positions

A signal is an array of signed 16-bit samples. A raw CD audio sector holds `sectorBytes`
bytes, that is `frameWords` samples stored little-endian. This module fixes that geometry and
converts between samples and their bytes.

Positions on the disc, displacements between reads, search widths and the sums kept about
offsets are signed 64-bit words (`Int64`). Their arithmetic wraps around at the ends of that
range, as machine words do: one past the greatest position is the least. The length of a
signal is a natural number and becomes a word by `Int64.ofNat`. A word used to index a signal
is read as an unsigned 64-bit word (`Int64.toIndex`), so a negative word indexes far past the
end of any signal.
-/

namespace VerifiedRip

/-- A run of 16-bit audio samples. -/
abbrev Signal := Array Int16

/-- Bytes in one raw CD audio sector. -/
def sectorBytes : Nat := 2352

/-- Samples in one frame: a sector holds this many 16-bit samples. -/
def frameWords : Nat := 1176

/-- The low byte of a sample's little-endian encoding. -/
def Int16.lowByte (s : Int16) : UInt8 := s.toUInt16.toUInt8

/-- The high byte of a sample's little-endian encoding. -/
def Int16.highByte (s : Int16) : UInt8 := (s.toUInt16 >>> 8).toUInt8

/-- The sample whose little-endian encoding is `lo` then `hi`. -/
def Int16.ofBytes (lo hi : UInt8) : Int16 :=
  (lo.toUInt16 ||| (hi.toUInt16 <<< 8)).toInt16

namespace Signal

/-- `n` samples of silence. -/
def zeros (n : Nat) : Signal := Array.replicate n 0

/-- The little-endian bytes of a signal, two per sample. -/
def toBytes (v : Signal) : ByteArray :=
  v.foldl (fun acc s => (acc.push (Int16.lowByte s)).push (Int16.highByte s))
    (ByteArray.emptyWithCapacity (2 * v.size))

/-- The samples encoded by a byte string, two bytes each; a trailing odd byte is ignored. -/
def ofBytes (b : ByteArray) : Signal :=
  (Array.range (b.size / 2)).map fun i => Int16.ofBytes (b[2 * i]?.getD 0) (b[2 * i + 1]?.getD 0)

/-- Number of samples equal to zero. -/
def zeroCount (v : Signal) : Nat := v.foldl (fun n s => if s = 0 then n + 1 else n) 0

end Signal

/-! ### Sample positions -/

/-- The word read as an unsigned index: itself when it is not negative, `2⁶⁴` more otherwise. -/
def Int64.toIndex (x : Int64) : Nat := x.toUInt64.toNat

/-- The size of a word, wrapping: `-x` for a negative word, so the least word is its own size. -/
def Int64.magnitude (x : Int64) : Int64 := if x < 0 then -x else x

/-- A word that is not negative indexes its own value. -/
theorem Int64.toIndex_of_nonneg {x : Int64} (h : 0 ≤ x) : Int64.toIndex x = x.toInt.toNat := by
  unfold Int64.toIndex
  rw [Int64.toNat_toUInt64_of_le h]
  rfl

end VerifiedRip
