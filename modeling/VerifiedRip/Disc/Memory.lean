import VerifiedRip.Drive.Basic
/-!
# A disc in memory

A simulated audio disc: its bytes, a table of contents, and faults that can be injected. Reads
that touch a bad sector fail with a medium error, a number of upcoming reads can be made to fail
whatever they ask, transfers can be capped to fewer sectors than asked, retries can be refused,
and the table of contents can be made unreadable. The disc counts every read it serves.

A synthetic disc holds a deterministic, noise-like signal: sample `i` is taken from a 64-bit
mixing function of `i + 1`, with every step wrapping modulo `2 ^ 64`. Neighbouring samples
almost never agree, so the signal exercises the matching machinery.
-/

namespace VerifiedRip

namespace Synth

/-- The synthetic sample at index `i`: bits 16 to 31 of a mixed copy of `i + 1`. -/
def sample (i : UInt64) : Int16 :=
  let x := (i + 1) * 0x9E3779B97F4A7C15
  let x := x ^^^ (x >>> 29)
  let x := x * 0xBF58476D1CE4E5B9
  let x := x ^^^ (x >>> 32)
  (x >>> 16).toUInt16.toInt16

/-- The synthetic samples at indices `lo, lo + 1, …, hi - 1`. -/
def range (lo hi : Nat) : Signal :=
  (Array.range (hi - lo)).map fun k => sample (lo + k).toUInt64

end Synth

/-- A simulated disc with fault injection. -/
structure MemoryDisc where
  /-- The disc's bytes, a whole number of sectors. -/
  data : ByteArray
  toc : Toc
  /-- Sectors whose reads fail. -/
  bad : List Sector := []
  /-- Upcoming reads that fail whatever they ask. -/
  pendingFailures : Nat := 0
  /-- Most sectors transferred per read. -/
  maxTransfer : Option Nat := none
  retrySupported : Bool := true
  tocError : Bool := false
  speed : Option Int32 := none
  cddaEnabled : Bool := false
  /-- Reads served so far, failed ones included. -/
  readCalls : Nat := 0

namespace MemoryDisc

/-- A one-track audio disc holding `samples`, padded with silence to whole sectors. -/
def ofSamples (samples : Signal) : MemoryDisc :=
  let bytes := Signal.toBytes samples
  let sectors := (bytes.size + sectorBytes - 1) / sectorBytes
  let data := bytes ++ ByteArray.mk (Array.replicate (sectors * sectorBytes - bytes.size) 0)
  { data, toc := ⟨[⟨1, 0, true⟩], Int32.ofNat sectors⟩ }

/-- A one-track audio disc of `sectors` sectors of synthetic signal. -/
def synthetic (sectors : Nat) : MemoryDisc := ofSamples (Synth.range 0 (sectors * frameWords))

/-- Number of sectors on the disc. -/
def sectors (d : MemoryDisc) : Nat := d.data.size / sectorBytes

/-- The true samples of `count` sectors from `begin`, cut at the end of the disc. -/
def samplesAt (d : MemoryDisc) (begin : Nat) (count : Nat) : Signal :=
  let start := begin * sectorBytes
  Signal.ofBytes (d.data.extract start (min (start + count * sectorBytes) d.data.size))

/-- The true sample at index `i` of the whole disc, or silence outside it. -/
def sampleAt (d : MemoryDisc) (i : Int) : Int16 :=
  if 0 ≤ i ∧ 2 * i + 1 < d.data.size then
    let k := 2 * i.toNat
    Int16.ofBytes (d.data[k]?.getD 0) (d.data[k + 1]?.getD 0)
  else 0

/-- Replaces the table of contents. -/
def withToc (d : MemoryDisc) (toc : Toc) : MemoryDisc := { d with toc }

/-- Silences the sectors `[begin, begin + count)`, cut at the end of the disc. Byte positions
    are 64-bit words: the start is `begin` (as a count) times the sector size, the end `count`
    sectors further, both wrapping. The silencing is refused when the start lies past the end. -/
def silence? (d : MemoryDisc) (begin : Sector) (count : Nat) : Option MemoryDisc :=
  let start : UInt64 := begin.toInt64.toUInt64 * UInt64.ofNat sectorBytes
  let stop := min (start + UInt64.ofNat count * UInt64.ofNat sectorBytes).toNat d.data.size
  let start := start.toNat
  if start ≤ stop then
    some { d with data := Nat.fold (stop - start) (fun k _ b => b.set! (start + k) 0) d.data }
  else none

/-- Makes every read that touches `lsn` fail. -/
def markBad (d : MemoryDisc) (lsn : Sector) : MemoryDisc := { d with bad := lsn :: d.bad }

/-- Makes the next `count` reads fail. -/
def failNext (d : MemoryDisc) (count : Nat) : MemoryDisc := { d with pendingFailures := count }

/-- Transfers at most `n` sectors per read (at least one). -/
def limitTransfer (d : MemoryDisc) (n : Nat) : MemoryDisc := { d with maxTransfer := some (max n 1) }

/-- Allows or refuses retries. -/
def setRetrySupported (d : MemoryDisc) (b : Bool) : MemoryDisc := { d with retrySupported := b }

/-- Makes the table of contents unreadable. -/
def failToc (d : MemoryDisc) : MemoryDisc := { d with tocError := true }

/-- Serves a read: a pending failure first, then a range check, then the bad sectors among
    those transferred. -/
def read (d : MemoryDisc) (begin : Sector) (n : Nat) : Except RipError ByteArray × MemoryDisc :=
  let d := { d with readCalls := d.readCalls + 1 }
  if 0 < d.pendingFailures then
    (.error (.transport .medium), { d with pendingFailures := d.pendingFailures - 1 })
  else if begin < 0 ∨ d.sectors < begin.toInt + n then (.error (.transport .illegalRequest), d)
  else
    let count : Nat := match d.maxTransfer with
      | some m => min n m
      | none => n
    if d.bad.any fun l => begin.toInt ≤ l.toInt ∧ l.toInt < begin.toInt + count then
      (.error (.transport .medium), d)
    else
      let start : Nat := begin.toInt.toNat * sectorBytes
      (.ok (d.data.extract start (start + count * sectorBytes)), d)

instance : SectorSource MemoryDisc where
  readAudio := read
  setSpeed d v := (.ok (), { d with speed := some v })
  enableCdda d b := (.ok (), { d with cddaEnabled := b })
  readToc d := (if d.tocError then .error (.transport .notReady) else .ok d.toc, d)
  supportsRetry d := d.retrySupported

end MemoryDisc

end VerifiedRip
