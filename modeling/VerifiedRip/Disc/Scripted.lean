import VerifiedRip.Disc.Memory
/-!
# A disc with scripted misreads

A `MemoryDisc` behind a script of misbehaviour keyed by the number of the read. Read number
`c` (counting from zero) is displaced by `shifts[c % shifts.length]` samples, and a glitch
with period `p` and phase `q` acts on the reads with `c % p = q`: a `skip` glitch moves every
sample from its position on by its amount (dropping samples when positive, repeating them when
negative), and an `invert` glitch inverts the bits of its span. Errors and transfer counts are
the disc's own; only the delivered samples are replaced. Sample positions, displacements and
glitch spans are 64-bit words, and their sums wrap around.
-/

namespace VerifiedRip

/-- What a glitch does to the samples of a read. -/
inductive GlitchKind where
  /-- From `start` on, every sample is taken `amount` positions further along the disc. -/
  | skip
  /-- The samples in `[start, start + amount)` have their bits inverted. -/
  | invert
deriving DecidableEq, Repr

/-- A misread that recurs on reads `c` with `c % period = phase`. -/
structure Glitch where
  period : Nat
  phase : Int
  kind : GlitchKind
  start : Int64
  amount : Int64
deriving DecidableEq, Repr

/-- Whether the glitch acts on read number `c`. -/
def Glitch.active (g : Glitch) (c : Nat) : Bool := 0 < g.period && ((c % g.period : Nat) : Int) == g.phase

/-- A memory disc whose reads are displaced and glitched by a script. -/
structure ScriptedDisc where
  disc : MemoryDisc
  shifts : List Int64 := []
  glitches : List Glitch := []

namespace ScriptedDisc

/-- The displacement of read number `c`. -/
def shiftFor (d : ScriptedDisc) (c : Nat) : Int64 :=
  if d.shifts.isEmpty then 0 else d.shifts.getD (c % d.shifts.length) 0

/-- Sample `i` of a read of the disc from sample `origin`, under the glitches active on it. -/
def sampleOf (disc : MemoryDisc) (active : List Glitch) (origin : Int64) (i : Nat) : Int16 :=
  let pos := Int64.ofNat i
  let moved := active.foldl
    (fun (acc : Int64) g => if g.kind = .skip ∧ g.start ≤ pos then acc + g.amount else acc) 0
  let s := disc.sampleAt (origin + pos + moved).toInt
  if active.any fun g => g.kind = .invert ∧ g.start ≤ pos ∧ pos < g.start + g.amount then ~~~s
  else s

/-- Serves a read through the disc, then replaces the delivered samples if the read is
    displaced or glitched. -/
def read (d : ScriptedDisc) (begin : Sector) (n : Nat) : Except RipError ByteArray × ScriptedDisc :=
  let c := d.disc.readCalls
  let shift := d.shiftFor c
  let active := d.glitches.filter (·.active c)
  let (r, disc) := d.disc.read begin n
  let d := { d with disc }
  match r with
  | .ok bytes =>
    if shift ≠ 0 ∨ !active.isEmpty then
      let count := bytes.size / sectorBytes * frameWords
      let origin := begin.toInt64 * Int64.ofNat frameWords + shift
      (.ok (Signal.toBytes ((Array.range count).map (sampleOf disc active origin))), d)
    else (.ok bytes, d)
  | .error e => (.error e, d)

instance : SectorSource ScriptedDisc where
  readAudio := read
  setSpeed d v := (.ok (), { d with disc := { d.disc with speed := some v } })
  enableCdda d b := (.ok (), { d with disc := { d.disc with cddaEnabled := b } })
  readToc d := (SectorSource.readToc d.disc |>.1, d)
  supportsRetry d := d.disc.retrySupported

end ScriptedDisc

end VerifiedRip
