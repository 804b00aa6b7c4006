import VerifiedRip.Drive.Basic
/-!
# The seeded jitter generator

The generator a simulated drive takes its jitter draws from when it is opened with a seed: the
ChaCha stream cipher with 12 rounds, keyed by eight 32-bit words that a PCG32 generator derives
from a 64-bit seed. Draw `n` takes keystream words `2 (n % 8)` and `2 (n % 8) + 1` of block
`n / 8`, low word first, and turns the top 53 bits of that 64-bit value into a uniform value in
`[0, 1)`. The drive itself takes any stream of draws (`UnitStream`), and nothing proved about it
depends on which.
-/

namespace VerifiedRip

namespace Jitter

/-- Rotation of a 32-bit word to the left. -/
def rotl (x : UInt32) (n : UInt32) : UInt32 := (x <<< n) ||| (x >>> (32 - n))

/-- The ChaCha quarter round on words `a`, `b`, `c`, `d` of the state. -/
def quarterRound (s : Array UInt32) (a b c d : Nat) : Array UInt32 :=
  let xa := s.getD a 0 + s.getD b 0
  let xd := rotl (s.getD d 0 ^^^ xa) 16
  let xc := s.getD c 0 + xd
  let xb := rotl (s.getD b 0 ^^^ xc) 12
  let xa := xa + xb
  let xd := rotl (xd ^^^ xa) 8
  let xc := xc + xd
  let xb := rotl (xb ^^^ xc) 7
  ((s.set! a xa).set! b xb |>.set! c xc).set! d xd

/-- A column round followed by a diagonal round. -/
def doubleRound (s : Array UInt32) : Array UInt32 :=
  let s := quarterRound s 0 4 8 12
  let s := quarterRound s 1 5 9 13
  let s := quarterRound s 2 6 10 14
  let s := quarterRound s 3 7 11 15
  let s := quarterRound s 0 5 10 15
  let s := quarterRound s 1 6 11 12
  let s := quarterRound s 2 7 8 13
  quarterRound s 3 4 9 14

/-- The words "expand 32-byte k". -/
def sigma : Array UInt32 := #[0x61707865, 0x3320646e, 0x79622d32, 0x6b206574]

/-- The keystream block of a 16-word input state after `rounds` rounds (an even number). -/
def blockOf (rounds : Nat) (input : Array UInt32) : Array UInt32 :=
  let w := Nat.repeat doubleRound (rounds / 2) input
  w.zipWith (· + ·) input

/-- The input state for `key` (eight words), a 64-bit block counter and a 64-bit stream. -/
def inputState (key : Array UInt32) (counter stream : UInt64) : Array UInt32 :=
  sigma ++ key ++ #[counter.toUInt32, (counter >>> 32).toUInt32, stream.toUInt32, (stream >>> 32).toUInt32]

/-- One PCG32 step: the advanced state and its output word. -/
def pcg32 (state : UInt64) : UInt64 × UInt32 :=
  let s := state * 6364136223846793005 + 11634580027462260723
  let xorshifted := (((s >>> 18) ^^^ s) >>> 27).toUInt32
  let rot := (s >>> 59).toUInt32
  (s, (xorshifted >>> rot) ||| (xorshifted <<< (32 - rot)))

/-- Eight key words from a 64-bit seed. -/
def keyOfSeed (seed : UInt64) : Array UInt32 :=
  ((List.range 8).foldl (fun (acc : UInt64 × Array UInt32) _ =>
    let (s, w) := pcg32 acc.1
    (s, acc.2.push w)) (seed, #[])).2

/-- Draw `n` of the generator keyed by `key`. -/
def draw (key : Array UInt32) (n : Nat) : Float :=
  let block := blockOf 12 (inputState key (UInt64.ofNat (n / 8)) 0)
  let lo := block.getD (2 * (n % 8)) 0
  let hi := block.getD (2 * (n % 8) + 1) 0
  ((lo.toUInt64 ||| (hi.toUInt64 <<< 32)) >>> 11).toFloat / 9007199254740992.0

/-- The draws of the generator seeded by `seed`. -/
def stream (seed : UInt64) : UnitStream := { draw := draw (keyOfSeed seed) }

end Jitter

end VerifiedRip
