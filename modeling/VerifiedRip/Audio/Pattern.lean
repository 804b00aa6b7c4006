import VerifiedRip.Disc.Memory
/-!
# Test signals and their digests

Small builders for the signals that feed simulated discs and matching experiments: synthetic
ranges, constant fills, wrapping ramps, and edits of a base signal (patching single samples,
inverting the bits of a span, cutting a span out). Spans are clamped to the signal; a patch
outside it and a synthetic range that runs backwards are refused with a `PatternError`.

A signal is summed up by the 64-bit FNV-1a hash of its little-endian bytes, written as sixteen
lowercase hexadecimal digits, leading zeros kept, so that the empty signal reads
`cbf29ce484222325`.
-/

namespace VerifiedRip.Pattern

/-- Why a pattern cannot be built. -/
inductive PatternError where
  /-- A synthetic range must start at zero or later and must not run backwards. -/
  | badSynthRange
  /-- A patched position lies outside the signal. -/
  | patchOutOfRange
deriving DecidableEq, Repr

/-- The text that explains a refused pattern. -/
def PatternError.message : PatternError → String
  | .badSynthRange => "bad synth range"
  | .patchOutOfRange => "patch index out of range"

/-- The synthetic samples with indices in `[lo, hi)`. -/
def synth (lo hi : Int) : Except PatternError Signal :=
  if 0 ≤ lo ∧ lo ≤ hi then .ok (Synth.range lo.toNat hi.toNat) else .error .badSynthRange

/-- `count` copies of `value`. -/
def fill (value : Int16) (count : Nat) : Signal := Array.replicate count value

/-- Sample `i` is `start + i * step`, wrapped into 16 bits. -/
def ramp (start : Int) (count : Nat) (step : Int) : Signal :=
  (Array.range count).map fun (i : Nat) => Int16.ofInt (start + Int.ofNat i * step)

/-- Overwrites single samples, in order; every position must lie inside the signal. -/
def patch (base : Signal) : List (Int × Int16) → Except PatternError Signal
  | [] => .ok base
  | (i, x) :: rest =>
    if 0 ≤ i ∧ i < base.size then patch (base.set! i.toNat x) rest else .error .patchOutOfRange

/-- Clamps a position into `[0, n]`. -/
def clampTo (n : Nat) (i : Int) : Nat := (max 0 (min i n)).toNat

/-- Inverts every bit of the samples in `[lo, hi)`, both ends clamped to the signal. -/
def invert (base : Signal) (lo hi : Int) : Signal :=
  let a := clampTo base.size lo
  let b := clampTo base.size hi
  base.mapIdx fun k s => if a ≤ k ∧ k < b then ~~~s else s

/-- The samples in `[lo, hi)`, both ends clamped to the signal. -/
def slice (base : Signal) (lo hi : Int) : Signal :=
  base.extract (clampTo base.size lo) (clampTo base.size hi)

end VerifiedRip.Pattern

namespace VerifiedRip.Digest

/-- The FNV-1a starting value. -/
def offsetBasis : UInt64 := 0xcbf29ce484222325

/-- The FNV-1a multiplier. -/
def prime : UInt64 := 0x100000001b3

/-- FNV-1a over a byte string: each byte is mixed in by exclusive or, then multiplied. -/
def fnv1a (b : ByteArray) : UInt64 :=
  b.foldl (fun h x => (h ^^^ x.toUInt64) * prime) offsetBasis

/-- The digest of a signal, taken over its little-endian bytes. -/
def ofSignal (v : Signal) : UInt64 := fnv1a (Signal.toBytes v)

/-- Sixteen lowercase hexadecimal digits, most significant first. -/
def hex (x : UInt64) : String :=
  String.ofList ((List.range 16).reverse.map fun k => Nat.digitChar ((x >>> (4 * k).toUInt64).toNat % 16))

end VerifiedRip.Digest
