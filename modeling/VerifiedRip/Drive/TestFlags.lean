/-!
# Drive test flags

Flags that make a drive misbehave on purpose: the two low bits choose how far reads may be
shifted (`JitterLevel`), bit 2 shifts every read instead of one in ten, and bit 6 makes every
multi-sector read one sector short. Unknown bits are kept.
-/

namespace VerifiedRip

/-- How far a jittered read may be shifted. -/
inductive JitterLevel where
  | none
  | small
  | large
  | massive
deriving DecidableEq, Repr

/-- The factor that turns a uniform spread into a byte shift. -/
def JitterLevel.coefficient : JitterLevel → Int
  | .none => 0
  | .small => 4
  | .large => 32
  | .massive => 128

/-- Drive test flags, every bit retained. -/
structure TestFlags where
  bits : UInt32
deriving DecidableEq, Repr

namespace TestFlags

/-- The jitter level chosen by the two low bits. -/
def jitter (f : TestFlags) : JitterLevel :=
  match (f.bits &&& 3).toNat with
  | 0 => .none
  | 1 => .small
  | 2 => .large
  | _ => .massive

/-- Whether every read is jittered (bit 2). -/
def alwaysJitter (f : TestFlags) : Bool := f.bits &&& 4 != 0

/-- Whether multi-sector reads come back one sector short (bit 6). -/
def underrun (f : TestFlags) : Bool := f.bits &&& 0x40 != 0

end TestFlags

end VerifiedRip
