import VerifiedRip.Match.Agreement
/-!
# Rift analysis

Two reads that agree up to some position and then differ have a *rift* there. The analysis
looks for the smallest shift after which they agree again for a run of `threshold` samples:
shifting `b` alone (so `a` dropped samples or `b` repeated them), shifting `a` alone, or
shifting both (a stretch of garbage on both sides). A one-sided shift is then classified by
`Signal.junction` as a stutter to remove or a gap to fill.

`RiftShift` carries the answer with a sign convention: `a > 0` skips that many samples of `b`,
`b > 0` skips that many of `a`, a negative `a` or `b` removes samples from that side, and
`c > 0` marks garbage on both sides.
-/

namespace VerifiedRip

/-- How two reads resync after a rift. At most one field is non-zero. -/
structure RiftShift where
  a : Int64
  b : Int64
  c : Int64
deriving DecidableEq, Repr

/-- No resync point was found (or none was needed). -/
def RiftShift.isNone (m : RiftShift) : Bool := m.a == 0 && m.b == 0 && m.c == 0

namespace Rift

/-- The first shift `i` at which a probe succeeds: `alongB` (shift `b` only, allowed while
    `i < bSpan`) before `alongA` (shift `a` only, while `i < aSpan`) before `both` (while below
    both spans). The zero shift when no probe ever succeeds. Every shift tried lies below one of
    the spans, so it is a word that does not wrap. -/
def firstShift (alongB alongA both : Int64 → Bool) (aSpan bSpan : Int64) : RiftShift :=
  go 0
where
  /-- Shifts below `i` failed. -/
  go (i : Nat) : RiftShift :=
    let w := Int64.ofNat i
    if (i : Int) < bSpan.toInt ∧ alongB w then ⟨w, 0, 0⟩
    else if (i : Int) < aSpan.toInt then
      if alongA w then ⟨0, w, 0⟩
      else if (i : Int) < bSpan.toInt ∧ both w then ⟨0, 0, w⟩
      else go (i + 1)
    else if bSpan.toInt ≤ i then ⟨0, 0, 0⟩
    else go (i + 1)
  termination_by (max aSpan.toInt bSpan.toInt - i).toNat
  decreasing_by all_goals omega

/-- Turns a one-sided shift into a removal when the extra samples repeat the other side;
    `stutterA` tests the samples `b` has beyond `a`, `stutterB` the ones `a` has beyond `b`. -/
def classify (m : RiftShift) (stutterA stutterB : Int64 → Bool) : RiftShift :=
  if m.isNone || m.c != 0 then m
  else if m.a != 0 then (if stutterA m.a then ⟨0, -m.a, 0⟩ else m)
  else if stutterB m.b then ⟨-m.b, 0, 0⟩ else m

/-- The first shift after which `a` from `oa` and `b` from `ob` agree again for `threshold`
    samples, before a one-sided shift is told apart as a gap or a stutter. -/
def forwardShift (threshold : Nat) (a b : Signal) (oa ob : Int64) : RiftShift :=
  let t := Int64.ofNat threshold
  firstShift
    (fun i => t ≤ Signal.agreeForward a b oa (ob + i))
    (fun i => t ≤ Signal.agreeForward a b (oa + i) ob)
    (fun i => t ≤ Signal.agreeForward a b (oa + i) (ob + i))
    (Int64.ofNat a.size - oa) (Int64.ofNat b.size - ob)

/-- Resync search forward from a rift at `oa` in `a` and `ob` in `b`, requiring `threshold`
    agreeing samples. -/
def forwardWith (threshold : Nat) (a b : Signal) (oa ob : Int64) : RiftShift :=
  classify (forwardShift threshold a b oa ob)
    (fun n => Signal.junction a b (oa - n) ob n == .stutter)
    (fun n => Signal.junction b a (ob - n) oa n == .stutter)

/-- The first shift after which `threshold` samples of `a` before `oa` and of `b` before `ob`
    agree again, walking backward, before a one-sided shift is told apart as a gap or a
    stutter. -/
def reverseShift (threshold : Nat) (a b : Signal) (oa ob : Int64) : RiftShift :=
  let t := Int64.ofNat threshold
  firstShift
    (fun i => t ≤ Signal.agreeBackward a b oa (ob - i))
    (fun i => t ≤ Signal.agreeBackward a b (oa - i) ob)
    (fun i => t ≤ Signal.agreeBackward a b (oa - i) (ob - i))
    (oa + 1) (ob + 1)

/-- Resync search backward from a rift ending at `oa` in `a` and `ob` in `b`, requiring
    `threshold` agreeing samples before the shifted offsets. The stutter tests compare the
    samples past the offsets on one side with those the shift passes over on the other. -/
def reverseWith (threshold : Nat) (a b : Signal) (oa ob : Int64) : RiftShift :=
  classify (reverseShift threshold a b oa ob)
    (fun n => Signal.junction a b (oa + 1) (ob - n + 1) n == .stutter)
    (fun n => Signal.junction b a (ob + 1) (oa - n + 1) n == .stutter)

/-- Resync search forward with the default threshold. -/
def forward (a b : Signal) (oa ob : Int64) : RiftShift := forwardWith minWordsRift a b oa ob

/-- Resync search backward with the default threshold. -/
def reverse (a b : Signal) (oa ob : Int64) : RiftShift := reverseWith minWordsRift a b oa ob

/-- Whether the window of `minWordsRift` samples from `off` is constant: `-1` if it is (or is
    too short to tell), `0` if the signal changes inside it or the offset is negative. The
    window ends at `off + minWordsRift` or at the signal's end, whichever is first as words; a
    window whose end wraps around to a huge index leaves the signal, and gives `none`. -/
def constantRun (v : Signal) (off : Int64) : Option Int64 :=
  if off < 0 then some 0
  else
    let stop := Int64.toIndex (min (Int64.ofNat v.size) (off + Int64.ofNat minWordsRift))
    let start := Int64.toIndex (off + 1)
    if stop ≤ start then some (-1)
    else if v.size < stop then none
    else if (List.range (stop - start)).all fun k =>
        v.getD (start - 1 + k) 0 == v.getD (start + k) 0 then some (-1)
    else some 0

/-- Whether the rift region is constant on each side, as `constantRun` of both; `none` if
    either window leaves its signal. -/
def silence (a b : Signal) (oa ob : Int64) : Option (Int64 × Int64) := do
  let x ← constantRun a oa
  let y ← constantRun b ob
  pure (x, y)

end Rift

end VerifiedRip
