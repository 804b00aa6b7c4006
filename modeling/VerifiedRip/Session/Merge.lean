import VerifiedRip.Session.Basic
import VerifiedRip.Match.Rift
import VerifiedRip.Match.Alignment
/-!
# Stage two: growing the root

The root starts from a verified fragment that holds the frame being read (one found in place
if there is one; any, once retries have run half out). Fragments then extend it: each is
aligned with the root (`findRootAlignment`), walked along the root while they agree, and where
they part, the rift is repaired (`repairRift`): a short tail of the root or a constant stretch
is cut off, samples one side dropped are inserted, and samples one side repeated are removed.
Edits to the root stay behind the frames already handed out. A fragment that cannot be
reconciled is dropped with a scratch report; one that agrees appends its samples past the
root's end.
-/

namespace VerifiedRip

/-- Most rift repairs while merging one fragment. -/
def maxRiftFixes : Nat := 32

namespace Session

variable {σ : Type}

/-- Starts the root from a fragment holding `begin`: the first in-place one, or with `relaxed`
    the first of any offset if none is in place. -/
def initRoot (begin : Int64) (relaxed : Bool) : SessionM σ Bool := do
  let s ← get
  let holding := s.cache.fragmentList.filter fun p => p.2.contains begin
  let seed := match holding.find? (·.2.offset == 0) with
    | some p => some p
    | none => if relaxed then holding.head? else none
  match seed with
  | none => pure false
  | some (h, f) =>
    dropFragment h
    report f.begin .verify
    editRoot fun _ => Root.set f.samples f.begin f.lastSector
    pure true

/-- Repairs the rift at root position `k` against fragment `samples` placed at `fbegin`.
    Returns whether it did, and the fragment's samples after the repair. -/
def repairRift (k fbegin : Int64) (samples : Signal) : SessionM σ (Bool × Signal) := do
  let s ← get
  if !s.mode.has ReadMode.repair then return (false, samples)
  let root := s.cache.root
  let editable := root.returnedLimit ≤ k
  let ri := k - root.begin
  let fi := k - fbegin
  if root.endPos - k < Int64.ofNat minWordsRift then
    if !editable then return (false, samples)
    editRoot (·.truncateAt k)
    report k .fixupEdge
    return (true, samples)
  if Rift.silence root.samples samples ri fi == some (-1, -1) then
    if !editable then return (false, samples)
    editRoot (·.truncateAt k)
    report k .fixupAtom
    return (true, samples)
  let m := Rift.forward root.samples samples ri fi
  if m.isNone || m.c != 0 then return (false, samples)
  let f := Int64.toIndex fi
  let r := Int64.toIndex ri
  if 0 < m.a then
    if !editable then return (false, samples)
    editRoot fun root => (root.insert? k (samples.extract f (f + Int64.toIndex m.a))).getD root
    report k .fixupDropped
    return (true, samples)
  else if m.a < 0 then
    if !editable then return (false, samples)
    editRoot fun root => (root.remove? k (Int64.toIndex (-m.a))).getD root
    report k .fixupDuped
    return (true, samples)
  else if 0 < m.b then
    report k .fixupDropped
    return (true, samples.extract 0 f ++ root.samples.extract r (r + Int64.toIndex m.b) ++
      samples.extract f samples.size)
  else
    report k .fixupDuped
    return (true, samples.extract 0 f ++ samples.extract (f + Int64.toIndex (-m.b)) samples.size)

/-- Walks fragment `h` (its samples placed at `fbegin`) along the root from `k`, repairing
    rifts; `fixes` repairs so far. Returns the repaired samples when the walk reaches the root's
    end; otherwise the fragment has been dropped. -/
def walkFragment (h : Handle Fragment) (fbegin : Int64) (samples : Signal) (k : Int64) (fixes : Nat) :
    SessionM σ (Option Signal) := do
  let root := (← get).cache.root
  let k := k + Signal.agreeForward root.samples samples (k - root.begin) (k - fbegin)
  let k := match root.skipped with
    | some (a, b) => if a ≤ k ∧ k < b then b else k
    | none => k
  if root.endPos ≤ k then return some samples
  if Int64.ofNat samples.size ≤ k - fbegin then
    dropFragment h
    return none
  if _hf : maxRiftFixes < fixes + 1 then
    report k .scratch
    dropFragment h
    return none
  else
    let (ok, samples) ← repairRift k fbegin samples
    if !ok then
      report k .scratch
      dropFragment h
      return none
    walkFragment h fbegin samples k (fixes + 1)
termination_by maxRiftFixes + 1 - fixes

/-- The alignment of fragment `h` with the root. An in-place fragment's alignment offset is
    counted on stage two; if that corrects the drift, the fragment is aligned again. -/
def alignFragment (h : Handle Fragment) (frag : Fragment) : SessionM σ (Option Alignment) := do
  let s ← get
  let root := s.cache.root
  let inPlace := frag.offset == 0
  match (findRootAlignment root frag s.tracker.width).toOption with
  | some a =>
    if !inPlace then return some a
    let drift := s.tracker.drift
    record .root (-(Int64.ofInt a.offset))
    let s ← get
    match s.cache.fragment? h with
    | none => return none
    | some frag =>
      if drift == s.tracker.drift then return some a
      return (findRootAlignment s.cache.root frag s.tracker.width).toOption
  | none =>
    let rootEnd := root.endPos
    let resumesSkip := inPlace && root.skipped.any (·.2 == rootEnd) && frag.contains rootEnd
    return if resumesSkip then some ⟨0, rootEnd.toInt⟩ else none

/-- Merges fragment `h` into the root. Returns whether the root grew. -/
def mergeFragment (h : Handle Fragment) : SessionM σ Bool := do
  let s ← get
  match s.cache.fragment? h with
  | none => return false
  | some frag =>
    if frag.endPos < s.cache.root.begin then
      dropFragment h
      return false
    match ← alignFragment h frag with
    | none => return false
    | some align =>
      match (← get).cache.fragment? h with
      | none => return false
      | some frag =>
        let fbegin := frag.begin + Int64.ofInt align.offset
        if fbegin + Int64.ofNat frag.size ≤ (← get).cache.root.endPos then
          dropFragment h
          return false
        match ← walkFragment h fbegin frag.samples (Int64.ofInt align.begin) 0 with
        | none => return false
        | some samples =>
          let oldEnd := (← get).cache.root.endPos
          let tail := Int64.toIndex (oldEnd - fbegin)
          let grew := tail < samples.size
          if grew then
            editRoot fun r => { (r.append (samples.extract tail samples.size)) with
                                  lastSector := frag.lastSector }
            report oldEnd .verify
          dropFragment h
          return grew

/-- Merges every fragment, in stream order, pass after pass while the root grows; `passes`
    bounds the passes. -/
def mergePasses (passes : Nat) : SessionM σ Unit := do
  match passes with
  | 0 => pure ()
  | n + 1 =>
    let handles := (← get).cache.fragmentOrder
    let mut grew := false
    for h in handles do
      let g ← mergeFragment h
      grew := grew || g
    if grew then mergePasses n

/-- Grows the root from the fragments for the frame at `begin`, starting it if needed. Each
    growing pass consumes a fragment, so one pass more than there are fragments suffices. -/
def mergeFragments (begin : Int64) (relaxed : Bool) : SessionM σ Unit := do
  if (← get).cache.root.isEmpty then
    if !(← initRoot begin relaxed) then return
  mergePasses ((← get).cache.fragmentCount + 1)

end Session

end VerifiedRip
