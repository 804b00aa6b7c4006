import VerifiedRip.Block.Fragment
import VerifiedRip.Block.Root
import VerifiedRip.Match.Agreement
/-!
# The fragment cache

The cache holds the raw blocks read so far, the verified fragments cut from them, and the
root. Blocks and fragments live in generational arenas; beside each arena an order list keeps
their handles sorted by start position, equal starts in insertion order, so that listings
(`blockList`, `fragmentList`) come out in stream order.

`trim` forgets what lies well behind the reading position; `rebase` moves every entry back
after a drift correction, releasing those that would start before zero.
-/

namespace VerifiedRip

/-- Largest distance, in sectors, that a read may be displaced. -/
def maxSectorOverlap : Nat := 32

/-- Raw blocks, verified fragments and the root. -/
structure FragmentCache where
  blocks : Arena RawBlock := {}
  /-- Handles of the stored blocks by start position. -/
  blockOrder : Array (Handle RawBlock) := #[]
  fragments : Arena Fragment := {}
  /-- Handles of the stored fragments by start position. -/
  fragmentOrder : Array (Handle Fragment) := #[]
  root : Root := {}

namespace FragmentCache

/-- Binary search by halving: the range of indices of length `size` from `base` is halved at
    its middle, and the lower end moves up to the middle when `p` accepts it. `fuel` bounds the
    halvings; as many as the range is long suffice. -/
def halve (p : Nat → Bool) : (fuel base size : Nat) → Nat
  | 0, base, _ => base
  | fuel + 1, base, size =>
    if size ≤ 1 then base
    else halve p fuel (if p (base + size / 2) then base + size / 2 else base) (size - size / 2)

/-- The number of leading indices below `n` that `p` accepts, when `p` accepts a prefix of them
    and rejects the rest, found by binary search: halve the range, then step past its last probe
    if `p` accepts it. The probes depend only on `n` and on `p` at the probed indices, so for a
    `p` of another shape the answer is wherever they lead. -/
def partitionPoint (p : Nat → Bool) (n : Nat) : Nat :=
  if n = 0 then 0
  else
    let base := halve p n 0 n
    base + if p base then 1 else 0

/-- Position in an order list before the first entry that does not start at or before
    `begin`, found by binary search: after every entry at or before it, when the list is
    sorted. -/
def slotFor {α : Type} (order : Array (Handle α)) (startOf : Handle α → Option Int64)
    (begin : Int64) : Nat :=
  partitionPoint (fun i => (order[i]?.bind startOf).any (· ≤ begin)) order.size

/-- Stores a raw block, listing it after every block that starts at or before it. -/
def insertBlock (c : FragmentCache) (b : RawBlock) : FragmentCache × Handle RawBlock :=
  let (blocks, h) := c.blocks.insert b
  let k := slotFor c.blockOrder (fun g => (blocks.get? g).map (·.begin)) b.begin
  ({ c with blocks, blockOrder := c.blockOrder.insertIdxIfInBounds k h }, h)

/-- Stores a fragment, listing it after every fragment that starts at or before it. -/
def insertFragment (c : FragmentCache) (f : Fragment) : FragmentCache × Handle Fragment :=
  let (fragments, h) := c.fragments.insert f
  let k := slotFor c.fragmentOrder (fun g => (fragments.get? g).map (·.begin)) f.begin
  ({ c with fragments, fragmentOrder := c.fragmentOrder.insertIdxIfInBounds k h }, h)

/-- The block stored under `h`. -/
def block? (c : FragmentCache) (h : Handle RawBlock) : Option RawBlock := c.blocks.get? h

/-- The fragment stored under `h`. -/
def fragment? (c : FragmentCache) (h : Handle Fragment) : Option Fragment := c.fragments.get? h

/-- The stored blocks with their handles, in stream order. -/
def blockList (c : FragmentCache) : List (Handle RawBlock × RawBlock) :=
  c.blockOrder.toList.filterMap fun h => (c.blocks.get? h).map (h, ·)

/-- The stored fragments with their handles, in stream order. -/
def fragmentList (c : FragmentCache) : List (Handle Fragment × Fragment) :=
  c.fragmentOrder.toList.filterMap fun h => (c.fragments.get? h).map (h, ·)

/-- Removes the block under `h`; nothing changes for a stale handle. -/
def removeBlock (c : FragmentCache) (h : Handle RawBlock) : FragmentCache × Option RawBlock :=
  match c.blocks.remove h with
  | (blocks, some b) => ({ c with blocks, blockOrder := c.blockOrder.filter (· != h) }, some b)
  | (_, none) => (c, none)

/-- Removes the fragment under `h`; nothing changes for a stale handle. -/
def removeFragment (c : FragmentCache) (h : Handle Fragment) : FragmentCache × Option Fragment :=
  match c.fragments.remove h with
  | (fragments, some f) =>
    ({ c with fragments, fragmentOrder := c.fragmentOrder.filter (· != h) }, some f)
  | (_, none) => (c, none)

/-- Replaces the fragment under `h` by `f` applied to it. -/
def modifyFragment (c : FragmentCache) (h : Handle Fragment) (f : Fragment → Fragment) :
    FragmentCache :=
  { c with fragments := c.fragments.modify h f }

/-- Number of stored blocks. -/
def blockCount (c : FragmentCache) : Nat := c.blocks.size

/-- Number of stored fragments. -/
def fragmentCount (c : FragmentCache) : Nat := c.fragments.size

/-- Replaces the root by `f` applied to it. -/
def modifyRoot (c : FragmentCache) (f : Root → Root) : FragmentCache := { c with root := f c.root }

/-- Forgets what lies more than `maxSectorOverlap` frames behind `beginWord`: the root loses
    its samples before that point (all of it if too little would be left), and every block and
    fragment that ends before it is removed, in stream order. -/
def trim (c : FragmentCache) (beginWord _endWord : Int64) : FragmentCache :=
  let target := beginWord - Int64.ofNat (maxSectorOverlap * frameWords)
  let root := c.root
  let root :=
    if !root.isEmpty ∧ root.begin < beginWord ∧ root.begin < target then
      if root.endPos < target + Int64.ofNat minWordsOverlap then {} else root.dropBefore target
    else root
  let c := { c with root }
  let staleBlocks := (c.blockList.filter fun p => p.2.endPos < target).map (·.1)
  let staleFragments := (c.fragmentList.filter fun p => p.2.endPos < target).map (·.1)
  let c := staleBlocks.foldl (fun c h => (c.removeBlock h).1) c
  staleFragments.foldl (fun c h => (c.removeFragment h).1) c

/-- Forgets every block and fragment. -/
def resetCache (c : FragmentCache) : FragmentCache :=
  { c with blocks := c.blocks.clear, blockOrder := #[], fragments := c.fragments.clear,
           fragmentOrder := #[] }

/-- Forgets every block and fragment, and the root. -/
def resetAll (c : FragmentCache) : FragmentCache := { c.resetCache with root := {} }

/-- One fragment's step of `rebase`. -/
def rebaseFragment (av : Int64) (acc : FragmentCache × List Int64) (h : Handle Fragment) :
    FragmentCache × List Int64 :=
  let (c, released) := acc
  match c.fragment? h with
  | none => acc
  | some f =>
    let linked := f.source.bind c.block? |>.map (·.begin)
    if f.begin < av ∨ linked.any (· < av) then ((c.removeFragment h).1, released ++ [f.begin])
    else (c.modifyFragment h (·.shift av), released)

/-- One block's step of `rebase`. -/
def rebaseBlock (av : Int64) (acc : FragmentCache × List Int64) (h : Handle RawBlock) :
    FragmentCache × List Int64 :=
  let (c, released) := acc
  match c.block? h with
  | none => acc
  | some b =>
    if b.begin < av then ((c.removeBlock h).1, released ++ [b.begin])
    else ({ c with blocks := c.blocks.modify h (·.shift av) }, released)

/-- Moves every fragment, then every block, back by `av` samples, in stream order. A fragment
    that would start before zero, or whose source block would, is released, and so is such a
    block. Returns the start positions of the released entries, in release order. -/
def rebase (c : FragmentCache) (av : Int64) : FragmentCache × List Int64 :=
  let acc := c.fragmentOrder.foldl (rebaseFragment av) (c, [])
  acc.1.blockOrder.foldl (rebaseBlock av) acc

end FragmentCache

end VerifiedRip
