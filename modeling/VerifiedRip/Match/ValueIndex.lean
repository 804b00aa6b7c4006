import VerifiedRip.Audio.Signal
/-!
# Value index

For each of the 65536 sample values, the positions of a signal that hold it, kept as chains
that run downward: `heads` holds the last position of each value and `links` holds, for every
position, the position below it that holds the same value. `chainEnd` closes every chain.
Positions are stored as 32-bit words. The index answers `candidates x lo hi`, the positions in
`[lo, hi)` that hold `x`, highest first. It walks the chain of `x` and stops at the first
position below `lo`. Stage-one verification uses the index to find where a fresh read may line
up with an older one without trying every relative offset.

The index carries what makes its walks end: every head is the end marker or a position the
index holds, and every link is the end marker or a lower position.
-/

namespace VerifiedRip

/-- Number of buckets, one per 16-bit sample value. -/
def bucketCount : Nat := 65536

/-- The end-of-chain marker, the greatest 32-bit word. -/
def chainEnd : UInt32 := 4294967295

/-- Positions of each sample value in an indexed signal, as chains of 32-bit words. -/
structure ValueIndex where
  /-- The last position holding each value, by bucket. -/
  heads : Array UInt32
  /-- For each position, the next lower position holding the same value. -/
  links : Array UInt32
  heads_size : heads.size = bucketCount
  /-- Every chain starts at the end marker or at a position of the index. -/
  head_valid : ∀ b (h : b < heads.size), heads[b] = chainEnd ∨ heads[b].toNat < links.size
  /-- Every link goes down. -/
  link_lt : ∀ p (h : p < links.size), links[p] = chainEnd ∨ links[p].toNat < p

namespace ValueIndex

/-- The bucket of a sample value. -/
def bucketOf (s : Int16) : Nat := (s.toInt + 32768).toNat

theorem bucketOf_lt (s : Int16) : bucketOf s < bucketCount := by
  have := Int16.toInt_lt s
  unfold bucketOf bucketCount
  omega

/-- Distinct sample values have distinct buckets. -/
theorem bucketOf_inj {s t : Int16} (h : bucketOf s = bucketOf t) : s = t := by
  have := Int16.le_toInt s
  have := Int16.le_toInt t
  unfold bucketOf at h
  exact Int16.toInt_inj.mp (by omega)

/-- The index of no samples. -/
def empty : ValueIndex where
  heads := Array.replicate bucketCount chainEnd
  links := #[]
  heads_size := Array.size_replicate
  head_valid _ h := Or.inl (Array.getElem_replicate h)
  link_lt _ h := absurd h (Nat.not_lt_zero _)

/-- The index with one more position, holding `s`: the position becomes the head of the chain of
    `s`, linked to the previous head. -/
def push (ix : ValueIndex) (s : Int16) : ValueIndex :=
  let b := bucketOf s
  have hb : b < ix.heads.size := ix.heads_size ▸ bucketOf_lt s
  -- read the old head and the size before either array is updated in place
  let prev := ix.heads[b]
  let n := ix.links.size
  { heads := ix.heads.set b (UInt32.ofNat n) hb
    links := ix.links.push prev
    heads_size := by rw [Array.size_set, ix.heads_size]
    head_valid := by
      intro c hc
      rw [Array.getElem_set, Array.size_push]
      split
      · exact Or.inr (by rw [UInt32.toNat_ofNat']; exact Nat.lt_succ_of_le (Nat.mod_le _ _))
      · exact (ix.head_valid c (by rwa [Array.size_set] at hc)).imp_right Nat.lt_succ_of_lt
    link_lt := by
      intro p hp
      rw [Array.getElem_push]
      split
      · exact ix.link_lt p ‹_›
      · have : p = n := by rw [Array.size_push] at hp; omega
        subst this
        exact ix.head_valid b hb }

/-- The index of a signal: its positions pushed in order. -/
def build (v : Signal) : ValueIndex := v.foldl push empty

/-- Number of indexed samples. -/
def len (ix : ValueIndex) : Nat := ix.links.size

/-- Whether the indexed signal is empty. -/
def isEmpty (ix : ValueIndex) : Bool := ix.links.isEmpty

/-- How far a walk from `c` can still go: nowhere from the end marker. -/
def chainMeasure (c : UInt32) : Nat := if c = chainEnd then 0 else c.toNat + 1

/-- The link below a position of the index is the end marker or a position of the index. -/
theorem link_valid (ix : ValueIndex) {p : Nat} (hp : p < ix.links.size) :
    ix.links[p] = chainEnd ∨ ix.links[p].toNat < ix.links.size :=
  (ix.link_lt p hp).imp_right (Nat.lt_trans · hp)

/-- The positions of the chain from `c` that lie in `[lo, hi)`, in chain order. The walk ends at
    the end marker or at the first position below `lo`: chains run downward, so nothing after
    it lies in the range. -/
def walk (ix : ValueIndex) (lo hi : Nat) (c : UInt32)
    (hc : c = chainEnd ∨ c.toNat < ix.links.size) : List Nat :=
  if he : c = chainEnd then []
  else if c.toNat < lo then []
  else
    have hp : c.toNat < ix.links.size := hc.resolve_left he
    let rest := ix.walk lo hi ix.links[c.toNat] (ix.link_valid hp)
    if c.toNat < hi then c.toNat :: rest else rest
termination_by chainMeasure c
decreasing_by
  unfold chainMeasure
  rw [if_neg he]
  rcases ix.link_lt c.toNat hp with h | h
  · rw [if_pos h]; omega
  · split <;> omega

/-- Positions in `[lo, hi)` holding `x`, highest first. -/
def candidates (ix : ValueIndex) (x : Int16) (lo hi : Nat) : List Nat :=
  have hb : bucketOf x < ix.heads.size := ix.heads_size ▸ bucketOf_lt x
  ix.walk lo hi ix.heads[bucketOf x] (ix.head_valid _ hb)

end ValueIndex

end VerifiedRip
