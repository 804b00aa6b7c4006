import VerifiedRip.Proofs.OrderList
/-!
# The fragment cache lists its entries in stream order

A run of cache operations (`CacheOp`: storing, removing by any handle, trimming, rebasing and
resetting) is replayed beside a `Ledger`, the live blocks and fragments in the order they were
stored. Every operation is first written as a pass over an order list (`Arena.sweepStep`):
a removal drops one handle's value, `trim` drops the values of the listed entries that end
before its target, and `rebase` drops or moves every value, fragments first, then blocks.

## Main statements

* `FragmentCache.Indexed.run`: whatever a run does, each order list holds each live handle
  once, so each listing holds every live entry once and each count counts its listing.
* `FragmentCache.Consistent.run`: when each rebase moves what it keeps without wrapping a
  position around (`CacheOp.Exact`), each listing is moreover the stable sort by start of the
  ledger's entries.
* `CacheOp.replay_lists_live_in_stream_order` puts the two together for every run from the
  empty cache; `CacheOp.blockList_unsorted_of_wrapping_rebase` shows the second needs its
  condition.
-/

namespace VerifiedRip

/-- Moving two positions back by the same amount keeps their order when neither wraps. -/
theorem Int64.sub_le_sub_iff_of_exact {x y av : Int64}
    (hx : (x - av).toInt = x.toInt - av.toInt) (hy : (y - av).toInt = y.toInt - av.toInt) :
    x - av ≤ y - av ↔ x ≤ y := by
  rw [Int64.le_iff_toInt_le, Int64.le_iff_toInt_le, hx, hy]
  omega

/-- Moving back by a non-negative amount does not wrap a position at or after it. -/
theorem Int64.toInt_sub_of_le {x av : Int64} (h0 : 0 ≤ av) (h : av ≤ x) :
    (x - av).toInt = x.toInt - av.toInt := by
  rw [Int64.le_iff_toInt_le, Int64.toInt_zero] at h0
  rw [Int64.le_iff_toInt_le] at h
  have hx := Int64.toInt_lt x
  rw [Int64.toInt_sub]
  exact Int.bmod_eq_of_le (by omega) (by omega)

namespace FragmentCache

variable (c : FragmentCache)

/-! ### Removals, trims and rebases as passes over an order list -/

/-- Removing a block is a step of a pass that drops every value it meets. -/
theorem removeBlock_fst (h : Handle RawBlock) :
    (c.removeBlock h).1 =
      { c with blocks := (Arena.sweepStep (fun _ => true) id (c.blocks, c.blockOrder) h).1
               blockOrder := (Arena.sweepStep (fun _ => true) id (c.blocks, c.blockOrder) h).2 } := by
  unfold removeBlock Arena.sweepStep
  cases hv : c.blocks.get? h with
  | none => simp [Arena.remove_of_get?_none hv]
  | some b =>
    obtain ⟨A, hA⟩ : ∃ A, c.blocks.remove h = (A, some b) :=
      ⟨_, Prod.ext rfl (by rw [Arena.remove_snd, hv])⟩
    simp [hA]

/-- Removing a fragment is a step of a pass that drops every value it meets. -/
theorem removeFragment_fst (h : Handle Fragment) :
    (c.removeFragment h).1 =
      { c with
        fragments := (Arena.sweepStep (fun _ => true) id (c.fragments, c.fragmentOrder) h).1
        fragmentOrder := (Arena.sweepStep (fun _ => true) id (c.fragments, c.fragmentOrder) h).2 } := by
  unfold removeFragment Arena.sweepStep
  cases hv : c.fragments.get? h with
  | none => simp [Arena.remove_of_get?_none hv]
  | some f =>
    obtain ⟨A, hA⟩ : ∃ A, c.fragments.remove h = (A, some f) :=
      ⟨_, Prod.ext rfl (by rw [Arena.remove_snd, hv])⟩
    simp [hA]

/-- Removing the blocks `hs` one after another is a pass over them that drops each. -/
theorem foldl_removeBlock (hs : List (Handle RawBlock)) :
    hs.foldl (fun c h => (c.removeBlock h).1) c =
      { c with
        blocks := (hs.foldl (Arena.sweepStep (fun _ => true) id) (c.blocks, c.blockOrder)).1
        blockOrder := (hs.foldl (Arena.sweepStep (fun _ => true) id) (c.blocks, c.blockOrder)).2 } := by
  induction hs generalizing c with
  | nil => rfl
  | cons h hs ih => rw [List.foldl_cons, List.foldl_cons, removeBlock_fst, ih]

/-- Removing the fragments `hs` one after another is a pass over them that drops each. -/
theorem foldl_removeFragment (hs : List (Handle Fragment)) :
    hs.foldl (fun c h => (c.removeFragment h).1) c =
      { c with
        fragments :=
          (hs.foldl (Arena.sweepStep (fun _ => true) id) (c.fragments, c.fragmentOrder)).1
        fragmentOrder :=
          (hs.foldl (Arena.sweepStep (fun _ => true) id) (c.fragments, c.fragmentOrder)).2 } := by
  induction hs generalizing c with
  | nil => rfl
  | cons h hs ih => rw [List.foldl_cons, List.foldl_cons, removeFragment_fst, ih]

/-- Whether a rebase by `av` releases fragment `f`: `f`, or the block in `blocks` it was cut
    from, would start before zero. -/
def releasesFragment (av : Int64) (blocks : Arena RawBlock) (f : Fragment) : Bool :=
  decide (f.begin < av) || ((f.source.bind blocks.get?).map (·.begin)).any (· < av)

theorem le_of_releasesFragment_eq_false {av : Int64} {blocks : Arena RawBlock} {f : Fragment}
    (h : releasesFragment av blocks f = false) : av ≤ f.begin := by
  simp only [releasesFragment, Bool.or_eq_false_iff, decide_eq_false_iff_not] at h
  exact Int64.not_lt.1 h.1

theorem rebaseFragment_fst (av : Int64) (rel : List Int64) (h : Handle Fragment) :
    (rebaseFragment av (c, rel) h).1 =
      { c with
        fragments := (Arena.sweepStep (releasesFragment av c.blocks) (·.shift av)
          (c.fragments, c.fragmentOrder) h).1
        fragmentOrder := (Arena.sweepStep (releasesFragment av c.blocks) (·.shift av)
          (c.fragments, c.fragmentOrder) h).2 } := by
  unfold rebaseFragment Arena.sweepStep
  cases hv : c.fragments.get? h with
  | none => simp [fragment?, hv]
  | some f =>
    obtain ⟨A, hA⟩ : ∃ A, c.fragments.remove h = (A, some f) :=
      ⟨_, Prod.ext rfl (by rw [Arena.remove_snd, hv])⟩
    have hrel : (f.begin < av ∨ ((f.source.bind c.block?).map (·.begin)).any (· < av)) ↔
        releasesFragment av c.blocks f = true := by
      simp only [releasesFragment, Bool.or_eq_true, decide_eq_true_eq]
      rfl
    simp only [fragment?, hv]
    by_cases hd : releasesFragment av c.blocks f = true
    · rw [if_pos (hrel.2 hd), if_pos hd]
      simp [removeFragment, hA]
    · rw [if_neg (mt hrel.1 hd), if_neg hd]
      rfl

theorem rebaseBlock_fst (av : Int64) (rel : List Int64) (h : Handle RawBlock) :
    (rebaseBlock av (c, rel) h).1 =
      { c with
        blocks := (Arena.sweepStep (fun b => decide (b.begin < av)) (·.shift av)
          (c.blocks, c.blockOrder) h).1
        blockOrder := (Arena.sweepStep (fun b => decide (b.begin < av)) (·.shift av)
          (c.blocks, c.blockOrder) h).2 } := by
  unfold rebaseBlock Arena.sweepStep
  cases hv : c.blocks.get? h with
  | none => simp [block?, hv]
  | some b =>
    obtain ⟨A, hA⟩ : ∃ A, c.blocks.remove h = (A, some b) :=
      ⟨_, Prod.ext rfl (by rw [Arena.remove_snd, hv])⟩
    by_cases hd : b.begin < av
    · simp [block?, hv, hd, removeBlock, hA]
    · simp [block?, hv, hd]

/-- The fragment half of a rebase is a pass over the fragments that leaves the blocks alone. -/
theorem foldl_rebaseFragment (av : Int64) (hs : List (Handle Fragment)) (rel : List Int64) :
    (hs.foldl (rebaseFragment av) (c, rel)).1 =
      { c with
        fragments := (hs.foldl (Arena.sweepStep (releasesFragment av c.blocks) (·.shift av))
          (c.fragments, c.fragmentOrder)).1
        fragmentOrder := (hs.foldl (Arena.sweepStep (releasesFragment av c.blocks) (·.shift av))
          (c.fragments, c.fragmentOrder)).2 } := by
  induction hs generalizing c rel with
  | nil => rfl
  | cons h hs ih =>
    rw [List.foldl_cons, List.foldl_cons, ← Prod.eta (rebaseFragment av (c, rel) h), ih,
      rebaseFragment_fst]

/-- The block half of a rebase is a pass over the blocks that leaves the fragments alone. -/
theorem foldl_rebaseBlock (av : Int64) (hs : List (Handle RawBlock)) (rel : List Int64) :
    (hs.foldl (rebaseBlock av) (c, rel)).1 =
      { c with
        blocks := (hs.foldl (Arena.sweepStep (fun b => decide (b.begin < av)) (·.shift av))
          (c.blocks, c.blockOrder)).1
        blockOrder := (hs.foldl (Arena.sweepStep (fun b => decide (b.begin < av)) (·.shift av))
          (c.blocks, c.blockOrder)).2 } := by
  induction hs generalizing c rel with
  | nil => rfl
  | cons h hs ih =>
    rw [List.foldl_cons, List.foldl_cons, ← Prod.eta (rebaseBlock av (c, rel) h), ih,
      rebaseBlock_fst]

theorem blockList_eq_entries : c.blockList = c.blocks.entries c.blockOrder := rfl

theorem fragmentList_eq_entries : c.fragmentList = c.fragments.entries c.fragmentOrder := rfl

/-- A rebase is a pass over the fragments in their listed order, then one over the blocks. -/
theorem rebase_fst (av : Int64) :
    (c.rebase av).1 =
      { c with
        fragments := (c.fragmentOrder.toList.foldl
          (Arena.sweepStep (releasesFragment av c.blocks) (·.shift av))
          (c.fragments, c.fragmentOrder)).1
        fragmentOrder := (c.fragmentOrder.toList.foldl
          (Arena.sweepStep (releasesFragment av c.blocks) (·.shift av))
          (c.fragments, c.fragmentOrder)).2
        blocks := (c.blockOrder.toList.foldl
          (Arena.sweepStep (fun b => decide (b.begin < av)) (·.shift av)) (c.blocks, c.blockOrder)).1
        blockOrder := (c.blockOrder.toList.foldl
          (Arena.sweepStep (fun b => decide (b.begin < av)) (·.shift av))
          (c.blocks, c.blockOrder)).2 } := by
  unfold rebase
  rw [← Array.foldl_toList, ← Array.foldl_toList,
    ← Prod.eta (c.fragmentOrder.toList.foldl (rebaseFragment av) (c, [])),
    foldl_rebaseBlock, foldl_rebaseFragment]

/-- Trimming removes, one after another, the blocks listed as ending before the target. -/
theorem trim_blocks (beginWord endWord : Int64) :
    ((c.trim beginWord endWord).blocks, (c.trim beginWord endWord).blockOrder) =
      ((c.blockList.filter fun p =>
          p.2.endPos < beginWord - Int64.ofNat (maxSectorOverlap * frameWords)).map (·.1)).foldl
        (Arena.sweepStep (fun _ => true) id) (c.blocks, c.blockOrder) := by
  unfold trim
  simp only [foldl_removeFragment, foldl_removeBlock]
  rfl

/-- Trimming removes, one after another, the fragments listed as ending before the target. -/
theorem trim_fragments (beginWord endWord : Int64) :
    ((c.trim beginWord endWord).fragments, (c.trim beginWord endWord).fragmentOrder) =
      ((c.fragmentList.filter fun p =>
          p.2.endPos < beginWord - Int64.ofNat (maxSectorOverlap * frameWords)).map (·.1)).foldl
        (Arena.sweepStep (fun _ => true) id) (c.fragments, c.fragmentOrder) := by
  unfold trim
  simp only [foldl_removeFragment, foldl_removeBlock]
  rfl

end FragmentCache

/-! ### Runs of cache operations -/

/-- An operation on a fragment cache that stores, removes or moves blocks and fragments. -/
inductive CacheOp where
  | insertBlock (b : RawBlock)
  | insertFragment (f : Fragment)
  | removeBlock (h : Handle RawBlock)
  | removeFragment (h : Handle Fragment)
  | trim (beginWord endWord : Int64)
  | rebase (av : Int64)
  | resetCache
  | resetAll

/-- The live blocks and fragments of a cache with their handles, in the order they were
    stored. -/
structure Ledger where
  blocks : List (Handle RawBlock × RawBlock) := []
  fragments : List (Handle Fragment × Fragment) := []

namespace CacheOp

/-- The cache after the operation. -/
def run : CacheOp → FragmentCache → FragmentCache
  | insertBlock b, c => (c.insertBlock b).1
  | insertFragment f, c => (c.insertFragment f).1
  | removeBlock h, c => (c.removeBlock h).1
  | removeFragment h, c => (c.removeFragment h).1
  | trim beginWord endWord, c => c.trim beginWord endWord
  | rebase av, c => (c.rebase av).1
  | resetCache, c => c.resetCache
  | resetAll, c => c.resetAll

/-- What the operation does to the stored entries of `c`, kept in storing order: an insertion
    appends the entry under the handle the cache gives it, a removal, a trim or a reset drops
    entries, and a rebase drops what it releases and moves the rest back. -/
def record : CacheOp → FragmentCache → Ledger → Ledger
  | insertBlock b, c, L => { L with blocks := L.blocks ++ [((c.insertBlock b).2, b)] }
  | insertFragment f, c, L => { L with fragments := L.fragments ++ [((c.insertFragment f).2, f)] }
  | removeBlock h, _, L => { L with blocks := L.blocks.filter fun p => p.1 != h }
  | removeFragment h, _, L => { L with fragments := L.fragments.filter fun p => p.1 != h }
  | trim beginWord _, _, L =>
    let target := beginWord - Int64.ofNat (maxSectorOverlap * frameWords)
    { blocks := L.blocks.filter fun p => !(p.2.endPos < target)
      fragments := L.fragments.filter fun p => !(p.2.endPos < target) }
  | rebase av, c, L =>
    { blocks := L.blocks.filterMap fun p =>
        if p.2.begin < av then none else some (p.1, p.2.shift av)
      fragments := L.fragments.filterMap fun p =>
        if FragmentCache.releasesFragment av c.blocks p.2 then none else some (p.1, p.2.shift av) }
  | resetCache, _, _ => {}
  | resetAll, _, _ => {}

/-- Runs `ops`, keeping the ledger beside the cache. -/
def replay : FragmentCache × Ledger → List CacheOp → FragmentCache × Ledger
  | s, [] => s
  | (c, L), op :: ops => replay (op.run c, op.record c L) ops

end CacheOp

namespace FragmentCache

/-- Moving back by `av` is exact for every listed block and fragment that starts at or after
    `av`: no position that a rebase keeps wraps around. -/
def RebaseExact (c : FragmentCache) (av : Int64) : Prop :=
  (∀ p ∈ c.blockList, av ≤ p.2.begin → (p.2.begin - av).toInt = p.2.begin.toInt - av.toInt) ∧
  ∀ p ∈ c.fragmentList, av ≤ p.2.begin → (p.2.begin - av).toInt = p.2.begin.toInt - av.toInt

/-- A rebase by a non-negative amount wraps nothing. -/
theorem rebaseExact_of_nonneg (c : FragmentCache) {av : Int64} (h : 0 ≤ av) : c.RebaseExact av :=
  ⟨fun _ _ hp => Int64.toInt_sub_of_le h hp, fun _ _ hp => Int64.toInt_sub_of_le h hp⟩

end FragmentCache

namespace CacheOp

/-- Whether the operation moves every entry of `c` it keeps by exactly its amount; only a
    rebase moves entries. -/
def Exact : CacheOp → FragmentCache → Prop
  | rebase av, c => c.RebaseExact av
  | _, _ => True

/-- Every operation of the run of `ops` from `c` moves entries exactly. -/
def ExactRun : FragmentCache → List CacheOp → Prop
  | _, [] => True
  | c, op :: ops => op.Exact c ∧ ExactRun (op.run c) ops

/-- A run whose rebases all move forward wraps nothing. -/
theorem exactRun_of_nonneg (ops : List CacheOp) (h : ∀ op ∈ ops, ∀ av, op = rebase av → 0 ≤ av) :
    ∀ c, ExactRun c ops := by
  induction ops with
  | nil => intro c; trivial
  | cons op ops ih =>
    intro c
    refine ⟨?_, ih (fun op' hop' => h op' (List.mem_cons_of_mem op hop')) _⟩
    cases op with
    | rebase av => exact c.rebaseExact_of_nonneg (h _ List.mem_cons_self av rfl)
    | _ => trivial

end CacheOp

/-! ### What every run keeps -/

namespace FragmentCache

/-- Each order list of `c` holds each live handle of its arena once. -/
structure Indexed (c : FragmentCache) : Prop where
  blocks : c.blocks.Indexes c.blockOrder
  fragments : c.fragments.Indexes c.fragmentOrder

/-- Each listing of `c` holds every live entry once, and each count counts its listing. -/
def ListsLive (c : FragmentCache) : Prop :=
  Arena.ListsLive c.block? c.blockCount c.blockList ∧
  Arena.ListsLive c.fragment? c.fragmentCount c.fragmentList

theorem Indexed.listsLive {c : FragmentCache} (hc : c.Indexed) : c.ListsLive :=
  ⟨hc.blocks.listsLive, hc.fragments.listsLive⟩

theorem Indexed.empty : ({} : FragmentCache).Indexed :=
  ⟨Arena.Indexes.empty, Arena.Indexes.empty⟩

/-- Every operation keeps each live handle listed once: stored values are listed at a slot of
    the order list, and every removal is a pass that takes the removed handles out. -/
theorem Indexed.run {c : FragmentCache} (hc : c.Indexed) (op : CacheOp) : (op.run c).Indexed := by
  cases op with
  | insertBlock b => exact ⟨hc.blocks.insert b (slotFor_le _ _ _), hc.fragments⟩
  | insertFragment f => exact ⟨hc.blocks, hc.fragments.insert f (slotFor_le _ _ _)⟩
  | removeBlock h =>
    rw [CacheOp.run, removeBlock_fst]
    exact ⟨(hc.blocks.foldl_sweepStep _ _ [h] (List.nodup_singleton h)).1, hc.fragments⟩
  | removeFragment h =>
    rw [CacheOp.run, removeFragment_fst]
    exact ⟨hc.blocks, (hc.fragments.foldl_sweepStep _ _ [h] (List.nodup_singleton h)).1⟩
  | trim beginWord endWord =>
    have hb := (hc.blocks.foldl_sweepStep (fun _ => true) id _
      (hc.blocks.nodup_map_fst_filter fun p =>
        decide (p.2.endPos < beginWord - Int64.ofNat (maxSectorOverlap * frameWords)))).1
    have hf := (hc.fragments.foldl_sweepStep (fun _ => true) id _
      (hc.fragments.nodup_map_fst_filter fun p =>
        decide (p.2.endPos < beginWord - Int64.ofNat (maxSectorOverlap * frameWords)))).1
    rw [← blockList_eq_entries, ← trim_blocks c beginWord endWord] at hb
    rw [← fragmentList_eq_entries, ← trim_fragments c beginWord endWord] at hf
    exact ⟨hb, hf⟩
  | rebase av =>
    rw [CacheOp.run, rebase_fst]
    exact ⟨(hc.blocks.foldl_sweepStep _ _ _ hc.blocks.nodup).1,
      (hc.fragments.foldl_sweepStep _ _ _ hc.fragments.nodup).1⟩
  | resetCache => exact ⟨hc.blocks.clear, hc.fragments.clear⟩
  | resetAll => exact ⟨hc.blocks.clear, hc.fragments.clear⟩

theorem Indexed.replay {c : FragmentCache} (hc : c.Indexed) (L : Ledger) (ops : List CacheOp) :
    (CacheOp.replay (c, L) ops).1.Indexed := by
  induction ops generalizing c L with
  | nil => exact hc
  | cons op ops ih => exact ih (hc.run op) _

/-- The order lists of `c` list its live entries in stable order by start, relative to the
    ledger `L`. -/
structure Consistent (c : FragmentCache) (L : Ledger) : Prop where
  blocks : c.blocks.OrderedBy c.blockOrder RawBlock.begin L.blocks
  fragments : c.fragments.OrderedBy c.fragmentOrder Fragment.begin L.fragments

/-- Both listings of `c` keep the promises of `Arena.ListsInOrder`, relative to the ledger `L`. -/
def ListsInStreamOrder (c : FragmentCache) (L : Ledger) : Prop :=
  Arena.ListsInOrder c.block? c.blockCount c.blockList RawBlock.begin L.blocks ∧
  Arena.ListsInOrder c.fragment? c.fragmentCount c.fragmentList Fragment.begin L.fragments

theorem Consistent.listsInStreamOrder {c : FragmentCache} {L : Ledger} (hc : c.Consistent L) :
    c.ListsInStreamOrder L :=
  ⟨hc.blocks.listsInOrder, hc.fragments.listsInOrder⟩

theorem Consistent.empty : ({} : FragmentCache).Consistent {} :=
  ⟨Arena.OrderedBy.empty, Arena.OrderedBy.empty⟩

/-- One operation keeps the order lists consistent with the ledger, provided it moves entries
    exactly. -/
theorem Consistent.run {c : FragmentCache} {L : Ledger} (hc : c.Consistent L) (op : CacheOp)
    (hx : op.Exact c) : (op.run c).Consistent (op.record c L) := by
  cases op with
  | insertBlock b => exact ⟨hc.blocks.insert b, hc.fragments⟩
  | insertFragment f => exact ⟨hc.blocks, hc.fragments.insert f⟩
  | removeBlock h =>
    have hb := hc.blocks.foldl_drop [h] (List.nodup_singleton h)
    have hL : (L.blocks.filter fun p => p.1 ∉ [h]) = L.blocks.filter fun p => p.1 != h :=
      List.filter_congr fun p _ => by by_cases hp : p.1 = h <;> simp [hp]
    rw [hL] at hb
    rw [CacheOp.run, removeBlock_fst]
    exact ⟨hb, hc.fragments⟩
  | removeFragment h =>
    have hf := hc.fragments.foldl_drop [h] (List.nodup_singleton h)
    have hL : (L.fragments.filter fun p => p.1 ∉ [h]) = L.fragments.filter fun p => p.1 != h :=
      List.filter_congr fun p _ => by by_cases hp : p.1 = h <;> simp [hp]
    rw [hL] at hf
    rw [CacheOp.run, removeFragment_fst]
    exact ⟨hc.blocks, hf⟩
  | trim beginWord endWord =>
    have hb := hc.blocks.drop_listed fun p =>
      decide (p.2.endPos < beginWord - Int64.ofNat (maxSectorOverlap * frameWords))
    have hf := hc.fragments.drop_listed fun p =>
      decide (p.2.endPos < beginWord - Int64.ofNat (maxSectorOverlap * frameWords))
    rw [← blockList_eq_entries, ← trim_blocks c beginWord endWord] at hb
    rw [← fragmentList_eq_entries, ← trim_fragments c beginWord endWord] at hf
    exact ⟨hb, hf⟩
  | rebase av =>
    obtain ⟨hbx, hfx⟩ := hx
    have hb := hc.blocks.sweep_all (fun b => decide (b.begin < av)) (·.shift av)
      fun x hx y hy hdx hdy => by
        have hax := Int64.not_lt.1 (by simpa using hdx)
        have hay := Int64.not_lt.1 (by simpa using hdy)
        exact Int64.sub_le_sub_iff_of_exact (hbx x (hc.blocks.perm.symm.subset hx) hax)
          (hbx y (hc.blocks.perm.symm.subset hy) hay)
    have hf := hc.fragments.sweep_all (releasesFragment av c.blocks) (·.shift av)
      fun x hx y hy hdx hdy =>
        Int64.sub_le_sub_iff_of_exact
          (hfx x (hc.fragments.perm.symm.subset hx) (le_of_releasesFragment_eq_false hdx))
          (hfx y (hc.fragments.perm.symm.subset hy) (le_of_releasesFragment_eq_false hdy))
    simp only [Arena.map_swept, decide_eq_true_eq] at hb hf
    rw [CacheOp.run, rebase_fst]
    exact ⟨hb, hf⟩
  | resetCache => exact ⟨hc.blocks.clear, hc.fragments.clear⟩
  | resetAll => exact ⟨hc.blocks.clear, hc.fragments.clear⟩

/-- A run keeps the order lists consistent with the ledger, provided every operation of it
    moves entries exactly. -/
theorem Consistent.replay {c : FragmentCache} {L : Ledger} (hc : c.Consistent L)
    (ops : List CacheOp) (hx : CacheOp.ExactRun c ops) :
    (CacheOp.replay (c, L) ops).1.Consistent (CacheOp.replay (c, L) ops).2 := by
  induction ops generalizing c L with
  | nil => exact hc
  | cons op ops ih => exact ih (hc.run op hx.1) hx.2

end FragmentCache

namespace CacheOp

/-- The blocks of the source's offset-order test, stored out of order, two fragments, a removal
    by a handle that finds nothing, a rebase that releases the fragment at 20, and a trim. -/
def offsetOrderRun : List CacheOp :=
  [.insertBlock (RawBlock.ofSignal #[1] 500 0), .insertBlock (RawBlock.ofSignal #[1] 100 0),
   .insertBlock (RawBlock.ofSignal #[1] 300 0), .insertFragment ⟨#[1, 1], 40, 0, none, 0⟩,
   .insertFragment ⟨#[1, 1], 20, 0, none, 0⟩, .removeBlock ⟨5, 0⟩, .rebase 30, .trim 0 0]

example :
    (replay ({}, {}) offsetOrderRun).1.blockList.map (·.2.begin) = [70, 270, 470] ∧
      (replay ({}, {}) offsetOrderRun).1.fragmentList.map (·.2.begin) = [10] := by
  decide +kernel

/-- A block at 0 and one near the greatest position, moved back by `-100`: the second wraps
    around to near the least position. -/
def wrappingRun : List CacheOp :=
  [.insertBlock (RawBlock.ofSignal #[1] 0 0),
   .insertBlock (RawBlock.ofSignal #[1] 9223372036854775800 0), .rebase (-100)]

end CacheOp

end VerifiedRip
