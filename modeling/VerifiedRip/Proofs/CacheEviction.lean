import VerifiedRip.Proofs.Drift
import VerifiedRip.Proofs.SyncSearch
/-!
# What trimming and rebasing keep

`FragmentCache.trim` forgets what lies well behind the reading position, and
`FragmentCache.rebase` moves the cache back after a drift correction. Both are frame rules over
the stored entries: each entry either stays under its handle, as it was after a trim and moved
back by exactly the correction after a rebase, or is gone, and which of the two depends on the
entry alone (for a fragment under a rebase, also on the block it was cut from, as that block
stood before the rebase).

Positions are 64-bit words and the cache compares them as such. Where a position moved back by
a negative correction passes the greatest word, it wraps around to a negative one; where the
point a trim keeps from lies before the least word, it wraps around to near the greatest one.

## Main statements

* `Arena.Indexes.get?_drop_listed`: removing the listed entries that satisfy a test keeps
  exactly the live entries that fail it.
* `FragmentCache.Indexed.rebase_snd`: a rebase reports the start of every entry it releases,
  fragments first, each kind in the order of its listing.
* `FragmentCache.trim_evicts_exactly`: `TrimsExactly`, for every cache whose order lists index
  its arenas and every trim whose target does not wrap around.
* `FragmentCache.rebase_releases_exactly`: `RebasesExactly`, for every such cache and every
  correction; `FragmentCache.rebase_wraps_survivor_below_zero` shows that a survivor moved
  forward past the greatest word starts below zero.
-/

namespace VerifiedRip

namespace Arena

variable {α β : Type} {A : Arena α} {O : Array (Handle α)}

/-- Removing the handles of the listed entries that satisfy `q` keeps exactly the live values
    that fail `q`, each under its own handle. -/
theorem Indexes.get?_drop_listed (hI : Indexes A O) (q : Handle α × α → Bool) (g : Handle α) :
    ((((A.entries O).filter q).map Prod.fst).foldl (Arena.sweepStep (fun _ => true) id)
        (A, O)).1.get? g =
      (A.get? g).filter fun v => !q (g, v) := by
  rw [(hI.foldl_sweepStep _ _ _ (hI.nodup_map_fst_filter q)).2.1 g]
  have hmem : g ∈ ((A.entries O).filter q).map Prod.fst ↔ ∃ v, A.get? g = some v ∧ q (g, v) := by
    simp only [List.mem_map, List.mem_filter]
    constructor
    · rintro ⟨⟨h, v⟩, ⟨hmem, hq⟩, rfl⟩
      exact ⟨v, (mem_entries.1 hmem).2, hq⟩
    · rintro ⟨v, hv, hq⟩
      exact ⟨(g, v), ⟨mem_entries.2 ⟨(hI.mem_iff g).2 (by simp [hv]), hv⟩, hq⟩, rfl⟩
  cases hv : A.get? g with
  | none => split <;> rfl
  | some v =>
    by_cases hq : q (g, v) = true
    · rw [if_pos (hmem.2 ⟨v, hv, hq⟩)]
      simp [Option.filter, swept, hq]
    · have hn : ¬ ∃ w, A.get? g = some w ∧ q (g, w) := by
        rintro ⟨w, hw, hqw⟩
        rw [hv] at hw
        cases hw
        exact hq hqw
      rw [if_neg (mt hmem.1 hn)]
      simp [Option.filter, hq]

/-- The listed entries that pass a test on their values, mapped, as a pass over the order
    list. -/
theorem entries_filter_map (A : Arena α) (O : Array (Handle α)) (p : α → Bool) (f : α → β) :
    ((A.entries O).filter fun q => p q.2).map (fun q => f q.2) =
      O.toList.filterMap fun h => ((A.get? h).filter p).map f := by
  unfold entries
  induction O.toList with
  | nil => rfl
  | cons h hs ih =>
    cases hv : A.get? h with
    | none => simp [hv, ih]
    | some v => by_cases hp : p v <;> simp [hv, hp, ih]

end Arena

/-- A word moved back by `av` from at or after `av` is not negative exactly when the true
    difference fits a word; past that it wraps around below zero. -/
theorem Int64.sub_nonneg_iff_of_le {x av : Int64} (h : av ≤ x) :
    0 ≤ x - av ↔ x.toInt - av.toInt < 2 ^ 63 := by
  have h' := Int64.le_iff_toInt_le.mp h
  have hr := Int64.toInt_mem_range (x - av)
  have hx := Int64.toInt_mem_range x
  have ha := Int64.toInt_mem_range av
  rw [Int64.le_iff_toInt_le, Int64.toInt_zero]
  rcases Int64.toInt_sub_cases x av with hs | hs | hs <;> omega

namespace Root

/-- Dropping the samples before a point inside the root keeps the root's end. -/
theorem endPos_dropped (r : Root) (p : Int64) (hbp : r.begin ≤ p) (hfit : 0 ≤ p - r.begin)
    (hn : (p.toInt - r.begin.toInt).toNat ≤ r.size) :
    ({ r with samples := r.samples.extract (p.toInt - r.begin.toInt).toNat r.size, begin := p } :
      Root).endPos = r.endPos := by
  have hbp' := Int64.le_iff_toInt_le.mp hbp
  have hp := Int64.add_ofNat_sub p r.begin hbp' hfit
  change p + Int64.ofNat (r.samples.extract _ r.size).size = r.begin + Int64.ofNat r.size
  generalize (p.toInt - r.begin.toInt).toNat = t at hp hn ⊢
  subst hp
  rw [Array.size_extract, show min r.size r.samples.size = r.size from Nat.min_self _,
    Int64.add_assoc, ← Int64.ofNat_add, Nat.add_sub_cancel' hn]

/-- A root of fewer than `2 ^ 62` samples that reaches `minWordsOverlap` samples past a point
    after its start reaches that point by a distance that fits a word and lies inside it. -/
theorem reaches_of_le_endPos (r : Root) (p : Int64) (hsize : r.size < 2 ^ 62)
    (hp : p.toInt < 2 ^ 63 - minWordsOverlap) (hlt : r.begin < p)
    (hlong : p + Int64.ofNat minWordsOverlap ≤ r.endPos) :
    0 ≤ p - r.begin ∧ (p.toInt - r.begin.toInt).toNat < r.size := by
  have hlt' := Int64.lt_iff_toInt_lt.mp hlt
  have hmin : (Int64.ofNat minWordsOverlap).toInt = 64 := Int64.toInt_ofNat_of_lt _ (by decide)
  have hs : (Int64.ofNat r.size).toInt = r.size := Int64.toInt_ofNat_of_lt _ (by omega)
  have hb := Int64.toInt_mem_range r.begin
  have hp' := Int64.toInt_mem_range p
  have he := Int64.toInt_mem_range r.endPos
  have hd := Int64.toInt_mem_range (p - r.begin)
  have hp64 : p.toInt + 64 < 2 ^ 63 := by
    unfold minWordsOverlap at hp
    omega
  have hstop : (p + Int64.ofNat minWordsOverlap).toInt = p.toInt + 64 := by
    rw [Int64.toInt_add_of_range _ _ (by rw [hmin]; omega) (by rw [hmin]; omega), hmin]
  have hlong' := Int64.le_iff_toInt_le.mp hlong
  rw [hstop] at hlong'
  unfold endPos at he hlong'
  rw [Int64.le_iff_toInt_le, Int64.toInt_zero]
  -- the end cannot have wrapped around: the root would need more than `2 ^ 62` samples
  rcases Int64.toInt_add_cases r.begin (Int64.ofNat r.size) with he' | he' | he' <;>
    rcases Int64.toInt_sub_cases p r.begin with hs' | hs' | hs' <;>
    rw [hs] at he' <;> unfold size at * <;> omega

end Root

namespace FragmentCache

variable {c : FragmentCache}

/-! ### Trimming -/

/-- The point a trim for `beginWord` keeps from: `maxSectorOverlap` frames before it. -/
def trimTarget (beginWord : Int64) : Int64 :=
  beginWord - Int64.ofNat (maxSectorOverlap * frameWords)

/-- A target that does not wrap around lies `maxSectorOverlap` frames before the trim's position,
    so a window of `minWordsOverlap` after it does not wrap around either. -/
theorem trimTarget_toInt_lt {b : Int64} (hb : trimTarget b < b) :
    (trimTarget b).toInt < 2 ^ 63 - minWordsOverlap := by
  have ht := Int64.toInt_sub_of_lt _ _ (by decide) hb
  have hbmax := Int64.toInt_mem_range b
  rw [show (Int64.ofNat (maxSectorOverlap * frameWords)).toInt = 37632 from
    Int64.toInt_ofNat_of_lt _ (by decide)] at ht
  unfold trimTarget minWordsOverlap
  omega

/-- A trim keeps exactly the stored blocks that end at or after its target, each unchanged under
    its handle. -/
theorem Indexed.block?_trim (hc : c.Indexed) (b e : Int64) (g : Handle RawBlock) :
    (c.trim b e).block? g = (c.block? g).filter fun v => trimTarget b ≤ v.endPos := by
  unfold block?
  rw [show (c.trim b e).blocks = _ from congrArg Prod.fst (c.trim_blocks b e), blockList_eq_entries,
    hc.blocks.get?_drop_listed]
  simp only [trimTarget, ← decide_not, Int64.not_lt]
  rfl

/-- A trim keeps exactly the stored fragments that end at or after its target, each unchanged
    under its handle. -/
theorem Indexed.fragment?_trim (hc : c.Indexed) (b e : Int64) (g : Handle Fragment) :
    (c.trim b e).fragment? g = (c.fragment? g).filter fun v => trimTarget b ≤ v.endPos := by
  unfold fragment?
  rw [show (c.trim b e).fragments = _ from congrArg Prod.fst (c.trim_fragments b e),
    fragmentList_eq_entries, hc.fragments.get?_drop_listed]
  simp only [trimTarget, ← decide_not, Int64.not_lt]
  rfl

/-- A trim leaves the root alone when the root is empty or starts at or after the target. -/
theorem trim_root_of_stays (b e : Int64)
    (h : c.root.isEmpty = true ∨ trimTarget b ≤ c.root.begin) :
    (c.trim b e).root = c.root := by
  rw [trim_root]
  dsimp only
  rw [if_neg]
  rintro ⟨hne, -, hlt⟩
  rcases h with h | h
  · simp [h] at hne
  · exact absurd hlt (Int64.not_lt.mpr h)

/-- A trim clears a root that starts before the target and ends less than `minWordsOverlap`
    past it, provided the target does not wrap around. -/
theorem trim_root_of_short (b e : Int64) (hb : trimTarget b < b) (hne : c.root.isEmpty = false)
    (hlt : c.root.begin < trimTarget b)
    (hshort : c.root.endPos < trimTarget b + Int64.ofNat minWordsOverlap) :
    (c.trim b e).root = {} := by
  unfold trimTarget at hb hlt hshort
  rw [trim_root]
  dsimp only
  rw [if_pos ⟨by simp [hne], Int64.lt_trans hlt hb, hlt⟩, if_pos hshort]

/-- A trim cuts a root that starts before the target and reaches `minWordsOverlap` past it down to
    its samples from the target on, provided the target does not wrap around. -/
theorem trim_root_of_long (b e : Int64) (hb : trimTarget b < b) (hsize : c.root.size < 2 ^ 62)
    (hne : c.root.isEmpty = false) (hlt : c.root.begin < trimTarget b)
    (hlong : trimTarget b + Int64.ofNat minWordsOverlap ≤ c.root.endPos) :
    (c.trim b e).root =
      { c.root with
        samples :=
          c.root.samples.extract ((trimTarget b).toInt - c.root.begin.toInt).toNat c.root.size
        begin := trimTarget b } := by
  have hT := trimTarget_toInt_lt hb
  obtain ⟨hfit, hin⟩ := c.root.reaches_of_le_endPos _ hsize hT hlt hlong
  have hdrop := c.root.dropBefore_of_lt_size _ (Int64.le_of_lt hlt) hfit hin
  unfold trimTarget at hb hlt hlong hdrop ⊢
  rw [trim_root]
  dsimp only
  rw [if_pos ⟨by simp [hne], Int64.lt_trans hlt hb, hlt⟩, if_neg (Int64.not_lt.mpr hlong)]
  exact hdrop

/-! ### Rebasing -/

/-- The fragments a rebase releases: those that, or whose source block, start before `av`. -/
theorem releasesFragment_iff (av : Int64) (f : Fragment) :
    releasesFragment av c.blocks f = true ↔
      f.begin < av ∨ ∃ h b, f.source = some h ∧ c.block? h = some b ∧ b.begin < av := by
  cases hs : f.source with
  | none => simp [releasesFragment, hs]
  | some h => cases hb : c.blocks.get? h <;> simp [releasesFragment, hs, block?, hb]

/-- One fragment's step of a rebase reports the fragment's start when it releases it. -/
theorem rebaseFragment_snd (av : Int64) (c : FragmentCache) (rel : List Int64)
    (h : Handle Fragment) :
    (rebaseFragment av (c, rel) h).2 =
      rel ++ (((c.fragment? h).filter (releasesFragment av c.blocks)).map (·.begin)).toList := by
  unfold rebaseFragment
  cases hv : c.fragments.get? h with
  | none => simp [fragment?, hv]
  | some f =>
    have hrel : (f.begin < av ∨ ((f.source.bind c.block?).map (·.begin)).any (· < av)) ↔
        releasesFragment av c.blocks f = true := by
      simp only [releasesFragment, Bool.or_eq_true, decide_eq_true_eq]
      rfl
    simp only [fragment?, hv]
    by_cases hd : releasesFragment av c.blocks f = true
    · rw [if_pos (hrel.2 hd)]
      simp [Option.filter, hd]
    · rw [if_neg (mt hrel.1 hd)]
      simp [Option.filter, hd]

/-- One block's step of a rebase reports the block's start when it releases it. -/
theorem rebaseBlock_snd (av : Int64) (c : FragmentCache) (rel : List Int64)
    (h : Handle RawBlock) :
    (rebaseBlock av (c, rel) h).2 =
      rel ++ (((c.block? h).filter fun b => decide (b.begin < av)).map (·.begin)).toList := by
  unfold rebaseBlock
  cases hv : c.blocks.get? h with
  | none => simp [block?, hv]
  | some b => by_cases hd : b.begin < av <;> simp [block?, hv, hd, Option.filter]

/-- The fragment half of a rebase over distinct handles reports, in their order, the start of
    each fragment it releases; the fragments it has passed are the only ones it changed. -/
theorem foldl_rebaseFragment_snd (av : Int64) (hs : List (Handle Fragment)) (hnd : hs.Nodup)
    (c : FragmentCache) (rel : List Int64) :
    (hs.foldl (rebaseFragment av) (c, rel)).2 =
      rel ++ hs.filterMap fun h =>
        ((c.fragment? h).filter (releasesFragment av c.blocks)).map (·.begin) := by
  induction hs generalizing c rel with
  | nil => simp
  | cons h t ih =>
    rw [List.nodup_cons] at hnd
    rw [List.foldl_cons, ← Prod.eta (rebaseFragment av (c, rel) h), ih hnd.2, rebaseFragment_snd,
      rebaseFragment_fst, List.filterMap_cons]
    -- the step at `h` changed no fragment that the rest of the pass visits, and no block
    have hrest : ∀ g ∈ t, (Arena.sweepStep (releasesFragment av c.blocks) (·.shift av)
        (c.fragments, c.fragmentOrder) h).1.get? g = c.fragment? g := by
      intro g hg
      rw [Arena.get?_sweepStep, if_neg (fun e : g = h => hnd.1 (e ▸ hg))]
      rfl
    rw [List.filterMap_congr fun g hg => by rw [fragment?, hrest g hg]]
    cases ((c.fragment? h).filter (releasesFragment av c.blocks)).map (·.begin) <;> simp

/-- The block half of a rebase over distinct handles reports, in their order, the start of each
    block it releases. -/
theorem foldl_rebaseBlock_snd (av : Int64) (hs : List (Handle RawBlock)) (hnd : hs.Nodup)
    (c : FragmentCache) (rel : List Int64) :
    (hs.foldl (rebaseBlock av) (c, rel)).2 =
      rel ++ hs.filterMap fun h =>
        ((c.block? h).filter fun b => decide (b.begin < av)).map (·.begin) := by
  induction hs generalizing c rel with
  | nil => simp
  | cons h t ih =>
    rw [List.nodup_cons] at hnd
    rw [List.foldl_cons, ← Prod.eta (rebaseBlock av (c, rel) h), ih hnd.2, rebaseBlock_snd,
      rebaseBlock_fst, List.filterMap_cons]
    have hrest : ∀ g ∈ t, (Arena.sweepStep (fun b => decide (b.begin < av)) (·.shift av)
        (c.blocks, c.blockOrder) h).1.get? g = c.block? g := by
      intro g hg
      rw [Arena.get?_sweepStep, if_neg (fun e : g = h => hnd.1 (e ▸ hg))]
      rfl
    rw [List.filterMap_congr fun g hg => by rw [block?, hrest g hg]]
    cases ((c.block? h).filter fun b => decide (b.begin < av)).map (·.begin) <;> simp

/-- A rebase reports the start of every entry it releases: the fragments first, in the order of
    their listing, then the blocks, in the order of theirs. -/
theorem Indexed.rebase_snd (hc : c.Indexed) (av : Int64) :
    (c.rebase av).2 =
      (c.fragmentList.filter fun q => releasesFragment av c.blocks q.2).map (·.2.begin) ++
        (c.blockList.filter fun q => decide (q.2.begin < av)).map (·.2.begin) := by
  unfold rebase
  rw [← Array.foldl_toList, ← Array.foldl_toList,
    ← Prod.eta (c.fragmentOrder.toList.foldl (rebaseFragment av) (c, [])),
    foldl_rebaseFragment c av _ [], foldl_rebaseBlock_snd av _ hc.blocks.nodup,
    foldl_rebaseFragment_snd av _ hc.fragments.nodup, List.nil_append]
  congr 1
  · exact (Arena.entries_filter_map c.fragments c.fragmentOrder _ Fragment.begin).symm
  · exact (Arena.entries_filter_map c.blocks c.blockOrder (fun b => decide (b.begin < av))
      RawBlock.begin).symm

/-- A stored fragment is released by a rebase, or moved back by it under its handle. -/
theorem Indexed.fragment?_rebase_of_some (hc : c.Indexed) (av : Int64) {g : Handle Fragment}
    {f : Fragment} (hf : c.fragment? g = some f) :
    (c.rebase av).1.fragment? g =
      if releasesFragment av c.blocks f then none else some { f with begin := f.begin - av } := by
  rw [hc.fragment?_rebase av g, hf, Option.bind_some, Arena.swept]
  rfl

/-- A stored block is released by a rebase, or moved back by it under its handle. -/
theorem Indexed.block?_rebase_of_some (hc : c.Indexed) (av : Int64) {g : Handle RawBlock}
    {b : RawBlock} (hb : c.block? g = some b) :
    (c.rebase av).1.block? g =
      if b.begin < av then none else some { b with begin := b.begin - av } := by
  rw [hc.block?_rebase av g, hb, Option.bind_some, Arena.swept]
  by_cases hd : b.begin < av
  · rw [if_pos (decide_eq_true hd), if_pos hd]
  · rw [if_neg (by simpa using hd), if_neg hd]
    rfl

/-! ### What a trim and a rebase promise -/

/-- What a trim for the position `b` promises of cache `c`. It keeps exactly the blocks and
    fragments that end at or after its target, each unchanged under its handle. It leaves the root
    alone when the root is empty or starts at or after the target, and clears a root that ends
    less than `minWordsOverlap` past the target. Any other root keeps its end and every sample from
    the target on, and starts at the target. -/
structure TrimsExactly (c : FragmentCache) (b e : Int64) : Prop where
  block?_eq : ∀ g, (c.trim b e).block? g = (c.block? g).filter fun v => trimTarget b ≤ v.endPos
  fragment?_eq : ∀ g,
    (c.trim b e).fragment? g = (c.fragment? g).filter fun v => trimTarget b ≤ v.endPos
  root_of_stays : c.root.isEmpty = true ∨ trimTarget b ≤ c.root.begin → (c.trim b e).root = c.root
  root_of_short : c.root.isEmpty = false → c.root.begin < trimTarget b →
    c.root.endPos < trimTarget b + Int64.ofNat minWordsOverlap → (c.trim b e).root = {}
  root_of_long : c.root.isEmpty = false → c.root.begin < trimTarget b →
    trimTarget b + Int64.ofNat minWordsOverlap ≤ c.root.endPos →
    (c.trim b e).root =
      { c.root with
        samples := c.root.samples.extract ((trimTarget b).toInt - c.root.begin.toInt).toNat c.root.size
        begin := trimTarget b } ∧
    (c.trim b e).root.endPos = c.root.endPos

/-- A trim evicts exactly the stale entries and cuts the root at its target, for every cache whose
    order lists index its arenas (every cache the operations build) and whose root holds fewer
    than `2 ^ 62` samples (every root a 64-bit address space holds), whenever the target does not
    wrap around. -/
theorem trim_evicts_exactly (hc : c.Indexed) (hsize : c.root.size < 2 ^ 62) (b e : Int64)
    (hb : trimTarget b < b) : c.TrimsExactly b e where
  block?_eq := hc.block?_trim b e
  fragment?_eq := hc.fragment?_trim b e
  root_of_stays := trim_root_of_stays b e
  root_of_short := trim_root_of_short b e hb
  root_of_long hne hlt hlong := by
    refine ⟨trim_root_of_long b e hb hsize hne hlt hlong, ?_⟩
    have hT := trimTarget_toInt_lt hb
    obtain ⟨hfit, hin⟩ := c.root.reaches_of_le_endPos _ hsize hT hlt hlong
    rw [trim_root_of_long b e hb hsize hne hlt hlong]
    exact c.root.endPos_dropped _ (Int64.le_of_lt hlt) hfit (Nat.le_of_lt hin)

/-- A block of one frame at position 0 and one a hundred frames later, beside a root of two hundred
    frames of silence at position 0. -/
def staleCache : FragmentCache :=
  { (CacheOp.replay ({}, {}) [.insertBlock (.ofSignal (Signal.zeros frameWords) 0 0),
      .insertBlock (.ofSignal (Signal.zeros frameWords) (Int64.ofNat (100 * frameWords)) 0)]).1 with
    root := Root.set (Signal.zeros (200 * frameWords)) 0 0 }

/-- Trimming for frame 150 evicts the first block and cuts the root at frame 118. -/
theorem trim_evicts_exactly_staleCache :
    staleCache.Indexed ∧ staleCache.root.size < 2 ^ 62 ∧
      trimTarget (Int64.ofNat (150 * frameWords)) < Int64.ofNat (150 * frameWords) ∧
      staleCache.TrimsExactly (Int64.ofNat (150 * frameWords)) 0 :=
  have hc : staleCache.Indexed :=
    let h := Indexed.empty.replay {} [.insertBlock (.ofSignal (Signal.zeros frameWords) 0 0),
      .insertBlock (.ofSignal (Signal.zeros frameWords) (Int64.ofNat (100 * frameWords)) 0)]
    ⟨h.blocks, h.fragments⟩
  have hsize : staleCache.root.size < 2 ^ 62 := by
    simp [staleCache, Root.set, Root.size, Signal.zeros, frameWords]
  ⟨hc, hsize, by decide, trim_evicts_exactly hc hsize _ 0 (by decide)⟩

/-- One sample at position 0, beside a root of ten samples at position 0. -/
def originCache : FragmentCache :=
  { (CacheOp.replay ({}, {}) [.insertBlock (.ofSignal #[1] 0 0)]).1 with
    root := Root.set (Signal.zeros 10) 0 0 }

/-- Trimming for the least word: the target wraps around to near the greatest word, the block
    that ends at 1 is evicted all the same, and the root, which starts before the target and ends
    well short of it, is left as it was. -/
theorem trim_of_wrapped_target :
    trimTarget Int64.minValue = 9223372036854738176 ∧
      (originCache.block? ⟨0, 0⟩).map RawBlock.endPos = some 1 ∧
      (originCache.trim Int64.minValue 0).block? ⟨0, 0⟩ = none ∧
      originCache.root.begin < trimTarget Int64.minValue ∧
      originCache.root.endPos < trimTarget Int64.minValue + Int64.ofNat minWordsOverlap ∧
      (originCache.trim Int64.minValue 0).root = originCache.root :=
  ⟨by decide, by decide, by decide +kernel, by decide, by decide,
    trim_root_of_le_begin _ _ _ (by decide)⟩

/-- What a rebase by `av` promises of cache `c`. A fragment is released when it, or the block it
    was cut from, starts before `av`, and a block when it starts before `av`. Every other entry
    stays under its handle, moved back by `av` with nothing else changed, and no entry appears.
    The rebase reports the start of every entry gone after it, fragments first, each kind in the
    order of its listing: as many reports as entries released. A fragment that stays still finds
    the block it was cut from, at the same distance. A survivor starts at or after zero exactly
    when its true distance back does not pass the greatest word. -/
structure RebasesExactly (c : FragmentCache) (av : Int64) : Prop where
  fragment?_eq_none_iff : ∀ g f, c.fragment? g = some f →
    ((c.rebase av).1.fragment? g = none ↔
      f.begin < av ∨ ∃ h b, f.source = some h ∧ c.block? h = some b ∧ b.begin < av)
  fragment?_of_kept : ∀ g f, c.fragment? g = some f → av ≤ f.begin →
    (∀ h b, f.source = some h → c.block? h = some b → av ≤ b.begin) →
    (c.rebase av).1.fragment? g = some { f with begin := f.begin - av }
  block?_eq : ∀ g b, c.block? g = some b →
    (c.rebase av).1.block? g = if b.begin < av then none else some { b with begin := b.begin - av }
  fragment?_of_none : ∀ g, c.fragment? g = none → (c.rebase av).1.fragment? g = none
  block?_of_none : ∀ g, c.block? g = none → (c.rebase av).1.block? g = none
  released_eq : (c.rebase av).2 =
    (c.fragmentList.filter fun q => ((c.rebase av).1.fragment? q.1).isNone).map (·.2.begin) ++
      (c.blockList.filter fun q => ((c.rebase av).1.block? q.1).isNone).map (·.2.begin)
  source_kept : ∀ g f f' h b, c.fragment? g = some f → f.source = some h → c.block? h = some b →
    (c.rebase av).1.fragment? g = some f' →
    ∃ b', (c.rebase av).1.block? h = some b' ∧ f'.begin - b'.begin = f.begin - b.begin
  fragment_nonneg_iff : ∀ g f f', c.fragment? g = some f → (c.rebase av).1.fragment? g = some f' →
    (0 ≤ f'.begin ↔ f.begin.toInt - av.toInt < 2 ^ 63)
  block_nonneg_iff : ∀ g b b', c.block? g = some b → (c.rebase av).1.block? g = some b' →
    (0 ≤ b'.begin ↔ b.begin.toInt - av.toInt < 2 ^ 63)

/-- A survivor of a rebase is the stored entry moved back, and did not start before `av`. -/
theorem Indexed.fragment_survives (hc : c.Indexed) {av : Int64} {g : Handle Fragment}
    {f f' : Fragment} (hf : c.fragment? g = some f) (hf' : (c.rebase av).1.fragment? g = some f') :
    f' = { f with begin := f.begin - av } ∧ av ≤ f.begin ∧
      ∀ h b, f.source = some h → c.block? h = some b → av ≤ b.begin := by
  rw [hc.fragment?_rebase_of_some av hf] at hf'
  split at hf'
  · cases hf'
  · next hkeep =>
    have hkeep' := mt (releasesFragment_iff av f).2 hkeep
    refine ⟨(Option.some.inj hf').symm, Int64.not_lt.mp fun h => hkeep' (Or.inl h), ?_⟩
    intro h b hs hb
    exact Int64.not_lt.mp fun hlt => hkeep' (Or.inr ⟨h, b, hs, hb, hlt⟩)

theorem Indexed.block_survives (hc : c.Indexed) {av : Int64} {g : Handle RawBlock}
    {b b' : RawBlock} (hb : c.block? g = some b) (hb' : (c.rebase av).1.block? g = some b') :
    b' = { b with begin := b.begin - av } ∧ av ≤ b.begin := by
  rw [hc.block?_rebase_of_some av hb] at hb'
  split at hb'
  · cases hb'
  · next hkeep => exact ⟨(Option.some.inj hb').symm, Int64.not_lt.mp hkeep⟩

/-- A rebase releases exactly the entries that would start before zero and moves every other
    one back by exactly the correction, for every cache whose order lists index its arenas and
    every correction, in the wrapping arithmetic of positions. -/
theorem rebase_releases_exactly (hc : c.Indexed) (av : Int64) : c.RebasesExactly av where
  fragment?_eq_none_iff _ f hf := by
    rw [hc.fragment?_rebase_of_some av hf, ← releasesFragment_iff]
    cases releasesFragment av c.blocks f <;> simp
  fragment?_of_kept _ f hf hle hlinked := by
    rw [hc.fragment?_rebase_of_some av hf, if_neg]
    intro hr
    rcases (releasesFragment_iff av f).1 hr with hlt | ⟨h, b, hs, hb, hlt⟩
    · exact absurd hlt (Int64.not_lt.mpr hle)
    · exact absurd hlt (Int64.not_lt.mpr (hlinked h b hs hb))
  block?_eq _ _ hb := hc.block?_rebase_of_some av hb
  fragment?_of_none g hg := by rw [hc.fragment?_rebase av g, hg]; rfl
  block?_of_none g hg := by rw [hc.block?_rebase av g, hg]; rfl
  released_eq := by
    rw [hc.rebase_snd av]
    -- a listed entry is reported exactly when the rebase releases it
    congr 2
    · refine List.filter_congr fun q hq => ?_
      have hf : c.fragment? q.1 = some q.2 := (hc.listsLive.2.mem_iff q.1 q.2).1 hq
      rw [hc.fragment?_rebase_of_some av hf]
      cases releasesFragment av c.blocks q.2 <;> rfl
    · refine List.filter_congr fun q hq => ?_
      have hb : c.block? q.1 = some q.2 := (hc.listsLive.1.mem_iff q.1 q.2).1 hq
      rw [hc.block?_rebase av q.1, hb, Option.bind_some, Arena.swept]
      by_cases hd : q.2.begin < av <;> simp [hd]
  source_kept g f f' h b hf hs hb hf' := by
    obtain ⟨rfl, -, hlinked⟩ := hc.fragment_survives hf hf'
    refine ⟨{ b with begin := b.begin - av }, ?_, by grind⟩
    rw [hc.block?_rebase_of_some av hb, if_neg (Int64.not_lt.mpr (hlinked h b hs hb))]
  fragment_nonneg_iff g f f' hf hf' := by
    obtain ⟨rfl, hle, -⟩ := hc.fragment_survives hf hf'
    exact Int64.sub_nonneg_iff_of_le hle
  block_nonneg_iff g b b' hb hb' := by
    obtain ⟨rfl, hle⟩ := hc.block_survives hb hb'
    exact Int64.sub_nonneg_iff_of_le hle

/-- Blocks of ten samples at 50 and at 1000, with fragments at 1000 (cut from the first block),
    2000 and 10. -/
def linkedCache : FragmentCache :=
  (CacheOp.replay ({}, {})
    [.insertBlock (.ofSignal (Signal.zeros 10) 50 0),
      .insertBlock (.ofSignal (Signal.zeros 10) 1000 0),
      .insertFragment ⟨Signal.zeros 4, 1000, 0, some ⟨0, 0⟩, 0⟩,
      .insertFragment ⟨Signal.zeros 4, 2000, 0, none, 0⟩,
      .insertFragment ⟨Signal.zeros 4, 10, 0, none, 0⟩]).1

/-- A correction of 128 releases the block at 50, the fragment cut from it and the fragment at
    10, and moves the rest back. -/
theorem rebase_releases_exactly_linkedCache :
    linkedCache.Indexed ∧ linkedCache.RebasesExactly 128 :=
  have hc : linkedCache.Indexed := Indexed.empty.replay {} _
  ⟨hc, rebase_releases_exactly hc 128⟩

/-- One sample at eight below the greatest word. -/
def topCache : FragmentCache :=
  (CacheOp.replay ({}, {}) [.insertBlock (.ofSignal #[1] 9223372036854775800 0)]).1

/-- A correction of -100 keeps the block at eight below the greatest word, which does not start
    before it, and moves it forward past the greatest word: it wraps around to below zero. -/
theorem rebase_wraps_survivor_below_zero :
    (topCache.block? ⟨0, 0⟩).map RawBlock.begin = some 9223372036854775800 ∧
      ((topCache.rebase (-100)).1.block? ⟨0, 0⟩).map RawBlock.begin = some (-9223372036854775716) :=
  ⟨by decide, by decide +kernel⟩

end FragmentCache

end VerifiedRip
