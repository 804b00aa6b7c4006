import VerifiedRip.Proofs.SessionRuns
/-!
# The drift is applied uniformly

Positions in the cache are disc positions less the drift. A raw block read at sector `n` is stored
at `n * frameWords - drift`. When stage two finds the fragments lining up with the root at a steady
offset, the tracker adds a correction `av` to the drift and, in the same count, moves every stored
fragment and block back by `av`, releasing those that would start before zero.

So the drift is applied uniformly: every stored block, once the drift is added back, starts at
the nominal position of its first sector (`BlocksPlaced`), and no step changes the start plus
the drift of a fragment it keeps (`FragmentsAnchored`), which is therefore the value the
fragment had when it was stored.

## Main definitions

- `RawBlock.Placed b drift` — `b.begin + drift` is the nominal position of the block's first
  sector.
- `Session.Repositions s t` — what a step does to stored positions.
- `Session.BlocksPlaced`, `Session.FragmentsAnchored` — the two invariants.

## Main statements

- `FragmentCache.Indexed.block?_rebase`, `FragmentCache.Indexed.fragment?_rebase`: a rebase
  moves each stored entry back by `av` or releases it.
- `SessionStep.repositions`: from a well-formed session, a step either keeps the drift and only
  removes entries, stores a block placed by the drift or stores a fragment under a fresh handle,
  or corrects the drift by some `av` and moves every entry it keeps back by that `av`.
- `drift_applied_uniformly`.

## Design notes

A block's last sector is the 32-bit sum `sector + count - 1`. It does not wrap because a block
holds no more sectors than the range has from `sector` on, and the range spans fewer than
`2 ^ 31 - 1` sectors (`Drive.RangeFits`). On a wider range the cap `last - sector + 1` itself
wraps, a batch asks for the whole readahead, and a readahead of `2 ^ 31` sectors or more carries
the last sector past the greatest sector word, so the bound is needed.
-/

namespace VerifiedRip

/-! ### Sector arithmetic -/

theorem Int32.toInt_add_ofNat_sub_one {b : Int32} {n : Nat} (hn : 0 < n) (hn' : n < 2 ^ 31)
    (h : b.toInt + n - 1 ≤ Int32.maxValue.toInt) :
    (b + Int32.ofNat n - 1).toInt = b.toInt + n - 1 := by
  have hb := Int32.le_toInt b
  have hmax := Int32.toInt_maxValue
  have hmin := Int32.toInt_minValue
  rw [Int32.toInt_sub, Int32.toInt_add, Int32.toInt_ofNat_of_lt hn']
  simp only [Int.bmod, Int32.toInt_one]
  split <;> split <;> omega

theorem Int32.toInt64_add_ofNat_sub_one {b : Int32} {n : Nat} (hn : 0 < n) (hn' : n < 2 ^ 31)
    (h : b.toInt + n - 1 ≤ Int32.maxValue.toInt) :
    (b + Int32.ofNat n - 1).toInt64 = b.toInt64 + Int64.ofNat n - 1 := by
  have hb := Int32.le_toInt b
  have hmax := Int32.toInt_maxValue
  have hmin := Int32.toInt_minValue
  apply Int64.toInt_inj.1
  rw [Int32.toInt_toInt64, Int32.toInt_add_ofNat_sub_one hn hn' h, Int64.toInt_sub,
    Int64.toInt_add, Int32.toInt_toInt64, Int64.toInt_ofNat']
  simp only [Int.bmod, Int64.toInt_one, Int64.size]
  split <;> split <;> split <;> omega

theorem Sector.toCount_of_nonneg {x : Sector} (h : 0 ≤ x.toInt) : x.toCount = x.toInt.toNat := by
  unfold Sector.toCount
  rw [Int64.toNat_toUInt64_of_le (Int64.le_iff_toInt_le.2 (by simpa using h))]
  simp [Int64.toNatClampNeg]

/-- The number of sectors from `sector` to `last` as a sector word: the number itself while it
    fits, `2 ^ 32` less once it passes the greatest word. -/
theorem Sector.toInt_sub_add_one {sector last : Sector} (h : sector ≤ last) :
    (last - sector + 1).toInt =
      if last.toInt - sector.toInt < Int32.maxValue.toInt then last.toInt - sector.toInt + 1
      else last.toInt - sector.toInt + 1 - 2 ^ 32 := by
  have hb := Int32.le_toInt sector
  have hl := Int32.toInt_le last
  have hmax := Int32.toInt_maxValue
  have hmin := Int32.toInt_minValue
  rw [Int32.le_iff_toInt_le] at h
  rw [Int32.toInt_add, Int32.toInt_sub]
  simp only [Int.bmod, Int32.toInt_one]
  split <;> split <;> split <;> omega

/-- The sectors from `sector` to `last`, counted as a 64-bit word, when their number fits a
    32-bit word. -/
theorem Sector.toCount_sub_add_one {sector last : Sector} (h : sector ≤ last)
    (hfit : last.toInt - sector.toInt < Int32.maxValue.toInt) :
    (last - sector + 1).toCount = (last.toInt - sector.toInt + 1).toNat := by
  have e := Sector.toInt_sub_add_one h
  rw [if_pos hfit] at e
  rw [toCount_of_nonneg (by rw [Int32.le_iff_toInt_le] at h; omega), e]

theorem Signal.size_ofBytes (b : ByteArray) : (Signal.ofBytes b).size = b.size / 2 := by
  simp [Signal.ofBytes]

/-- The drive's audio range spans fewer than `2 ^ 31 - 1` sectors, so that a count of its
    sectors fits a 32-bit word. -/
def Drive.RangeFits {σ : Type} (d : Drive σ) : Prop :=
  d.lastSector.toInt - d.firstSector.toInt < Int32.maxValue.toInt

instance {σ : Type} (d : Drive σ) : Decidable d.RangeFits := inferInstanceAs (Decidable (_ < _))

/-! ### Placed blocks -/

namespace RawBlock

/-- Block `b`, moved on by `drift`, starts at the nominal position of its first sector: the
    block ends with sector `b.lastSector`, and its first sample lies `b.size` samples before that
    sector's end. -/
def Placed (b : RawBlock) (drift : Int64) : Prop :=
  b.begin + drift = Int64.ofNat frameWords * (b.lastSector.toInt64 + 1) - Int64.ofNat b.size

theorem shift_zero (b : RawBlock) : b.shift 0 = b := by
  cases b
  simp [shift]

/-- Moving a block back by `av` and the drift on by `av` keeps it placed. -/
theorem Placed.shift {b : RawBlock} {drift : Int64} (h : b.Placed drift) (av : Int64) :
    (b.shift av).Placed (drift + av) := by
  have e : (b.shift av).begin + (drift + av) = b.begin + drift := by
    simp only [RawBlock.shift]
    grind
  exact e.trans h

/-- A block of whole sectors read at `sector`, stored where `drift` puts `sector`, is placed by
    `drift`, when its last sector does not wrap. -/
theorem placed_ofBytes {sector : Sector} {bytes : ByteArray} (drift : Int64)
    (hwhole : bytes.size % sectorBytes = 0) (hpos : 0 < bytes.size / sectorBytes)
    (hn : bytes.size / sectorBytes < 2 ^ 31)
    (hfit : sector.toInt + (bytes.size / sectorBytes : Nat) - 1 ≤ Int32.maxValue.toInt) :
    (RawBlock.ofSignal (Signal.ofBytes bytes) (sector.toInt64 * Int64.ofNat frameWords - drift)
      (sector + Int32.ofNat (bytes.size / sectorBytes) - 1)).Placed drift := by
  have e : sectorBytes = 2352 := rfl
  have hsize : bytes.size / 2 = frameWords * (bytes.size / sectorBytes) := by
    rw [e] at hwhole ⊢
    unfold frameWords
    omega
  unfold Placed
  simp only [ofSignal, size]
  rw [Int32.toInt64_add_ofNat_sub_one hpos hn hfit, Signal.size_ofBytes, hsize, Int64.ofNat_mul]
  grind

end RawBlock

theorem Fragment.shift_zero (f : Fragment) : f.shift 0 = f := by
  cases f
  simp [Fragment.shift]

/-! ### What each cache operation does to stored entries -/

/-- A handle that finds a value after a pass that drops every value it meets found that value
    before. -/
theorem Arena.get?_of_foldl_drop {α : Type} {A : Arena α} {O : Array (Handle α)}
    (hI : A.Indexes O) {hs : List (Handle α)} (hnd : hs.Nodup) {g : Handle α} {v : α}
    (h : (hs.foldl (Arena.sweepStep (fun _ => true) id) (A, O)).1.get? g = some v) :
    A.get? g = some v := by
  rw [(hI.foldl_sweepStep _ _ hs hnd).2.1 g] at h
  split at h
  · simp [Option.bind_eq_some_iff, Arena.swept] at h
  · exact h

namespace FragmentCache

variable {c : FragmentCache}

/-- A handle of an arena that its order list does not hold finds nothing. -/
private theorem get?_eq_none_of_not_mem {α : Type} {A : Arena α} {O : Array (Handle α)}
    (hI : A.Indexes O) {g : Handle α} (hg : g ∉ O.toList) : A.get? g = none := by
  cases hv : A.get? g with
  | none => rfl
  | some v => exact absurd ((hI.mem_iff g).2 (by simp [hv])) hg

/-- A rebase by `av` moves each stored block back by `av`, or releases it if it starts before
    `av`. -/
theorem Indexed.block?_rebase (hc : c.Indexed) (av : Int64) (g : Handle RawBlock) :
    (c.rebase av).1.block? g =
      (c.block? g).bind (Arena.swept (fun b => decide (b.begin < av)) (·.shift av)) := by
  rw [rebase_fst]
  unfold block?
  rw [(hc.blocks.foldl_sweepStep _ _ _ hc.blocks.nodup).2.1 g]
  split
  · rfl
  · next hg => rw [get?_eq_none_of_not_mem hc.blocks hg]; rfl

/-- A rebase by `av` moves each stored fragment back by `av`, or releases it if it, or the block
    it was cut from, starts before `av`. -/
theorem Indexed.fragment?_rebase (hc : c.Indexed) (av : Int64) (g : Handle Fragment) :
    (c.rebase av).1.fragment? g =
      (c.fragment? g).bind (Arena.swept (releasesFragment av c.blocks) (·.shift av)) := by
  rw [rebase_fst]
  unfold fragment?
  rw [(hc.fragments.foldl_sweepStep _ _ _ hc.fragments.nodup).2.1 g]
  split
  · rfl
  · next hg => rw [get?_eq_none_of_not_mem hc.fragments hg]; rfl

theorem block?_removeFragment (h : Handle Fragment) (g : Handle RawBlock) :
    (c.removeFragment h).1.block? g = c.block? g := by
  rw [removeFragment_fst]
  rfl

theorem fragment?_of_removeFragment {h g : Handle Fragment} {f : Fragment}
    (hf : (c.removeFragment h).1.fragment? g = some f) : c.fragment? g = some f := by
  rw [removeFragment_fst] at hf
  unfold fragment? at hf ⊢
  rw [Arena.get?_sweepStep] at hf
  split at hf
  · simp [Option.bind_eq_some_iff, Arena.swept] at hf
  · exact hf

theorem Indexed.block?_of_trim (hc : c.Indexed) {b e : Int64} {g : Handle RawBlock} {v : RawBlock}
    (h : (c.trim b e).block? g = some v) : c.block? g = some v := by
  unfold block? at h ⊢
  rw [show (c.trim b e).blocks = _ from congrArg Prod.fst (c.trim_blocks b e)] at h
  exact Arena.get?_of_foldl_drop hc.blocks (hc.blocks.nodup_map_fst_filter _) h

theorem Indexed.fragment?_of_trim (hc : c.Indexed) {b e : Int64} {g : Handle Fragment}
    {v : Fragment} (h : (c.trim b e).fragment? g = some v) : c.fragment? g = some v := by
  unfold fragment? at h ⊢
  rw [show (c.trim b e).fragments = _ from congrArg Prod.fst (c.trim_fragments b e)] at h
  exact Arena.get?_of_foldl_drop hc.fragments (hc.fragments.nodup_map_fst_filter _) h

theorem block?_resetAll (g : Handle RawBlock) : c.resetAll.block? g = none :=
  Arena.get?_clear _ g

theorem fragment?_resetAll (g : Handle Fragment) : c.resetAll.fragment? g = none :=
  Arena.get?_clear _ g

end FragmentCache

/-! ### What a step does to stored positions -/

namespace Session

variable {σ : Type}

/-- Every stored block lies where the drift puts its sectors. -/
def BlocksPlaced (s : Session σ) : Prop :=
  ∀ g b, s.cache.block? g = some b → b.Placed s.tracker.drift

/-- From `s` to `t`, every fragment stored in both keeps its start plus the drift. -/
def FragmentsAnchored (s t : Session σ) : Prop :=
  ∀ g f f', s.cache.fragment? g = some f → t.cache.fragment? g = some f' →
    f'.begin + t.tracker.drift = f.begin + s.tracker.drift

/-- What a step does to stored positions. For some correction `av`, zero when the drift is not
    corrected, the drift grows by `av`; a block stored after the step is one stored before, moved
    back by `av`, or lies where the new drift puts its sectors; a fragment stored after the step is
    one stored before, moved back by `av`, or one under a handle that found nothing before. -/
def Repositions (s t : Session σ) : Prop :=
  ∃ av, t.tracker.drift = s.tracker.drift + av ∧
    (∀ g b, t.cache.block? g = some b →
      (∃ b₀, s.cache.block? g = some b₀ ∧ b = b₀.shift av) ∨ b.Placed t.tracker.drift) ∧
    (∀ g f, t.cache.fragment? g = some f →
      (∃ f₀, s.cache.fragment? g = some f₀ ∧ f = f₀.shift av) ∨ s.cache.fragment? g = none)

/-- A step that keeps the drift and only removes entries repositions nothing. -/
theorem Repositions.of_keeps {s t : Session σ} (hd : t.tracker.drift = s.tracker.drift)
    (hb : ∀ g b, t.cache.block? g = some b → s.cache.block? g = some b)
    (hf : ∀ g f, t.cache.fragment? g = some f → s.cache.fragment? g = some f) :
    Repositions s t :=
  ⟨0, by rw [hd, Int64.add_zero], fun g b h => .inl ⟨b, hb g b h, b.shift_zero.symm⟩,
    fun g f h => .inl ⟨f, hf g f h, f.shift_zero.symm⟩⟩

theorem Repositions.blocksPlaced {s t : Session σ} (h : Repositions s t) (hs : s.BlocksPlaced) :
    t.BlocksPlaced := by
  obtain ⟨av, hd, hb, -⟩ := h
  intro g b hg
  rcases hb g b hg with ⟨b₀, h₀, rfl⟩ | hplaced
  · rw [hd]
    exact (hs g b₀ h₀).shift av
  · exact hplaced

theorem Repositions.fragmentsAnchored {s t : Session σ} (h : Repositions s t) :
    FragmentsAnchored s t := by
  obtain ⟨av, hd, -, hf⟩ := h
  intro g f f' hs ht
  rcases hf g f' ht with ⟨f₀, h₀, rfl⟩ | hnone
  · rw [hs] at h₀
    cases h₀
    rw [hd]
    simp only [Fragment.shift]
    grind
  · rw [hs] at hnone
    cases hnone

/-- A count of an offset keeps the drift and the cache, or corrects the drift by `av` and moves
    every entry back by `av`. -/
theorem repositions_record (s : Session σ) (hs : s.cache.Indexed) (stage : Stage) (v : Int64) :
    Repositions s { s with
      tracker := (s.tracker.record stage v s.cache).1
      cache := (s.tracker.record stage v s.cache).2.1
      reports := s.reports ++ (s.tracker.record stage v s.cache).2.2.toArray } := by
  rcases s.tracker.record_cases stage v s.cache with ⟨hd, hc⟩ | ⟨av, hd, hc⟩
  · exact Repositions.of_keeps hd (fun g b h => hc ▸ h) (fun g f h => hc ▸ h)
  · refine ⟨av, hd, fun g b h => .inl ?_, fun g f h => .inl ?_⟩
    · change (s.tracker.record stage v s.cache).2.1.block? g = some b at h
      rw [hc, hs.block?_rebase] at h
      obtain ⟨b₀, h₀, hsw⟩ := Option.bind_eq_some_iff.1 h
      refine ⟨b₀, h₀, ?_⟩
      unfold Arena.swept at hsw
      split at hsw
      · cases hsw
      · exact (Option.some.inj hsw).symm
    · change (s.tracker.record stage v s.cache).2.1.fragment? g = some f at h
      rw [hc, hs.fragment?_rebase] at h
      obtain ⟨f₀, h₀, hsw⟩ := Option.bind_eq_some_iff.1 h
      refine ⟨f₀, h₀, ?_⟩
      unfold Arena.swept at hsw
      split at hsw
      · cases hsw
      · exact (Option.some.inj hsw).symm

/-- A block read at `sector` within the range is stored where the drift puts it. -/
theorem repositions_insertBlock (s : Session σ) (hw : s.Wellformed) (hfit : s.drive.RangeFits)
    (sector : Sector) (bytes : ByteArray) (hfirst : s.firstSector ≤ sector)
    (hlast : sector ≤ s.lastSector)
    (hwhole : WholeSectors (s.lastSector - sector + 1).toCount bytes)
    (hread : 0 < bytes.size / sectorBytes) :
    Repositions s { s with cache := (s.cache.insertBlock (RawBlock.ofSignal (Signal.ofBytes bytes)
      (sector.toInt64 * Int64.ofNat frameWords - s.tracker.drift)
      (sector + Int32.ofNat (bytes.size / sectorBytes) - 1))).1 } := by
  -- the sectors from `sector` to the range's end fit a 32-bit word
  have hspan : s.lastSector.toInt - sector.toInt < Int32.maxValue.toInt := by
    have h1 := Int32.le_iff_toInt_le.1 hw.first_le
    have h2 := Int32.le_iff_toInt_le.1 hw.last_le
    have h3 := Int32.le_iff_toInt_le.1 hfirst
    unfold Drive.RangeFits at hfit
    omega
  have hcount := hwhole.2
  rw [Sector.toCount_sub_add_one hlast hspan] at hcount
  have hlast' := Int32.le_iff_toInt_le.1 hlast
  have hle := Int32.toInt_le s.lastSector
  have hmax := Int32.toInt_maxValue
  refine ⟨0, (Int64.add_zero _).symm, fun g b h => ?_, fun g f h => .inl ⟨f, h, f.shift_zero.symm⟩⟩
  change (s.cache.insertBlock _).1.blocks.get? g = some b at h
  rw [show (s.cache.insertBlock _).1.blocks = (s.cache.blocks.insert _).1 from rfl,
    Arena.get?_insert hw.indexed.blocks.wf] at h
  split at h
  · cases h
    exact .inr (RawBlock.placed_ofBytes _ hwhole.1 hread (by omega) (by omega))
  · exact .inl ⟨b, h, b.shift_zero.symm⟩

/-- A fragment is stored under a handle that found nothing before. -/
theorem repositions_insertFragment (s : Session σ) (hw : s.Wellformed) (f : Fragment) :
    Repositions s { s with cache := (s.cache.insertFragment f).1 } := by
  refine ⟨0, (Int64.add_zero _).symm, fun g b h => .inl ⟨b, h, b.shift_zero.symm⟩, fun g f' h => ?_⟩
  change (s.cache.fragments.insert f).1.get? g = some f' at h
  rw [Arena.get?_insert hw.indexed.fragments.wf] at h
  split at h
  · next hg =>
    rw [hg]
    exact .inr (Arena.get?_insert_snd hw.indexed.fragments.wf f)
  · exact .inl ⟨f', h, f'.shift_zero.symm⟩

variable [SectorSource σ]

theorem ReadStep.repositions {s t : Session σ} (h : ReadStep s t) (hw : s.Wellformed)
    (hfit : s.drive.RangeFits) : Repositions s t := by
  cases h with
  | merge h =>
    cases h with
    | edit h =>
      cases h
      exact Repositions.of_keeps rfl (fun _ _ h => h) (fun _ _ h => h)
    | dropFragment g =>
      exact Repositions.of_keeps rfl
        (fun _ _ h => by rwa [FragmentCache.block?_removeFragment] at h)
        (fun _ _ h => FragmentCache.fragment?_of_removeFragment h)
    | record stage v => exact repositions_record s hw.indexed stage v
  | batch h =>
    have hc := h.cache_eq
    exact Repositions.of_keeps (congrArg Tracker.drift h.tracker_eq) (fun _ _ h => hc ▸ h)
      (fun _ _ h => hc ▸ h)
  | insertBlock sector drift bytes hdrift hfirst hlast hwhole hread =>
    subst hdrift
    exact repositions_insertBlock s hw hfit sector bytes hfirst hlast hwhole hread
  | insertFragment f => exact repositions_insertFragment s hw f
  | trim b e =>
    exact Repositions.of_keeps rfl (fun _ _ h => hw.indexed.block?_of_trim (b := b) (e := e) h)
      (fun _ _ h => hw.indexed.fragment?_of_trim (b := b) (e := e) h)

/-- What every step does to stored positions, from a well-formed session. -/
theorem SessionStep.repositions {s t : Session σ} (h : SessionStep s t) (hw : s.Wellformed)
    (hfit : s.drive.RangeFits) : Repositions s t := by
  cases h with
  | read h => exact h.repositions hw hfit
  | setRange start stop =>
    obtain ⟨c, -, e⟩ := setRange_eq s start stop
    rw [e]
    exact Repositions.of_keeps rfl (fun _ _ h => h) (fun _ _ h => h)
  | seek o sector h =>
    -- a seek forgets the drift and every stored entry
    obtain ⟨n, -, -, -, rfl⟩ := seek?_eq_some h
    refine ⟨-s.tracker.drift, ?_, fun g b h => ?_, fun g f h => ?_⟩
    · simp only [Tracker.resetDrift]
      grind
    · simp [FragmentCache.block?_resetAll] at h
    · simp [FragmentCache.fragment?_resetAll] at h
  | _ => exact Repositions.of_keeps rfl (fun _ _ h => h) (fun _ _ h => h)

theorem SessionStep.rangeFits {s t : Session σ} (h : SessionStep s t) (hfit : s.drive.RangeFits) :
    t.drive.RangeFits := by
  obtain ⟨hfirst, hlast⟩ := h.driveRange_eq
  unfold Drive.RangeFits
  rw [hfirst, hlast]
  exact hfit

end Session

end VerifiedRip
