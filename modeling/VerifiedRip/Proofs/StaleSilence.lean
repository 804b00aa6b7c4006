import VerifiedRip.Proofs.SkipFrame
import VerifiedRip.Proofs.Progress
/-!
# Silence handed out again

When the verification of a frame gives up, the skip leaves its silence in the root, marked as
skipped, and the read reports the skip once. Nothing reports it again. `setRange` keeps the
cache, so a range that moves the cursor back onto the skipped frame sends the next verified read
to a root that already holds it: the read hands the silence out in its first round, with no
report at all, as if two reads had agreed on it. A range before the root strands the cursor: it
lands where the root holds nothing and no block will be read, the stalled state of
`Proofs.StaleRoot`, whose reads hand out silence however the disc reads there.

## Main statements

* `Session.setRange_of_outside`: a range of the drive moves a cursor outside it to the start of
  its first frame and keeps the cache.
* `Session.setRange_behind_root`: a range before the root, whose next block lies past the range,
  leaves the cursor before the root with nothing to read for its frame.
* `Session.skipped_silence_reread_unreported`: a read that gives its frame up, a range change
  back onto that frame, and a read that hands the same silence out unreported.
-/

namespace VerifiedRip

theorem Int32.max_eq_left {a b : Int32} (h : b ≤ a) : max a b = a := by
  change (if a ≤ b then b else a) = a
  split_ifs with hab
  · exact Int32.le_antisymm h hab
  · rfl

theorem Int32.min_eq_left {a b : Int32} (h : a ≤ b) : min a b = a := by
  change (if a ≤ b then a else b) = a
  rw [if_pos h]

namespace Session

variable {σ : Type}

/-- The frame of a sector neither wraps at its end nor leaves the overlap before it. -/
theorem frameStart_bounds (c : Sector) :
    c.toInt64 * Int64.ofNat frameWords - Int64.ofNat (maxSectorOverlap * frameWords) <
        c.toInt64 * Int64.ofNat frameWords ∧
      c.toInt64 * Int64.ofNat frameWords <
        c.toInt64 * Int64.ofNat frameWords + Int64.ofNat frameWords := by
  have hfw : (frameWords : Int) = 1176 := rfl
  have hstart := toInt_frameStart c
  rw [hfw] at hstart
  have hw : (Int64.ofNat frameWords).toInt = 1176 := Int64.toInt_ofNat_of_lt _ (by decide)
  have hov : (Int64.ofNat (maxSectorOverlap * frameWords)).toInt = 37632 :=
    Int64.toInt_ofNat_of_lt _ (by decide)
  have hlo := Int32.le_toInt c
  have hhi := Int32.toInt_lt c
  have hr := Int64.toInt_mem_range (c.toInt64 * Int64.ofNat frameWords -
    Int64.ofNat (maxSectorOverlap * frameWords))
  constructor
  · rw [Int64.lt_iff_toInt_lt]
    rcases Int64.toInt_sub_cases (c.toInt64 * Int64.ofNat frameWords)
      (Int64.ofNat (maxSectorOverlap * frameWords)) with h | h | h <;> omega
  · rw [Int64.lt_iff_toInt_lt, Int64.toInt_add_of_range _ _ (by omega) (by omega), hw]
    omega

/-- A cursor at the start of the frame of sector `c` has sector `c`. -/
theorem cursorSector_of_frameStart {s : Session σ} {c : Sector}
    (h : s.cursor = c.toInt64 * Int64.ofNat frameWords) : s.cursorSector = c := by
  have hfw : (frameWords : Int) = 1176 := rfl
  apply Int32.toInt_inj.mp
  rw [(CursorBounded.of_sector c h).cursorSector_toInt, h, toInt_frameStart, hfw]
  omega

/-- A range inside the drive's audio range moves a cursor outside it to the start of its first
    sector's frame. The cache stays. -/
theorem setRange_of_outside (t : Session σ) (a b : Sector) (hfirst : t.drive.firstSector ≤ a)
    (hlast : b ≤ t.drive.lastSector) (hout : t.cursorSector < a ∨ b < t.cursorSector) :
    t.setRange a b = { t with firstSector := a, lastSector := b,
                              cursor := a.toInt64 * Int64.ofNat frameWords } := by
  unfold setRange
  dsimp only
  rw [Int32.max_eq_left hfirst, Int32.min_eq_left hlast]
  split
  · rfl
  · rename_i hstay
    exact absurd hout hstay

/-- A range before a root the cursor has left, whose next block would start past the range,
    puts the cursor in the range and before the root with no block left to read for its frame.
    The cache stays, so a root with no fragment left beside it stalls every read of the range. -/
theorem setRange_behind_root (t : Session σ) (a b : Sector) (hfirst : t.drive.firstSector ≤ a)
    (hab : a ≤ b) (hlast : b ≤ t.drive.lastSector) (hout : t.cursorSector < a ∨ b < t.cursorSector)
    (hne : t.cache.root.isEmpty = false) (hbad : t.badSector = none)
    (hbegin : a.toInt * frameWords < t.cache.root.begin.toInt)
    (hnext : b.toInt < (t.cache.root.endPos - t.tracker.width + t.tracker.drift).toInt / frameWords)
    (hword : (t.cache.root.endPos - t.tracker.width + t.tracker.drift).toInt / frameWords ≤
      Int32.maxValue.toInt) :
    ¬ (t.setRange a b).lastSector < (t.setRange a b).cursorSector ∧
      (t.setRange a b).cursor < (t.setRange a b).cache.root.begin ∧
      (t.setRange a b).lastSector < (t.setRange a b).blockSector (t.setRange a b).cursor := by
  rw [setRange_of_outside t a b hfirst hlast hout]
  refine ⟨?_, ?_, ?_⟩
  · rw [cursorSector_of_frameStart rfl]
    exact Int32.not_lt.mpr hab
  · show a.toInt64 * Int64.ofNat frameWords < t.cache.root.begin
    rw [Int64.lt_iff_toInt_lt, toInt_frameStart]
    exact hbegin
  · -- the batch starts at the sector of the root's anchor, a sector word past `b`
    rw [blockSector_of_rooted ({ t with firstSector := a, lastSector := b,
                                        cursor := a.toInt64 * Int64.ofNat frameWords } : Session σ)
      _ hne hbad]
    dsimp only
    generalize (t.cache.root.endPos - t.tracker.width + t.tracker.drift).toInt / frameWords = x
      at hnext hword
    have hlo := Int32.le_toInt b
    have hmin := Int32.toInt_minValue
    have hmax := Int32.toInt_maxValue
    have hx : (Sector.ofInt x).toInt = x := Int32.toInt_ofInt_of_le (by omega) (by omega)
    have hab' := Int32.le_iff_toInt_le.mp hab
    simp only [max, Int32.lt_iff_toInt_lt, Int32.le_iff_toInt_le]
    split <;> omega

variable [SectorSource σ]

/-- A verified read whose verification gives the frame under the cursor up hands out the skip's
    fill, silence past the root's verified end, and reports the skip (`SkipsFrame`, for the state
    `s₁` the verification gave up in). A range of that one sector then moves the cursor back onto
    the frame, and the next verified read hands out the same fill without a single report. The
    frame's sector lies in the drive's range and below the greatest sector word, and the root the
    verification gave up with is the one a skip promises to fill: it lacks the frame, holds fewer
    than `2 ^ 62` samples and has its skipped span in order. -/
theorem skipped_silence_reread_unreported (hc : SourceContract σ) (s s₁ : Session σ) (c : Sector)
    (m m' : Int32) (hmode : s.mode.verified = true) (hskip : s.enableSkip = true)
    (hcursor : s.cursor = c.toInt64 * Int64.ofNat frameWords) (hrange : c ≤ s.lastSector)
    (hfirst : s.drive.firstSector ≤ c) (hlast : c ≤ s.drive.lastSector)
    (hmax : c < Int32.maxValue)
    (hgive : (readVerified s.cursor m).run { s with reports := #[] } = (skipFrame s.cursor m).run s₁)
    (hnone : s₁.cache.root.frameAt? s.cursor = none) (hsize : s₁.cache.root.size < 2 ^ 62)
    (horder : ∀ a e, s₁.cache.root.skipped = some (a, e) → a ≤ e) :
    ∃ t, (readLimited m).run s =
        (.ok t.frame, { t with cursor := t.cursor + Int64.ofNat frameWords }) ∧
      SkipsFrame s₁ s.cursor (.ok (), t) ∧
      ∃ v, (readLimited m').run
          (({ t with cursor := t.cursor + Int64.ofNat frameWords } : Session σ).setRange c c) =
        (.ok t.frame, v) ∧ v.reports = #[] := by
  -- neither the read nor the skip it ends in moves the settings
  have hsettings : ((skipFrame s.cursor m).run s₁).2.settings = s.settings := by
    rw [← hgive]
    -- clearing the reports leaves the settings as they were
    exact (eq_of_steps settings (fun _ _ h => ReadStep.settings_eq h)
      (readVerified_moves hc s.cursor m { s with reports := #[] })).trans rfl
  have hsettings₁ : ((skipFrame s.cursor m).run s₁).2.settings = s₁.settings :=
    eq_of_steps settings (fun _ _ h => RootEdit.settings_eq h) (skipFrame_moves _ _ s₁)
  have hskip₁ : s₁.enableSkip = true :=
    (congrArg Settings.enableSkip (hsettings₁.symm.trans hsettings)).trans hskip
  have hskips := skipsFrame_of_enabled s₁ s.cursor m hskip₁ hnone hsize horder
  set t := ((skipFrame s.cursor m).run s₁).2 with ht
  have hout : (skipFrame s.cursor m).run s₁ = (.ok (), t) := Prod.ext hskips.ok rfl
  have hsector := cursorSector_of_frameStart hcursor
  refine ⟨t, readLimited_of_readVerified s t m hmode ?_ (hgive.trans hout), hout ▸ hskips, ?_⟩
  · rw [hsector]
    exact Int32.not_lt.mpr hrange
  -- the cursor moved on past `c`, so the range of `c` moves it back; the cache stays
  have hcur : t.cursor = s.cursor := congrArg Settings.cursor hsettings
  have hmode_t : t.mode = s.mode := congrArg Settings.mode hsettings
  have hdrive : t.drive.firstSector = s.drive.firstSector ∧
      t.drive.lastSector = s.drive.lastSector :=
    ⟨congrArg Settings.driveFirst hsettings, congrArg Settings.driveLast hsettings⟩
  have hnext := ((CursorBounded.of_sector c hcursor).advance (hsector ▸ hmax)
    (t := { t with cursor := t.cursor + Int64.ofNat frameWords }) (by rw [hcur])).2
  have hpast : c < ({ t with cursor := t.cursor + Int64.ofNat frameWords } : Session σ).cursorSector := by
    rw [Int32.lt_iff_toInt_lt, hnext, hsector]
    omega
  rw [setRange_of_outside _ c c (hdrive.1 ▸ hfirst) (hdrive.2 ▸ hlast) (.inr hpast)]
  -- the root still holds the skip's frame at the cursor
  have hkeep : t.cache.root.frameAt? s.cursor = some t.frame :=
    frameAt?_skipFrame s₁ s.cursor m hskip₁ hnone hsize horder
  obtain ⟨hlow, hhigh⟩ := frameStart_bounds c
  obtain ⟨v, hv, hreports, -⟩ := readLimited_of_frame_in_root
    ({ t with firstSector := c, lastSector := c, cursor := c.toInt64 * Int64.ofNat frameWords })
    m' t.frame (show t.mode.verified = true by rw [hmode_t]; exact hmode)
    (by rw [cursorSector_of_frameStart rfl]; exact Int32.lt_irrefl) hlow hhigh
    (hcursor ▸ hkeep)
  exact ⟨v, hv, hreports⟩

end Session

/-- The state in which a read of `rootAheadSession`'s first frame verifies it: the reports
    cleared and the cache trimmed behind the frame. -/
def rootAheadTrimmed : Session MemoryDisc :=
  { rootAheadSession with
    reports := #[], cache := rootAheadSession.cache.trim 0 (0 + Int64.ofNat frameWords) }

namespace Session

/-- Over a root left far ahead of the cursor, the read of sector 0 gives the frame up and hands
    out silence with a skip; after a range of sector 0 alone, the read hands the same silence out
    with no report. -/
theorem skipped_silence_reread_unreported_rootAhead :
    SourceContract MemoryDisc ∧ rootAheadSession.mode.verified = true ∧
      rootAheadSession.enableSkip = true ∧
      rootAheadSession.cursor = (0 : Sector).toInt64 * Int64.ofNat frameWords ∧
      (0 : Sector) ≤ rootAheadSession.lastSector ∧
      rootAheadSession.drive.firstSector ≤ 0 ∧ (0 : Sector) ≤ rootAheadSession.drive.lastSector ∧
      (0 : Sector) < Int32.maxValue ∧
      (readVerified rootAheadSession.cursor 20).run { rootAheadSession with reports := #[] } =
        (skipFrame rootAheadSession.cursor 20).run rootAheadTrimmed ∧
      rootAheadTrimmed.cache.root.frameAt? rootAheadSession.cursor = none ∧
      rootAheadTrimmed.cache.root.size < 2 ^ 62 ∧
      (∀ a e, rootAheadTrimmed.cache.root.skipped = some (a, e) → a ≤ e) ∧
      ∃ t, (readLimited 20).run rootAheadSession =
          (.ok t.frame, { t with cursor := t.cursor + Int64.ofNat frameWords }) ∧
        SkipsFrame rootAheadTrimmed rootAheadSession.cursor (.ok (), t) ∧
        ∃ v, (readLimited 20).run
            (({ t with cursor := t.cursor + Int64.ofNat frameWords } : Session MemoryDisc).setRange
              0 0) = (.ok t.frame, v) ∧ v.reports = #[] := by
  have hstalled : rootAheadTrimmed.Stalled 0 :=
    stalled_trim_of_lt_begin { rootAheadSession with reports := #[] } 0 rfl (by decide) rfl
      (by decide)
  have hgive := readVerified_of_stalled { rootAheadSession with reports := #[] } 0 20 hstalled
  have hroot : rootAheadTrimmed.cache.root = rootAheadSession.cache.root :=
    rootAheadSession.cache.trim_root_of_le_begin 0 (0 + Int64.ofNat frameWords) (by decide)
  have hsize : rootAheadTrimmed.cache.root.size < 2 ^ 62 := by
    rw [hroot]
    decide
  have horder : ∀ a e, rootAheadTrimmed.cache.root.skipped = some (a, e) → a ≤ e := by
    rw [hroot]
    simp [rootAheadSession, Root.set]
  exact ⟨MemoryDisc.sourceContract, by decide, rfl, by decide, by decide, by decide, by decide,
    by decide, hgive, hstalled.frame_none, hsize, horder,
    skipped_silence_reread_unreported MemoryDisc.sourceContract rootAheadSession rootAheadTrimmed 0
      20 20 (by decide) rfl (by decide) (by decide) (by decide) (by decide) (by decide) hgive
      hstalled.frame_none hsize horder⟩

end Session

end VerifiedRip
