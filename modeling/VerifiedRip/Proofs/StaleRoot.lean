import Mathlib
import VerifiedRip.Session.Read
import VerifiedRip.Disc.Memory
import VerifiedRip.Proofs.RootFrame
/-!
# Reads served by a root the cursor has left

A verified read hands out a frame once the root holds it, and the root is only ever reset by
`seek?`. `setRange` moves a cursor that falls outside the new range to the range's start but
keeps the cache, so the root stays wherever earlier reads left it. What the next read does then
depends only on where that root lies against the cursor:

* a root that holds the frame under the cursor hands it out as it is, reporting nothing
  (`readLimited_of_frame_in_root`), whether its samples were verified or are the silence that
  stood in for a skipped frame;
* a root that lies wholly past the cursor, with no fragment left to merge and the next block
  starting past the range, never reaches the frame: every round changes nothing, and once the
  retries run out the frame is skipped and handed out as silence (`readLimited_of_stalled`),
  however readable the disc is.

## Main definitions

- `Session.Stalled` — a state in which no round of verification for a frame changes anything.

## Design notes

The session operations are unfolded one bind at a time with the run lemmas below, all proved
by `rfl`. Rewriting inside a whole unfolded body with `simp` makes the kernel unfold the
well-founded `readBatch` and overflow, so each step rewrites at the top.
-/

namespace VerifiedRip

namespace Root

variable (r : Root) (b : Int64) (sector : Sector)

/-- A root that does not reach `b` is started afresh by a skip there, as one frame of silence
    that is all skipped. -/
theorem fillSkipped_of_outside (hout : r.isEmpty ∨ b < r.begin ∨ r.endPos < b) :
    r.fillSkipped b sector =
      { Root.set (Signal.zeros frameWords) b sector with
        skipped := some (b, b + Int64.ofNat frameWords) } := by
  rw [fillSkipped, if_pos hout]

/-- Counting a frame as handed out moves no sample. -/
@[simp] theorem endPos_withReturnedLimit (x : Int64) :
    ({ r with returnedLimit := x } : Root).endPos = r.endPos := rfl

@[simp] theorem skipped_withReturnedLimit (x : Int64) :
    ({ r with returnedLimit := x } : Root).skipped = r.skipped := rfl

@[simp] theorem frameAt?_withReturnedLimit (x : Int64) :
    ({ r with returnedLimit := x } : Root).frameAt? b = r.frameAt? b := rfl

theorem frameAt?_fillSkipped_of_outside (hout : r.isEmpty ∨ b < r.begin ∨ r.endPos < b) :
    (r.fillSkipped b sector).frameAt? b = some (Signal.zeros frameWords) := by
  rw [fillSkipped_of_outside r b sector hout]
  exact frameAt?_begin_of_size _ (by simp [size, set, Signal.zeros])

end Root

namespace Session

variable {σ : Type}

section RunLemmas

variable {α β : Type}

theorem run_pure (a : α) (s : Session σ) : (pure a : SessionM σ α).run s = (a, s) := rfl

theorem run_bind (x : SessionM σ α) (f : α → SessionM σ β) (s : Session σ) :
    (x >>= f).run s = (f (x.run s).1).run (x.run s).2 := rfl

theorem run_get_bind (f : Session σ → SessionM σ β) (s : Session σ) :
    ((get : SessionM σ (Session σ)) >>= f).run s = (f s).run s := rfl

theorem run_modify_bind (g : Session σ → Session σ) (f : PUnit → SessionM σ β) (s : Session σ) :
    ((modify g : SessionM σ PUnit) >>= f).run s = (f ⟨⟩).run (g s) := rfl

theorem report_run (pos : Int64) (e : Event) (s : Session σ) :
    (report pos e).run s = ((), { s with reports := s.reports.push ⟨pos, e⟩ }) := rfl

theorem editRoot_run (g : Root → Root) (s : Session σ) :
    (editRoot g).run s = ((), { s with cache := s.cache.modifyRoot g }) := rfl

end RunLemmas

/-- The frame at `b` is not in the root: nothing is handed out and nothing changes. -/
theorem copyFrame_of_none (s : Session σ) (b : Int64) (h : s.cache.root.frameAt? b = none) :
    (copyFrame b).run s = (false, s) := by
  rw [copyFrame, run_get_bind, h]
  rfl

/-- The frame at `b` is in the root: it becomes the session's frame, and the root remembers
    that it was handed out. -/
theorem copyFrame_of_some (s : Session σ) (b : Int64) (f : Signal)
    (h : s.cache.root.frameAt? b = some f) :
    (copyFrame b).run s = (true, { s with frame := f, cache := s.cache.modifyRoot fun r =>
      { r with returnedLimit := max r.returnedLimit (b + Int64.ofNat frameWords) } }) := by
  rw [copyFrame, run_get_bind, h]
  rfl

theorem mergePasses_of_no_fragments (s : Session σ) (h : s.cache.fragmentOrder = #[]) (n : Nat) :
    (mergePasses n).run s = ((), s) := by
  cases n with
  | zero => rfl
  | succ n =>
    rw [mergePasses.eq_2, run_get_bind]
    dsimp only
    rw [h]
    rfl

theorem initRoot_of_no_fragments (s : Session σ) (b : Int64) (relaxed : Bool)
    (h : s.cache.fragmentOrder = #[]) : (initRoot b relaxed).run s = (false, s) := by
  have hl : s.cache.fragmentList = [] := by simp [FragmentCache.fragmentList, h]
  rw [initRoot, run_get_bind]
  dsimp only
  rw [hl]
  cases relaxed <;> rfl

/-- With no fragment cached, merging changes nothing: there is nothing to start an empty root
    from, and nothing to grow a root with. -/
theorem mergeFragments_of_no_fragments (s : Session σ) (b : Int64) (relaxed : Bool)
    (h : s.cache.fragmentOrder = #[]) : (mergeFragments b relaxed).run s = ((), s) := by
  rw [mergeFragments, run_get_bind]
  dsimp only
  cases hroot : s.cache.root.isEmpty with
  | true =>
    rw [if_pos rfl, run_bind, initRoot_of_no_fragments s b relaxed h]
    rfl
  | false =>
    rw [if_neg Bool.false_ne_true, run_get_bind]
    exact mergePasses_of_no_fragments s h _

/-- `blockSector` reads the root, the tracker and the range, not the rest of the cache. -/
theorem blockSector_of_root_eq (s t : Session σ) (b : Int64) (hroot : t.cache.root = s.cache.root)
    (htracker : t.tracker = s.tracker) (hfirst : t.firstSector = s.firstSector)
    (hbad : t.badSector = s.badSector) : t.blockSector b = s.blockSector b := by
  simp only [blockSector, hroot, htracker, hfirst, hbad]

/-- With a root and no bad sector remembered, the next batch starts a search width before the
    root's end, moved by the drift, and not before the range. -/
theorem blockSector_of_rooted (s : Session σ) (b : Int64) (hne : s.cache.root.isEmpty = false)
    (hbad : s.badSector = none) :
    s.blockSector b = max (Sector.ofInt
      ((s.cache.root.endPos - s.tracker.width + s.tracker.drift).toInt / frameWords)) s.firstSector := by
  simp only [blockSector, hne, hbad, Bool.false_eq_true, if_false]

/-- With skipping on, giving up the frame at `b` reports the skip, fills the root in for the
    frame and hands the frame out from the filled root if it holds it. -/
theorem skipFrame_of_enabled (s : Session σ) (b : Int64) (m : Int32) (hskip : s.enableSkip = true) :
    (skipFrame b m).run s =
      (.ok (), ((copyFrame b).run { s with
        reports := s.reports.push ⟨b, .skip⟩
        cache := s.cache.modifyRoot
          (·.fillSkipped b (Sector.ofInt (b / Int64.ofNat frameWords).toInt)) }).2) := by
  rw [skipFrame, run_get_bind]
  dsimp only
  rw [if_neg (by simp [hskip]), run_bind, report_run]
  dsimp only
  rw [run_bind, editRoot_run]
  rfl

/-- A skip whose filled root holds the frame at `b` hands that frame out, and the filled root
    counts it as handed out. -/
theorem skipFrame_of_fillSkipped (s : Session σ) (b : Int64) (m : Int32) (f : Signal)
    (hskip : s.enableSkip = true)
    (hf : (s.cache.root.fillSkipped b (Sector.ofInt (b / Int64.ofNat frameWords).toInt)).frameAt? b =
      some f) :
    (skipFrame b m).run s =
      (.ok (), { s with
        reports := s.reports.push ⟨b, .skip⟩
        frame := f
        cache := s.cache.modifyRoot fun r =>
          let r' := r.fillSkipped b (Sector.ofInt (b / Int64.ofNat frameWords).toInt)
          { r' with returnedLimit := max r'.returnedLimit (b + Int64.ofNat frameWords) } }) := by
  rw [skipFrame_of_enabled s b m hskip]
  -- the state is given in full: left for unification, the filled root is unfolded at length
  rw [copyFrame_of_some { s with
    reports := s.reports.push ⟨b, .skip⟩
    cache := s.cache.modifyRoot
      (·.fillSkipped b (Sector.ofInt (b / Int64.ofNat frameWords).toInt)) } b f hf]
  rfl

/-- A skip at a position before the root's start: with skipping on, the root starts afresh as
    one frame of silence there, which is handed out, and the skip is reported. -/
theorem skipFrame_of_lt_begin (s : Session σ) (b : Int64) (m : Int32) (hskip : s.enableSkip = true)
    (hb : b < s.cache.root.begin) :
    ∃ c, (skipFrame b m).run s =
      (.ok (), { s with cache := c, frame := Signal.zeros frameWords,
                        reports := s.reports.push ⟨b, .skip⟩ }) :=
  ⟨_, skipFrame_of_fillSkipped s b m _ hskip
    (Root.frameAt?_fillSkipped_of_outside _ b _ (Or.inr (Or.inl hb)))⟩

/-- A state in which verifying the frame at `begin` cannot get anywhere: the root is there but
    lacks the frame, no fragment is left to merge into it, and the next block would start past
    the range. -/
structure Stalled (s : Session σ) (begin : Int64) : Prop where
  frame_none : s.cache.root.frameAt? begin = none
  root_nonempty : s.cache.root.isEmpty = false
  no_fragments : s.cache.fragmentOrder = #[]
  past_range : s.lastSector < s.blockSector begin

/-- A frame before a root the cursor has left behind, with no fragment left and the next block
    past the range: trimming behind the frame leaves the root alone, and the state is stalled. -/
theorem stalled_trim_of_lt_begin (s : Session σ) (b : Int64) (hne : s.cache.root.isEmpty = false)
    (hb : b < s.cache.root.begin) (hfrag : s.cache.fragmentOrder = #[])
    (hpast : s.lastSector < s.blockSector b) :
    ({ s with cache := s.cache.trim b (b + Int64.ofNat frameWords) } : Session σ).Stalled b := by
  have hroot : (s.cache.trim b (b + Int64.ofNat frameWords)).root = s.cache.root :=
    s.cache.trim_root_of_le_begin b (b + Int64.ofNat frameWords) (Int64.le_of_lt hb)
  exact
    { frame_none := by rw [hroot]; exact Root.frameAt?_of_lt_begin _ _ hb
      root_nonempty := by rw [hroot]; exact hne
      no_fragments := s.cache.trim_fragmentOrder_of_empty b (b + Int64.ofNat frameWords) hfrag
      past_range := by
        rw [blockSector_of_root_eq s { s with cache := s.cache.trim b (b + Int64.ofNat frameWords) } b
          hroot rfl rfl rfl]
        exact hpast }

variable [SectorSource σ]

/-- A block read for the frame at `b` that would start past the range reads nothing. -/
theorem readBlock_of_lt_blockSector (s : Session σ) (b : Int64)
    (h : s.lastSector < s.blockSector b) : (readBlock b).run s = (.ok none, s) := by
  rw [readBlock, run_get_bind]
  dsimp only
  rw [if_pos h]
  rfl

/-- In a stalled state every round of verification is fruitless and leaves the state as it
    was, so the loop ends in `skipFrame` once the retries run out. -/
theorem verifyRounds_of_stalled (s : Session σ) (b : Int64) (m : Int32) (hs : s.Stalled b)
    (retries : Int) :
    (verifyRounds b m retries s.cache.root.endPos).run s = (skipFrame b m).run s := by
  obtain ⟨n, hn⟩ : ∃ n, (m.toInt - retries).toNat = n := ⟨_, rfl⟩
  -- each round leaves `s` as it was and counts one more retry, until the retries run out
  induction n using Nat.strong_induction_on generalizing retries with
  | _ n ih =>
    rw [verifyRounds, run_bind, copyFrame_of_none s b hs.frame_none]
    dsimp only
    rw [if_neg Bool.false_ne_true, run_bind,
      mergeFragments_of_no_fragments s b _ hs.no_fragments]
    dsimp only
    rw [run_bind, copyFrame_of_none s b hs.frame_none]
    dsimp only
    rw [if_neg Bool.false_ne_true, run_bind, readBlock_of_lt_blockSector s b hs.past_range]
    dsimp only
    rw [run_get_bind]
    -- the root did not grow, so this round counts as a retry
    rw [dif_neg Int64.lt_irrefl]
    split_ifs with hout
    · rw [run_bind, copyFrame_of_none s b hs.frame_none]
      rfl
    · exact ih _ (by omega) (retries + 1) rfl

/-- Verifying a frame whose state, once trimmed behind the frame, is stalled gives the frame up
    in that state. -/
theorem readVerified_of_stalled (s : Session σ) (b : Int64) (m : Int32)
    (hs : ({ s with cache := s.cache.trim b (b + Int64.ofNat frameWords) } : Session σ).Stalled b) :
    (readVerified b m).run s =
      (skipFrame b m).run { s with cache := s.cache.trim b (b + Int64.ofNat frameWords) } := by
  rw [readVerified, run_modify_bind, run_get_bind]
  exact verifyRounds_of_stalled _ b m hs 0

/-- Verifying a frame that lies before a root the cursor has left behind ends in a skip. -/
theorem readVerified_of_lt_begin (s : Session σ) (b : Int64) (m : Int32)
    (hskip : s.enableSkip = true) (hne : s.cache.root.isEmpty = false)
    (hb : b < s.cache.root.begin) (hfrag : s.cache.fragmentOrder = #[])
    (hpast : s.lastSector < s.blockSector b) :
    ∃ c, (readVerified b m).run s =
      (.ok (), { s with cache := c, frame := Signal.zeros frameWords,
                        reports := s.reports.push ⟨b, .skip⟩ }) := by
  rw [readVerified_of_stalled s b m (stalled_trim_of_lt_begin s b hne hb hfrag hpast)]
  -- the root lies ahead of the frame, so trimming behind the frame leaves it alone
  have hroot : (s.cache.trim b (b + Int64.ofNat frameWords)).root = s.cache.root :=
    s.cache.trim_root_of_le_begin b (b + Int64.ofNat frameWords) (Int64.le_of_lt hb)
  obtain ⟨c, hc⟩ := skipFrame_of_lt_begin { s with cache := s.cache.trim b (b + Int64.ofNat frameWords) }
    b m hskip (by rw [hroot]; exact hb)
  rw [hc]
  exact ⟨c, rfl⟩

/-- Verifying a frame the root holds hands it out in the first round. -/
theorem readVerified_of_frameAt? (s : Session σ) (b : Int64) (m : Int32) (f : Signal)
    (hlow : b - Int64.ofNat (maxSectorOverlap * frameWords) < b)
    (hhigh : b < b + Int64.ofNat frameWords) (hf : s.cache.root.frameAt? b = some f) :
    ∃ c, (readVerified b m).run s = (.ok (), { s with cache := c, frame := f }) := by
  rw [readVerified, run_modify_bind, run_get_bind]
  set s₁ : Session σ := { s with cache := s.cache.trim b (b + Int64.ofNat frameWords) } with hs₁
  have hf₁ : s₁.cache.root.frameAt? b = some f :=
    s.cache.frameAt?_trim b (b + Int64.ofNat frameWords) f hlow hhigh hf
  rw [verifyRounds, run_bind, copyFrame_of_some s₁ b f hf₁]
  exact ⟨_, rfl⟩

/-- In a verified mode, a read in the range verifies the frame under the cursor with the reports
    cleared, then hands out the session's frame and moves the cursor one frame on. -/
theorem readLimited_of_readVerified (s t : Session σ) (m : Int32) (hmode : s.mode.verified = true)
    (hrange : ¬ s.lastSector < s.cursorSector)
    (h : (readVerified s.cursor m).run { s with reports := #[] } = (.ok (), t)) :
    (readLimited m).run s = (.ok t.frame, { t with cursor := t.cursor + Int64.ofNat frameWords }) := by
  rw [readLimited, run_modify_bind, run_get_bind]
  dsimp only
  -- clearing the reports does not move the cursor's sector
  have hrange' : ¬ s.lastSector < ({ s with reports := #[] } : Session σ).cursorSector := hrange
  rw [if_neg hrange', if_pos hmode, run_bind, h]
  rfl

end Session

/-- A drive on an empty disc: it carries sessions whose reads never reach the disc. -/
def idleDrive : Drive MemoryDisc :=
  { source := { data := .empty, toc := ⟨[], 0⟩ }, toc := ⟨[], 0⟩, errorDest := .forget,
    messageDest := .forget, jitter := { draw := fun _ => 0 } }

/-- Sectors `0..5` with the cursor at the start and a one-sample root far ahead of it. -/
def rootAheadSession : Session MemoryDisc :=
  { drive := idleDrive, cache := { root := Root.set #[0] 100000 0 }, cursor := 0,
    firstSector := 0, lastSector := 5 }

namespace Session

variable {σ : Type} [SectorSource σ]

/-- A verified read at a cursor that a range change left before the root, with no fragment left
    and the next block starting past the range, hands out silence and reports one skip at the
    cursor, whatever the disc holds there. -/
theorem readLimited_of_stalled (s : Session σ) (m : Int32) (hmode : s.mode.verified = true)
    (hskip : s.enableSkip = true) (hrange : ¬ s.lastSector < s.cursorSector)
    (hne : s.cache.root.isEmpty = false) (hb : s.cursor < s.cache.root.begin)
    (hfrag : s.cache.fragmentOrder = #[]) (hpast : s.lastSector < s.blockSector s.cursor) :
    ∃ t, (readLimited m).run s = (.ok (Signal.zeros frameWords), t) ∧
      t.reports = #[⟨s.cursor, .skip⟩] ∧ t.cursor = s.cursor + Int64.ofNat frameWords := by
  obtain ⟨c, hc⟩ := readVerified_of_lt_begin ({ s with reports := #[] } : Session σ) s.cursor m
    hskip hne hb hfrag hpast
  exact ⟨_, readLimited_of_readVerified s _ m hmode hrange hc, rfl, rfl⟩

theorem readLimited_of_stalled_rootAhead :
    rootAheadSession.mode.verified = true ∧ rootAheadSession.enableSkip = true ∧
      ¬ rootAheadSession.lastSector < rootAheadSession.cursorSector ∧
      rootAheadSession.cache.root.isEmpty = false ∧
      rootAheadSession.cursor < rootAheadSession.cache.root.begin ∧
      rootAheadSession.cache.fragmentOrder = #[] ∧
      rootAheadSession.lastSector < rootAheadSession.blockSector rootAheadSession.cursor ∧
      ∃ t, (readLimited 20).run rootAheadSession = (.ok (Signal.zeros frameWords), t) ∧
        t.reports = #[⟨rootAheadSession.cursor, .skip⟩] ∧
        t.cursor = rootAheadSession.cursor + Int64.ofNat frameWords :=
  ⟨by decide, rfl, by decide, rfl, by decide, rfl, by decide,
    readLimited_of_stalled rootAheadSession 20 (by decide) rfl (by decide) rfl (by decide)
      rfl (by decide)⟩

/-- A verified read of a frame the root holds hands out the root's samples there and reports
    nothing, wherever those samples came from. -/
theorem readLimited_of_frame_in_root (s : Session σ) (m : Int32) (f : Signal)
    (hmode : s.mode.verified = true) (hrange : ¬ s.lastSector < s.cursorSector)
    (hlow : s.cursor - Int64.ofNat (maxSectorOverlap * frameWords) < s.cursor)
    (hhigh : s.cursor < s.cursor + Int64.ofNat frameWords)
    (hf : s.cache.root.frameAt? s.cursor = some f) :
    ∃ t, (readLimited m).run s = (.ok f, t) ∧
      t.reports = #[] ∧ t.cursor = s.cursor + Int64.ofNat frameWords := by
  obtain ⟨c, hc⟩ := readVerified_of_frameAt? ({ s with reports := #[] } : Session σ) s.cursor m f
    hlow hhigh hf
  exact ⟨_, readLimited_of_readVerified s _ m hmode hrange hc, rfl, rfl⟩

end Session

end VerifiedRip
