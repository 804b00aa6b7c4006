import VerifiedRip.Proofs.MergeFuel
import VerifiedRip.Proofs.Drift
/-!
# Every read in the range delivers a frame

With skipping on and the drive open, no read of a frame fails: a sector that cannot be read is
filled with silence, and a frame that cannot be verified is skipped. The one exception is a
panic: a batch's buffer is sized by a 64-bit product of its sector count, and a count taken over
a range of more than `2 ^ 31 - 1` sectors wraps as a sector word and may ask for a buffer past
the signed 64-bit range. In a range that fits, the count is at most `2 ^ 31` and nothing panics. So a read of any frame in
the reading range returns it and moves the cursor on by exactly one frame, and reading frames
one after another yields each frame from the cursor to the end of the range once, then stops.

The cursor is a 64-bit position and its sector is the frame count below it as a 32-bit word.
The count only moves up by one per frame read, from a sector of the range, so it never leaves the
32-bit range (`CursorBounded`) unless the range ends at the greatest sector word: after that
frame the count is `2 ^ 31`, its word wraps to the least one (`cursorSector_advance_of_maxValue`),
and the range never ends.

## Main definitions

- `Session.SkipsOpen` — skipping is on, the drive is open, and the range spans fewer than
  `2 ^ 31 - 1` sectors, so that no batch's buffer is too large to allocate.
- `Session.NeverFails x` — run from such a session, `x` returns no error.
- `Session.CursorBounded` — the frame count below the cursor is a sector word.

## Main statements

- `readLimited_cases`: a read either leaves the settings and fails, only out of the range where
  skipping is on and the drive open, or returns a frame and moves the cursor on by one frame.
- `readAll_frames`: from a session with skipping on, the drive open and a bounded cursor, reading
  `n` frames yields `min n (last - cursor sector + 1)` frames, all read, and stops only past the
  range's end.
- `Reachable.cursorBounded`: on a drive whose range ends below the greatest sector word, every
  reachable session has a bounded cursor.
- `reads_deliver_frames_to_range_end`.
- `readLimited_panics_of_wrapped_count`: on a range of `2 ^ 31` sectors or more, the count of the
  first block's sectors wraps and no longer caps the readahead, and a readahead whose buffer
  lies past the signed 64-bit range makes a verified read from an empty cache panic.
-/

namespace VerifiedRip.Session

variable {σ : Type}

/-! ### The cursor's sector -/

/-- The start of a sector's frame, as a whole number: it does not wrap. -/
theorem toInt_frameStart (c : Sector) :
    (c.toInt64 * Int64.ofNat frameWords).toInt = c.toInt * frameWords := by
  have hfw : (frameWords : Int) = 1176 := rfl
  have hlo := Int32.le_toInt c
  have hhi := Int32.toInt_lt c
  rw [Int64.toInt_mul, Int32.toInt_toInt64, Int64.toInt_ofNat_of_lt _ (by decide), hfw]
  exact Int.bmod_eq_of_le (by omega) (by omega)

/-- The frame count below the cursor is a sector word, so the cursor's sector is that count and
    not a wrapped one. -/
structure CursorBounded (s : Session σ) : Prop where
  ge_min : Int32.minValue.toInt ≤ s.cursor.toInt / frameWords
  le_max : s.cursor.toInt / frameWords ≤ Int32.maxValue.toInt

namespace CursorBounded

theorem of_cursor_eq {s t : Session σ} (h : t.cursor = s.cursor) (hs : s.CursorBounded) :
    t.CursorBounded :=
  ⟨h ▸ hs.ge_min, h ▸ hs.le_max⟩

theorem of_toInt {s : Session σ} {n : Int} (hlo : Int32.minValue.toInt ≤ n)
    (hhi : n ≤ Int32.maxValue.toInt) (h : s.cursor.toInt = n * frameWords) : s.CursorBounded := by
  have hfw : (frameWords : Int) = 1176 := rfl
  have hq : s.cursor.toInt / frameWords = n := by
    rw [h, hfw]
    omega
  exact ⟨hq ▸ hlo, hq ▸ hhi⟩

theorem of_sector {s : Session σ} (x : Sector) (h : s.cursor = x.toInt64 * Int64.ofNat frameWords) :
    s.CursorBounded := by
  have hfw : (frameWords : Int) = 1176 := rfl
  have hmin := Int32.toInt_minValue
  have hmax := Int32.toInt_maxValue
  have hlo := Int32.le_toInt x
  have hhi := Int32.toInt_lt x
  have hmul : s.cursor.toInt = x.toInt * frameWords := by rw [h, toInt_frameStart]
  exact of_toInt (by omega) (by omega) hmul

theorem cursorSector_toInt {s : Session σ} (h : s.CursorBounded) :
    s.cursorSector.toInt = s.cursor.toInt / frameWords := by
  have hlo := h.ge_min
  have hhi := h.le_max
  have hmin := Int32.toInt_minValue
  have hmax := Int32.toInt_maxValue
  exact Int32.toInt_ofInt_of_le (by omega) (by omega)

/-- Moving a bounded cursor on by a frame adds one to the frame count below it: the 64-bit sum
    does not wrap. -/
theorem count_advance {s t : Session σ} (hs : s.CursorBounded)
    (ht : t.cursor = s.cursor + Int64.ofNat frameWords) :
    t.cursor.toInt / frameWords = s.cursor.toInt / frameWords + 1 := by
  have hfw : (frameWords : Int) = 1176 := rfl
  have hmax := Int32.toInt_maxValue
  have hhi := hs.le_max
  have hlo := Int64.le_toInt s.cursor
  have hfw64 : (Int64.ofNat frameWords).toInt = 1176 := Int64.toInt_ofNat_of_lt _ (by decide)
  rw [hfw] at hhi ⊢
  rw [ht, Int64.toInt_add_of_range _ _ (by omega) (by omega), hfw64]
  omega

/-- Below the greatest sector word, the cursor moved on by a frame stays bounded, and its sector
    is the next one. -/
theorem advance {s t : Session σ} (hs : s.CursorBounded) (hlt : s.cursorSector < Int32.maxValue)
    (ht : t.cursor = s.cursor + Int64.ofNat frameWords) :
    t.CursorBounded ∧ t.cursorSector.toInt = s.cursorSector.toInt + 1 := by
  have hq := hs.count_advance ht
  have hcs := hs.cursorSector_toInt
  have hlt' := Int32.lt_iff_toInt_lt.1 hlt
  have ht' : t.CursorBounded := ⟨by rw [hq]; have := hs.ge_min; omega, by rw [hq]; omega⟩
  exact ⟨ht', by rw [ht'.cursorSector_toInt, hq, hcs]⟩

end CursorBounded

/-- At the greatest sector word, the cursor moved on by a frame has the least sector word: the
    count below it is `2 ^ 31`, which wraps. -/
theorem cursorSector_advance_of_maxValue {s t : Session σ} (hs : s.CursorBounded)
    (hmax : s.cursorSector = Int32.maxValue) (ht : t.cursor = s.cursor + Int64.ofNat frameWords) :
    t.cursorSector = Int32.minValue := by
  have hq := hs.count_advance ht
  have hcs := hs.cursorSector_toInt
  rw [hmax] at hcs
  have hcount : t.cursor.toInt / frameWords = 2147483648 := by
    rw [hq, ← hcs]
    rfl
  unfold cursorSector Sector.ofInt
  rw [hcount]
  decide

/-! ### Reads that return no error -/

/-- Skipping is on and the drive is open, and the reading range spans fewer than `2 ^ 31 - 1`
    sectors, so that the sector count of a batch is a sector word and its buffer can be
    allocated. -/
structure SkipsOpen (s : Session σ) : Prop where
  skip : s.enableSkip = true
  opened : s.drive.opened = true
  fits : s.lastSector.toInt - s.firstSector.toInt < Int32.maxValue.toInt

theorem SkipsOpen.of_settings {s t : Session σ} (h : t.settings = s.settings) (hs : s.SkipsOpen) :
    t.SkipsOpen :=
  have hl : t.lastSector = s.lastSector := congrArg Settings.lastSector h
  have hf : t.firstSector = s.firstSector := congrArg Settings.firstSector h
  ⟨(congrArg Settings.enableSkip h).trans hs.1, (congrArg Settings.opened h).trans hs.2,
    by rw [hl, hf]; exact hs.3⟩

/-- Run from `s`, `x` returns no error. -/
def FailsNotFrom {α : Type} (s : Session σ) (x : SessionM σ (Except RipError α)) : Prop :=
  ∀ e, (x.run s).1 ≠ .error e

/-- Run from any session with skipping on and the drive open, `x` returns no error. -/
def NeverFails {α : Type} (x : SessionM σ (Except RipError α)) : Prop :=
  ∀ s, s.SkipsOpen → FailsNotFrom s x

section Rules

variable {α β : Type}

theorem NeverFails.pure_ok (a : α) : NeverFails (pure (.ok a) : SessionM σ (Except RipError α)) :=
  fun _ _ _ h => by cases h

theorem NeverFails.get_bind {f : Session σ → SessionM σ (Except RipError α)}
    (h : ∀ s, s.SkipsOpen → FailsNotFrom s (f s)) : NeverFails (get >>= f) :=
  h

theorem FailsNotFrom.ite {s : Session σ} {c : Prop} [Decidable c]
    {x y : SessionM σ (Except RipError α)} (hx : c → FailsNotFrom s x) (hy : ¬c → FailsNotFrom s y) :
    FailsNotFrom s (if c then x else y) := by
  split
  · exact hx ‹_›
  · exact hy ‹_›

theorem FailsNotFrom.dite {s : Session σ} {c : Prop} [Decidable c]
    {x : c → SessionM σ (Except RipError α)} {y : ¬c → SessionM σ (Except RipError α)}
    (hx : ∀ h, FailsNotFrom s (x h)) (hy : ∀ h, FailsNotFrom s (y h)) :
    FailsNotFrom s (if h : c then x h else y h) := by
  split
  · exact hx ‹_›
  · exact hy ‹_›

theorem FailsNotFrom.set_bind {s t : Session σ} {f : PUnit → SessionM σ (Except RipError α)}
    (h : FailsNotFrom t (f ⟨⟩)) : FailsNotFrom s (set t >>= f) :=
  h

variable [SectorSource σ]

theorem SkipsOpen.of_steps {s t : Session σ} (h : Relation.ReflTransGen ReadStep s t)
    (hs : s.SkipsOpen) : t.SkipsOpen :=
  hs.of_settings (eq_of_steps settings (fun _ _ h => h.settings_eq) h)

theorem NeverFails.bind {x : SessionM σ β} {f : β → SessionM σ (Except RipError α)}
    (hx : Moves ReadStep x) (hf : ∀ b, NeverFails (f b)) : NeverFails (x >>= f) := by
  intro s hs e
  rw [run_bind]
  exact hf _ _ (hs.of_steps (hx s)) e

/-- A computation that returns no error, followed by one that returns no error from what the
    first returns. -/
theorem NeverFails.bind_ok {x : SessionM σ (Except RipError β)}
    {f : Except RipError β → SessionM σ (Except RipError α)} (hx : NeverFails x)
    (hmx : Moves ReadStep x) (hf : ∀ b, NeverFails (f (.ok b))) : NeverFails (x >>= f) := by
  intro s hs e
  rw [run_bind]
  cases hr : (x.run s).1 with
  | error e' => exact absurd hr (hx s hs e')
  | ok b => exact hf b _ (hs.of_steps (hmx s)) e

end Rules

variable [SectorSource σ]

theorem skipFrame_neverFails (begin : Int64) (m : Int32) :
    NeverFails (skipFrame begin m : SessionM σ _) := by
  unfold skipFrame
  refine NeverFails.get_bind fun s hs => ?_
  -- with skipping on, the frame is skipped and not refused
  rw [if_neg (by simp [hs.1])]
  exact NeverFails.bind (Moves.ofRootEdit (report_moves _ _)) (fun _ =>
    NeverFails.bind (Moves.ofRootEdit (editRoot_moves _)) fun _ =>
      NeverFails.bind (Moves.ofRootEdit (copyFrame_moves _)) fun _ => NeverFails.pure_ok _) s hs

theorem readBatch_neverFails (sector : Sector) (count : Nat) (drift : Int64) (read : Nat)
    (single : Bool) (acc : ByteArray) :
    NeverFails (readBatch sector count drift read single acc : SessionM σ _) := by
  induction read, single, acc using readBatch.induct count with
  | case1 read single acc hlt ih1 ih2 =>
    rw [readBatch, dif_pos hlt]
    refine NeverFails.get_bind fun s hs => ?_
    extract_lets lsn want
    split
    next r drive hread =>
    -- the read keeps the drive open, so it does not fail for a closed drive
    have hstep := BatchStep.driveRead s lsn want (count - read)
    rw [hread] at hstep
    have hs' := hs.of_settings hstep.settings_eq
    have hne : r ≠ .error .deviceNotOpen := by
      have := Drive.read_ne_deviceNotOpen hs.2 lsn want (count - read)
      rwa [hread] at this
    refine FailsNotFrom.set_bind ?_
    split
    · exact FailsNotFrom.dite (fun _ => NeverFails.pure_ok _ _ hs') fun hn => ih1 _ hn _ hs'
    · exact absurd rfl hne
    · next e hne' =>
      refine NeverFails.bind (Moves.ofRootEdit (report_moves _ _)) (fun _ u hu => ?_) _ hs'
      refine FailsNotFrom.ite (fun _ => NeverFails.bind (Moves.modify fun v =>
        ReadStep.batch (BatchStep.note v v.reports _)) (fun _ => NeverFails.pure_ok _) u hu)
        fun hsk => ?_
      exact FailsNotFrom.dite (fun h1 => ih2 e hsk h1 u hu) fun _ => NeverFails.pure_ok _ u hu
  | case2 read single acc hge =>
    rw [readBatch, dif_neg hge]
    exact NeverFails.pure_ok _

omit [SectorSource σ] in
/-- In a range that fits, the buffer of a batch from a sector of the range stays inside the
    signed 64-bit range, so its allocation does not panic. -/
theorem batchBytes_lt {s : Session σ} (hs : s.SkipsOpen) {sector : Sector}
    (hfirst : s.firstSector ≤ sector) (hlast : sector ≤ s.lastSector) :
    min s.readahead (s.lastSector - sector + 1).toCount * sectorBytes % 2 ^ 64 < 2 ^ 63 := by
  have hf := Int32.le_iff_toInt_le.1 hfirst
  rw [Sector.toCount_sub_add_one hlast (by have := hs.fits; omega)]
  have hmax := Int32.toInt_maxValue
  have hcount : min s.readahead (s.lastSector.toInt - sector.toInt + 1).toNat < 2 ^ 31 := by
    have := hs.fits
    omega
  have e : sectorBytes = 2352 := rfl
  rw [e, Nat.mod_eq_of_lt (by omega)]
  omega

theorem readBlock_neverFails (begin : Int64) : NeverFails (readBlock begin : SessionM σ _) := by
  unfold readBlock
  refine NeverFails.get_bind fun s hs => ?_
  extract_lets drift sector
  refine FailsNotFrom.ite (fun _ => NeverFails.pure_ok _ s hs) fun hin => ?_
  -- the batch's buffer fits, so the allocation does not panic
  refine FailsNotFrom.ite (fun hbig => absurd hbig (Nat.not_le.2 (batchBytes_lt hs
    (firstSector_le_blockSector s begin) (Int32.not_lt.1 hin)))) fun _ => ?_
  refine NeverFails.bind_ok (readBatch_neverFails _ _ _ _ _ _)
    ((readBatch_moves _ _ _ _ _ _).mono fun _ _ h => ReadStep.batch h) (fun bytes u hu => ?_) s hs
  dsimp only
  refine FailsNotFrom.ite (fun _ => NeverFails.pure_ok _ u hu) fun _ => ?_
  -- what is left stores the block and returns its handle
  refine NeverFails.bind (Moves.ofRootEdit (report_moves _ _)) (fun _ v _ e he => ?_) u hu
  cases he

theorem fillSilence_neverFails : NeverFails (fillSilence : SessionM σ _) := by
  unfold fillSilence
  exact NeverFails.get_bind fun s hs => NeverFails.bind (Moves.ofRootEdit (report_moves _ _))
    (fun _ => NeverFails.bind (Moves.ofRootEdit (Moves.modify fun v =>
      RootEdit.edit v id _ v.reports)) fun _ => NeverFails.pure_ok _) s hs

theorem verifyRounds_neverFails (hc : SourceContract σ) (begin : Int64) (maxRetries : Int32)
    (retries : Int) (lastEnd : Int64) :
    NeverFails (verifyRounds begin maxRetries retries lastEnd : SessionM σ _) := by
  induction retries, lastEnd using verifyRounds.induct (σ := σ) maxRetries with
  | case1 retries lastEnd ihgrew ihretry =>
    rw [verifyRounds]
    extract_lets relaxed finishRound
    -- every round ends by handing the frame out or skipping it, or by another round
    have handOut : NeverFails (do
        if ← copyFrame begin then pure (.ok ()) else skipFrame begin maxRetries : SessionM σ _) :=
      NeverFails.bind (Moves.ofRootEdit (copyFrame_moves begin)) fun _ u hu =>
        FailsNotFrom.ite (fun _ => NeverFails.pure_ok _ u hu) fun _ => skipFrame_neverFails _ _ u hu
    have hfinish : ∀ u, NeverFails (finishRound u) := by
      intro u
      refine NeverFails.get_bind fun s hs => ?_
      refine FailsNotFrom.dite (fun hgrew => ?_) fun _ => ?_
      · exact FailsNotFrom.ite (fun _ => handOut s hs) fun _ => ihgrew s hgrew s hs
      · exact FailsNotFrom.ite (fun _ => handOut s hs) fun hr => ihretry hr s hs
    refine NeverFails.bind (Moves.ofRootEdit (copyFrame_moves begin)) fun _ s hs =>
      FailsNotFrom.ite (fun _ => NeverFails.pure_ok _ s hs) fun _ => ?_
    refine NeverFails.bind (Moves.ofMerge (mergeFragments_moves _ _)) (fun _ =>
      NeverFails.bind (Moves.ofRootEdit (copyFrame_moves begin)) fun _ t ht => ?_) s hs
    refine FailsNotFrom.ite (fun _ => NeverFails.pure_ok _ t ht) fun _ => ?_
    refine NeverFails.bind_ok (readBlock_neverFails begin) (readBlock_moves hc begin)
      (fun r => ?_) t ht
    cases r with
    | some h => exact NeverFails.bind (verifyBlock_moves _) fun _ =>
        NeverFails.bind (Moves.ofMerge (mergeFragments_moves _ _)) hfinish
    | none => exact hfinish ()

theorem readVerified_neverFails (hc : SourceContract σ) (begin : Int64) (maxRetries : Int32) :
    NeverFails (readVerified begin maxRetries : SessionM σ _) := by
  unfold readVerified
  exact NeverFails.bind (Moves.modify fun s => ReadStep.trim s _ _) fun _ =>
    NeverFails.get_bind fun s hs => verifyRounds_neverFails hc _ _ _ _ s hs

theorem readDirect_neverFails (sector : Sector) : NeverFails (readDirect sector : SessionM σ _) := by
  unfold readDirect
  refine NeverFails.get_bind fun s hs => ?_
  refine NeverFails.bind (Moves.ofRootEdit (report_moves _ _))
    (fun _ => NeverFails.get_bind fun t ht => ?_) s hs
  split
  next r drive hread =>
  have hstep := BatchStep.driveRead t sector 1 1
  rw [hread] at hstep
  have ht' := ht.of_settings hstep.settings_eq
  refine FailsNotFrom.set_bind ?_
  -- a short read and a read error are both filled with silence
  split
  · refine FailsNotFrom.ite (fun _ => NeverFails.bind (Moves.ofRootEdit (Moves.modify fun v =>
      RootEdit.edit v id _ v.reports)) (fun _ => NeverFails.pure_ok _) _ ht') fun _ => ?_
    rw [if_pos ht.1]
    exact fillSilence_neverFails _ ht'
  · next e =>
    have hne : e ≠ .deviceNotOpen := by
      intro he
      have := Drive.read_ne_deviceNotOpen ht.2 sector 1 1
      rw [hread, he] at this
      exact this rfl
    rw [if_pos ⟨ht.1, hne⟩]
    exact fillSilence_neverFails _ ht'

/-- What a read of the frame under the cursor can do: fail and leave the settings, which with
    skipping on and the drive open happens only past the range's end; or return a frame and move
    the cursor on by one frame, leaving every other setting. -/
theorem readLimited_cases (hc : SourceContract σ) (maxRetries : Int32) (s : Session σ) :
    (((readLimited maxRetries).run s).2.settings = s.settings ∧
        (∃ e, ((readLimited maxRetries).run s).1 = .error e) ∧
        (s.SkipsOpen → s.lastSector < s.cursorSector)) ∨
      (¬s.lastSector < s.cursorSector ∧ (∃ f, ((readLimited maxRetries).run s).1 = .ok f) ∧
        ((readLimited maxRetries).run s).2.settings =
          settings { s with cursor := s.cursor + Int64.ofNat frameWords }) := by
  rw [readLimited, run_modify_bind, run_get_bind]
  set u : Session σ := { s with reports := #[] }
  extract_lets sector finish
  split
  · next h => exact .inl ⟨rfl, ⟨_, rfl⟩, fun _ => h⟩
  next hin =>
  have hread : ∀ x : SessionM σ (Except RipError Unit), NeverFails x →
      Relation.ReflTransGen ReadStep u (x.run u).2 →
      ((((x >>= finish).run u).2.settings = s.settings ∧ (∃ e, ((x >>= finish).run u).1 = .error e) ∧
        (s.SkipsOpen → s.lastSector < sector)) ∨
      (¬s.lastSector < sector ∧ (∃ f, ((x >>= finish).run u).1 = .ok f) ∧
        ((x >>= finish).run u).2.settings =
          settings { s with cursor := s.cursor + Int64.ofNat frameWords })) := by
    intro x hx hmx
    have hset := eq_of_steps settings (fun _ _ h => h.settings_eq) hmx
    rw [run_bind]
    cases hr : (x.run u).1 with
    | error e => exact .inl ⟨hset, ⟨e, rfl⟩, fun hs =>
      absurd hr (hx u (hs.of_settings (show u.settings = s.settings from rfl)) e)⟩
    | ok v =>
      refine .inr ⟨hin, ⟨_, rfl⟩, ?_⟩
      change { (x.run u).2.settings with cursor := (x.run u).2.cursor + Int64.ofNat frameWords } = _
      rw [hset, show (x.run u).2.cursor = s.cursor from congrArg Settings.cursor hset]
      rfl
  split
  · exact hread _ (readVerified_neverFails hc _ _) (readVerified_moves hc _ _ u)
  · exact hread _ (readDirect_neverFails _) (readDirect_moves _ u)

/-- A read of a frame in the range, with skipping on and the drive open, returns the frame and
    moves the cursor on by a frame; every other setting stays. -/
theorem readLimited_advances (hc : SourceContract σ) (maxRetries : Int32) (s : Session σ)
    (hs : s.SkipsOpen) (hin : ¬s.lastSector < s.cursorSector) :
    (∃ f, ((readLimited maxRetries).run s).1 = .ok f) ∧
      ((readLimited maxRetries).run s).2.settings =
        settings { s with cursor := s.cursor + Int64.ofNat frameWords } := by
  rcases readLimited_cases hc maxRetries s with ⟨-, -, hout⟩ | ⟨-, hok, hset⟩
  · exact absurd (hout hs) hin
  · exact ⟨hok, hset⟩

theorem read_run (s : Session σ) :
    (read : SessionM σ _).run s = (readLimited s.maxRetries).run s := by
  rw [read, run_get_bind]

theorem readLimited_cursorBounded (hc : SourceContract σ) (maxRetries : Int32) (s : Session σ)
    (hlast : s.lastSector < Int32.maxValue) (hs : s.CursorBounded) :
    ((readLimited maxRetries).run s).2.CursorBounded ∧
      ((readLimited maxRetries).run s).2.lastSector = s.lastSector := by
  rcases readLimited_cases hc maxRetries s with ⟨hset, -, -⟩ | ⟨hin, -, hset⟩
  · exact ⟨hs.of_cursor_eq (congrArg Settings.cursor hset), congrArg Settings.lastSector hset⟩
  · have hlt : s.cursorSector < Int32.maxValue := Int32.lt_of_le_of_lt (Int32.not_lt.1 hin) hlast
    exact ⟨(hs.advance hlt (congrArg Settings.cursor hset)).1, congrArg Settings.lastSector hset⟩

theorem readAll_cursorBounded (hc : SourceContract σ) (n : Nat) (s : Session σ)
    (hlast : s.lastSector < Int32.maxValue) (hs : s.CursorBounded) :
    ((readAll n).run s).2.CursorBounded ∧ ((readAll n).run s).2.lastSector = s.lastSector := by
  induction n generalizing s with
  | zero => exact ⟨hs, rfl⟩
  | succ n ih =>
    rw [readAll, run_get_bind]
    split
    · exact ⟨hs, rfl⟩
    rw [run_bind, read_run]
    obtain ⟨hb, hl⟩ := readLimited_cursorBounded hc s.maxRetries s hlast hs
    rw [run_get_bind]
    dsimp only
    -- a panic ends the reading where it happened
    split
    · rw [if_pos rfl]
      exact ⟨hb, hl⟩
    rw [if_neg Bool.false_ne_true, run_bind]
    obtain ⟨hb', hl'⟩ := ih _ (hl ▸ hlast) hb
    exact ⟨hb', hl'.trans hl⟩

theorem readAll_past_end {s : Session σ} (h : s.lastSector < s.cursorSector) (n : Nat) :
    ((readAll n).run s).1 = [] := by
  cases n with
  | zero => rfl
  | succ n =>
    rw [readAll, run_get_bind, if_pos h]
    rfl

/-- In the range, with skipping on and the drive open, reading frames reads the one under the
    cursor, which is no panic, and goes on from the session that read leaves. -/
theorem readAll_succ_of_in_range (hc : SourceContract σ) (n : Nat) (s : Session σ)
    (hs : s.SkipsOpen) (hin : ¬s.lastSector < s.cursorSector) :
    ∃ f, (readAll (n + 1)).run s =
      ((.ok f, ((readLimited s.maxRetries).run s).2.reports) ::
          ((readAll n).run ((readLimited s.maxRetries).run s).2).1,
        ((readAll n).run ((readLimited s.maxRetries).run s).2).2) := by
  obtain ⟨⟨f, hf⟩, -⟩ := readLimited_advances hc s.maxRetries s hs hin
  rw [readAll, run_get_bind, if_neg hin, run_bind, read_run, run_get_bind]
  dsimp only
  rw [hf, if_neg Bool.false_ne_true, run_bind]
  exact ⟨f, rfl⟩

/-- From a session with skipping on, the drive open and a bounded cursor, in a range that ends
    below the greatest sector word, reading `n` frames yields the frames from the cursor to the
    range's end, at most `n` of them, every one read, and stops short of `n` only past the end. -/
theorem readAll_frames (hc : SourceContract σ) (n : Nat) (s : Session σ) (hs : s.SkipsOpen)
    (hb : s.CursorBounded) (hlast : s.lastSector < Int32.maxValue) :
    ((readAll n).run s).1.length = min n (s.lastSector.toInt - s.cursorSector.toInt + 1).toNat ∧
      (∀ r ∈ ((readAll n).run s).1, ∃ f, r.1 = .ok f) ∧
      (((readAll n).run s).1.length < n →
        ((readAll n).run s).2.lastSector < ((readAll n).run s).2.cursorSector) := by
  induction n generalizing s with
  | zero =>
    exact ⟨(Nat.zero_min _).symm, fun _ hr => absurd hr List.not_mem_nil,
      fun h => absurd h (Nat.lt_irrefl 0)⟩
  | succ n ih =>
    by_cases hout : s.lastSector < s.cursorSector
    · -- past the range's end nothing is read
      have hrun : (readAll (n + 1)).run s = ([], s) := by
        rw [readAll, run_get_bind, if_pos hout]
        rfl
      have hnone : (s.lastSector.toInt - s.cursorSector.toInt + 1).toNat = 0 := by
        have := Int32.lt_iff_toInt_lt.1 hout
        omega
      rw [hrun]
      exact ⟨by rw [hnone]; rfl, fun _ hr => absurd hr List.not_mem_nil, fun _ => hout⟩
    obtain ⟨f, hrun⟩ := readAll_succ_of_in_range hc n s hs hout
    obtain ⟨-, hset⟩ := readLimited_advances hc s.maxRetries s hs hout
    set t := ((readLimited s.maxRetries).run s).2
    -- the read moved the cursor on to the next sector and kept the rest
    have hlt : s.cursorSector < Int32.maxValue := Int32.lt_of_le_of_lt (Int32.not_lt.1 hout) hlast
    obtain ⟨hbt, hcs⟩ := hb.advance hlt (congrArg Settings.cursor hset)
    have hlast_t : t.lastSector = s.lastSector := congrArg Settings.lastSector hset
    have hfirst_t : t.firstSector = s.firstSector := congrArg Settings.firstSector hset
    have hst : t.SkipsOpen :=
      ⟨(congrArg Settings.enableSkip hset).trans hs.1, (congrArg Settings.opened hset).trans hs.2,
        by rw [hlast_t, hfirst_t]; exact hs.3⟩
    obtain ⟨hlen, hok, hend⟩ := ih t hst hbt (hlast_t ▸ hlast)
    have hin' := Int32.not_lt.1 hout
    rw [Int32.le_iff_toInt_le] at hin'
    rw [hrun]
    refine ⟨?_, ?_, ?_⟩
    · change ((readAll n).run t).1.length + 1 = _
      rw [hlen, hlast_t, hcs]
      omega
    · intro r hr
      rcases List.mem_cons.1 hr with rfl | hr
      · exact ⟨f, rfl⟩
      · exact hok r hr
    · intro hshort
      exact hend (by change ((readAll n).run t).1.length + 1 < n + 1 at hshort; omega)

/-! ### Reachable sessions -/

/-- Every operation from a session whose range ends below the greatest sector word keeps the
    cursor bounded. -/
theorem SessionOp.cursorBounded (hc : SourceContract σ) (op : SessionOp) {s : Session σ}
    (hlast : s.lastSector < Int32.maxValue) (hs : s.CursorBounded) : (op.run s).CursorBounded := by
  cases op with
  | setRange start stop =>
    -- the cursor stays, or moves to the start of the new range
    change (s.setRange start stop).CursorBounded
    obtain ⟨c, hcur | hcur, e⟩ := setRange_eq s start stop
    · rw [e]
      exact hs.of_cursor_eq hcur
    · rw [e]
      exact CursorBounded.of_sector _ hcur
  | seek o =>
    dsimp only [SessionOp.run]
    split
    · next sector t h =>
      obtain ⟨n, hfirst, hlastn, -, rfl⟩ := seek?_eq_some h
      have hsize : (Int64.size : Int) = 18446744073709551616 := rfl
      have hfw : (frameWords : Int) = 1176 := rfl
      have hmin := Int32.toInt_minValue
      have hmax := Int32.toInt_maxValue
      have hlo := Int32.le_toInt s.firstSector
      have hhi := Int32.toInt_lt s.lastSector
      refine CursorBounded.of_toInt (n := n) (by omega) (by omega) ?_
      change (Int64.ofInt (n * frameWords)).toInt = _
      rw [Int64.toInt_ofInt, hfw]
      exact Int.bmod_eq_of_le (by omega) (by omega)
    · exact hs
  | read =>
    change (Session.read.run s).2.CursorBounded
    rw [read_run]
    exact (readLimited_cursorBounded hc s.maxRetries s hlast hs).1
  | readLimited m => exact (readLimited_cursorBounded hc m s hlast hs).1
  | readAll n => exact (readAll_cursorBounded hc n s hlast hs).1
  | setMode | setOverlap | setReadahead | setMaxRetries => exact ⟨hs.ge_min, hs.le_max⟩

theorem Reachable.opened_eq (hc : SourceContract σ) {d : Drive σ} {s : Session σ}
    (h : Reachable d s) : s.drive.opened = d.opened :=
  h.induction_steps hc (P := fun s => s.drive.opened = d.opened) rfl
    fun _ _ hst hs => hst.opened_eq.trans hs

theorem Reachable.lastSector_le (hc : SourceContract σ) {d : Drive σ} {s : Session σ}
    (h : Reachable d s) : s.lastSector ≤ d.lastSector := by
  have hd : s.drive.lastSector = d.lastSector :=
    h.induction_steps hc (P := fun s => s.drive.lastSector = d.lastSector) rfl
      fun _ _ hst hs => hst.driveRange_eq.2.trans hs
  exact hd ▸ (h.wellformed hc).last_le

theorem Reachable.firstSector_ge (hc : SourceContract σ) {d : Drive σ} {s : Session σ}
    (h : Reachable d s) : d.firstSector ≤ s.firstSector := by
  have hd : s.drive.firstSector = d.firstSector :=
    h.induction_steps hc (P := fun s => s.drive.firstSector = d.firstSector) rfl
      fun _ _ hst hs => hst.driveRange_eq.1.trans hs
  exact hd ▸ (h.wellformed hc).first_le

/-- The range of a session reachable on a drive whose range fits fits too. -/
theorem Reachable.rangeFits (hc : SourceContract σ) {d : Drive σ} (hfit : d.RangeFits)
    {s : Session σ} (h : Reachable d s) :
    s.lastSector.toInt - s.firstSector.toInt < Int32.maxValue.toInt := by
  have hl := Int32.le_iff_toInt_le.1 (h.lastSector_le hc)
  have hf := Int32.le_iff_toInt_le.1 (h.firstSector_ge hc)
  unfold Drive.RangeFits at hfit
  omega

/-- On a drive whose range ends below the greatest sector word, every reachable session has a
    bounded cursor. -/
theorem Reachable.cursorBounded (hc : SourceContract σ) {d : Drive σ}
    (hmax : d.lastSector < Int32.maxValue) {s : Session σ} (h : Reachable d s) : s.CursorBounded := by
  induction h with
  | opened => exact CursorBounded.of_sector _ rfl
  | step op hr ih => exact op.cursorBounded hc (Int32.lt_of_le_of_lt (hr.lastSector_le hc) hmax) ih

/-- Reads end and deliver every frame of the range. The merge loop that stage two runs inside a
    read ends within its bound of passes: any larger bound runs the same passes. With skipping on,
    the drive open and a range of fewer than `2 ^ 31 - 1` sectors, a read of a frame in the range
    returns it and moves the cursor on by one frame. And on a drive whose range is that short
    and ends below the greatest sector word, reading `n` frames from any reachable session with
    skipping on yields `min n (last - cursor sector + 1)` frames, all read, and when it yields
    fewer than `n`, reading on yields nothing. -/
theorem reads_deliver_frames_to_range_end (hc : SourceContract σ) :
    (∀ (s : Session σ) (n m : Nat), s.cache.Indexed → s.cache.fragmentCount < n → n ≤ m →
      (mergePasses m).run s = (mergePasses n).run s) ∧
    (∀ (s : Session σ) (maxRetries : Int32), s.enableSkip = true → s.drive.opened = true →
      s.lastSector.toInt - s.firstSector.toInt < Int32.maxValue.toInt →
      ¬s.lastSector < s.cursorSector →
      (∃ f, ((readLimited maxRetries).run s).1 = .ok f) ∧
        ((readLimited maxRetries).run s).2.cursor = s.cursor + Int64.ofNat frameWords) ∧
    (∀ (d : Drive σ) (s : Session σ) (n : Nat), d.opened = true → d.lastSector < Int32.maxValue →
      d.RangeFits → Reachable d s → s.enableSkip = true →
      ((readAll n).run s).1.length = min n (s.lastSector.toInt - s.cursorSector.toInt + 1).toNat ∧
      (∀ r ∈ ((readAll n).run s).1, ∃ f, r.1 = .ok f) ∧
      (((readAll n).run s).1.length < n → ∀ k, ((readAll k).run ((readAll n).run s).2).1 = [])) := by
  refine ⟨fun s n m hs hn hm => mergePasses_eq_of_lt s hs hn hm, fun s m hskip hopen hfit hin => ?_,
    fun d s n hopen hmax hfit hr hskip => ?_⟩
  · obtain ⟨hok, hset⟩ := readLimited_advances hc m s ⟨hskip, hopen, hfit⟩ hin
    exact ⟨hok, congrArg Settings.cursor hset⟩
  · have hs : s.SkipsOpen := ⟨hskip, (hr.opened_eq hc).trans hopen, hr.rangeFits hc hfit⟩
    obtain ⟨hlen, hok, hend⟩ := readAll_frames hc n s hs (hr.cursorBounded hc hmax)
      (Int32.lt_of_le_of_lt (hr.lastSector_le hc) hmax)
    exact ⟨hlen, hok, fun hshort k => readAll_past_end (hend hshort) k⟩

theorem reads_deliver_frames_to_range_end_syntheticDrive :
    SourceContract MemoryDisc ∧ syntheticDrive.RangeFits ∧
      ((readAll 200).run (ofDrive syntheticDrive)).1.length = 100 :=
  ⟨MemoryDisc.sourceContract, by decide,
    ((reads_deliver_frames_to_range_end MemoryDisc.sourceContract).2.2 syntheticDrive
      (ofDrive syntheticDrive) 200 rfl (by decide) (by decide) .opened rfl).1.trans (by decide)⟩

end VerifiedRip.Session

/-! ### A count that wraps -/

namespace VerifiedRip

theorem Sector.toCount_of_neg {x : Sector} (h : x.toInt < 0) :
    x.toCount = (x.toInt + 2 ^ 64).toNat := by
  unfold Sector.toCount
  have e : x.toInt64.toInt = x.toInt64.toBitVec.toInt := rfl
  rw [Int32.toInt_toInt64, BitVec.toInt_eq_toNat_cond] at e
  have hlt := x.toInt64.toBitVec.isLt
  change x.toInt64.toBitVec.toNat = _
  split at e <;> omega

/-- The sectors from `sector` to `last`, when there are `2 ^ 31` of them or more but fewer than
    `2 ^ 32`: their number wraps to a negative sector word, which read as a 64-bit count lies
    within `2 ^ 31` of `2 ^ 64`. -/
theorem Sector.toCount_sub_add_one_of_wraps {sector last : Sector}
    (hwrap : 2 ^ 31 ≤ last.toInt - sector.toInt + 1)
    (hbelow : last.toInt - sector.toInt + 1 < 2 ^ 32) :
    2 ^ 64 - 2 ^ 31 ≤ (last - sector + 1).toCount := by
  have hmax := Int32.toInt_maxValue
  have e := @Sector.toInt_sub_add_one sector last (Int32.le_iff_toInt_le.2 (by omega))
  rw [if_neg (by omega)] at e
  rw [Sector.toCount_of_neg (by omega), e]
  omega

theorem Root.frameAt?_of_isEmpty (r : Root) (q : Int64) (h : r.isEmpty = true) :
    r.frameAt? q = none := by
  simp [Root.frameAt?, Root.coversFrame, Root.covers, h]

namespace Session

variable {σ : Type} [SectorSource σ]

/-- A block read whose sectors to the range's end number `2 ^ 31` or more wraps its count as a
    sector word, so the readahead is not capped; a readahead whose buffer lies past the signed
    64-bit range then panics, before the drive is asked for anything. -/
theorem readBlock_of_wrapped_count (s : Session σ) (b : Int64)
    (hwrap : 2 ^ 31 ≤ s.lastSector.toInt - (s.blockSector b).toInt + 1)
    (hbelow : s.lastSector.toInt - (s.blockSector b).toInt + 1 < 2 ^ 32)
    (hbuf : 2 ^ 63 ≤ s.readahead * sectorBytes) (hbuf' : s.readahead * sectorBytes < 2 ^ 64) :
    (readBlock b).run s = (.error .panic, s) := by
  have hcount := Sector.toCount_sub_add_one_of_wraps hwrap hbelow
  have hahead : s.readahead < 2 ^ 64 - 2 ^ 31 := by
    have e : sectorBytes = 2352 := rfl
    rw [e] at hbuf'
    omega
  have hp : Nat.pow 2 64 = 2 ^ 64 := rfl
  have hq : Nat.pow 2 63 = 2 ^ 63 := rfl
  rw [readBlock, run_get_bind]
  dsimp only
  rw [if_neg (by rw [Int32.lt_iff_toInt_lt]; omega)]
  -- the wrapped count exceeds the readahead, which is left as the count
  rw [Nat.min_eq_left (by omega), hp, hq, Nat.mod_eq_of_lt hbuf', if_pos hbuf]
  rfl

/-- With an empty cache, the first round of verification merges nothing and reads a block; a
    block read that panics ends the verification with that panic. -/
theorem verifyRounds_of_wrapped_count (s : Session σ) (b : Int64) (m : Int32) (retries : Int)
    (lastEnd : Int64) (hempty : s.cache.root.isEmpty = true) (hfrag : s.cache.fragmentOrder = #[])
    (hwrap : 2 ^ 31 ≤ s.lastSector.toInt - (s.blockSector b).toInt + 1)
    (hbelow : s.lastSector.toInt - (s.blockSector b).toInt + 1 < 2 ^ 32)
    (hbuf : 2 ^ 63 ≤ s.readahead * sectorBytes) (hbuf' : s.readahead * sectorBytes < 2 ^ 64) :
    (verifyRounds b m retries lastEnd).run s = (.error .panic, s) := by
  have hnone := Root.frameAt?_of_isEmpty s.cache.root b hempty
  rw [verifyRounds, run_bind, copyFrame_of_none s b hnone]
  dsimp only
  rw [if_neg Bool.false_ne_true, run_bind, mergeFragments_of_no_fragments s b _ hfrag]
  dsimp only
  rw [run_bind, copyFrame_of_none s b hnone]
  dsimp only
  rw [if_neg Bool.false_ne_true, run_bind, readBlock_of_wrapped_count s b hwrap hbelow hbuf hbuf']
  rfl

theorem readVerified_of_wrapped_count (s : Session σ) (b : Int64) (m : Int32)
    (hempty : s.cache.root.isEmpty = true) (hfrag : s.cache.fragmentOrder = #[])
    (hwrap : 2 ^ 31 ≤ s.lastSector.toInt - (s.blockSector b).toInt + 1)
    (hbelow : s.lastSector.toInt - (s.blockSector b).toInt + 1 < 2 ^ 32)
    (hbuf : 2 ^ 63 ≤ s.readahead * sectorBytes) (hbuf' : s.readahead * sectorBytes < 2 ^ 64) :
    (readVerified b m).run s =
      (.error .panic, { s with cache := s.cache.trim b (b + Int64.ofNat frameWords) }) := by
  rw [readVerified, run_modify_bind, run_get_bind]
  set s₁ : Session σ := { s with cache := s.cache.trim b (b + Int64.ofNat frameWords) } with hs₁
  -- trimming an empty root leaves it empty, so the first block is placed as before
  have hroot : s₁.cache.root = s.cache.root := by
    change (s.cache.trim b (b + Int64.ofNat frameWords)).root = _
    rw [FragmentCache.trim_root]
    simp [hempty]
  have hsector : s₁.blockSector b = s.blockSector b := blockSector_of_root_eq s s₁ b hroot rfl rfl rfl
  rw [← hsector] at hwrap hbelow
  exact verifyRounds_of_wrapped_count s₁ b m 0 _ (hroot ▸ hempty)
    (s.cache.trim_fragmentOrder_of_empty b (b + Int64.ofNat frameWords) hfrag) hwrap hbelow hbuf hbuf'

theorem readLimited_of_readVerified_error (s t : Session σ) (m : Int32) (e : RipError)
    (hmode : s.mode.verified = true) (hrange : ¬ s.lastSector < s.cursorSector)
    (h : (readVerified s.cursor m).run { s with reports := #[] } = (.error e, t)) :
    (readLimited m).run s = (.error e, t) := by
  rw [readLimited, run_modify_bind, run_get_bind]
  dsimp only
  have hrange' : ¬ s.lastSector < ({ s with reports := #[] } : Session σ).cursorSector := hrange
  rw [if_neg hrange', if_pos hmode, run_bind, h]
  rfl

/-- In a verified mode, with nothing cached (a fresh session, or one just moved by a seek), a read
    in the range panics whenever the sectors from the first block's sector to the range's end
    number from `2 ^ 31` to `2 ^ 32 - 1` and the readahead's buffer lies between `2 ^ 63` and
    `2 ^ 64` bytes: the count of those sectors wraps as a sector word and no longer caps the
    readahead. The read panics before it asks the drive for anything, and leaves the cursor. -/
theorem readLimited_panics_of_wrapped_count (s : Session σ) (m : Int32)
    (hmode : s.mode.verified = true) (hrange : ¬ s.lastSector < s.cursorSector)
    (hempty : s.cache.root.isEmpty = true) (hfrag : s.cache.fragmentOrder = #[])
    (hwrap : 2 ^ 31 ≤ s.lastSector.toInt - (s.blockSector s.cursor).toInt + 1)
    (hbelow : s.lastSector.toInt - (s.blockSector s.cursor).toInt + 1 < 2 ^ 32)
    (hbuf : 2 ^ 63 ≤ s.readahead * sectorBytes) (hbuf' : s.readahead * sectorBytes < 2 ^ 64) :
    ∃ t, (readLimited m).run s = (.error .panic, t) ∧ t.drive = s.drive ∧ t.cursor = s.cursor :=
  ⟨_, readLimited_of_readVerified_error s _ m .panic hmode hrange
    (readVerified_of_wrapped_count _ s.cursor m hempty hfrag hwrap hbelow hbuf hbuf'), rfl, rfl⟩

end Session

/-- A drive on a hundred synthetic sectors whose table of contents puts the lead-out at the least
    sector word, so that the last audio sector, the one before it, wraps to the greatest. -/
def wrappedLeadoutDrive : Drive MemoryDisc :=
  let toc : Toc := ⟨[⟨1, 0, true⟩, ⟨2, 50, true⟩], Int32.minValue⟩
  { source := (MemoryDisc.synthetic 100).withToc toc, opened := true, toc,
    lastSector := Int32.maxValue, errorDest := .forget, messageDest := .forget,
    jitter := { draw := fun _ => 0 } }

/-- A fresh session on that drive reading `4 * 10 ^ 15` sectors ahead. -/
def hugeReadaheadSession : Session MemoryDisc :=
  (Session.ofDrive wrappedLeadoutDrive).setReadahead 4000000000000000

theorem Session.readLimited_panics_of_wrapped_count_hugeReadahead :
    hugeReadaheadSession.mode.verified = true ∧
      ¬ hugeReadaheadSession.lastSector < hugeReadaheadSession.cursorSector ∧
      hugeReadaheadSession.cache.root.isEmpty = true ∧
      hugeReadaheadSession.cache.fragmentOrder = #[] ∧
      2 ^ 31 ≤ hugeReadaheadSession.lastSector.toInt -
        (hugeReadaheadSession.blockSector hugeReadaheadSession.cursor).toInt + 1 ∧
      hugeReadaheadSession.lastSector.toInt -
        (hugeReadaheadSession.blockSector hugeReadaheadSession.cursor).toInt + 1 < 2 ^ 32 ∧
      2 ^ 63 ≤ hugeReadaheadSession.readahead * sectorBytes ∧
      hugeReadaheadSession.readahead * sectorBytes < 2 ^ 64 ∧
      ∃ t, (Session.readLimited 20).run hugeReadaheadSession = (.error .panic, t) ∧
        t.drive = hugeReadaheadSession.drive ∧ t.cursor = hugeReadaheadSession.cursor :=
  ⟨by decide, by decide, rfl, rfl, by decide, by decide, by decide, by decide,
    Session.readLimited_panics_of_wrapped_count hugeReadaheadSession 20 (by decide) (by decide) rfl
      rfl (by decide) (by decide) (by decide) (by decide)⟩

/-- A session on that drive whose range is the greatest sector word alone, the cursor moved to
    it. -/
def greatestSectorSession : Session MemoryDisc :=
  (Session.ofDrive wrappedLeadoutDrive).setRange Int32.maxValue Int32.maxValue

/-- Reading two frames from the greatest sector word yields two, where the range holds one: the
    first read takes the cursor's frame count to `2 ^ 31`, whose sector word is the least one,
    and the range has not ended. -/
theorem Session.readAll_runs_past_greatest_sector :
    greatestSectorSession.lastSector.toInt - greatestSectorSession.cursorSector.toInt + 1 = 1 ∧
      ((Session.readAll 2).run greatestSectorSession).1.length = 2 := by
  have hs : greatestSectorSession.SkipsOpen := ⟨rfl, rfl, by decide⟩
  have hin : ¬ greatestSectorSession.lastSector < greatestSectorSession.cursorSector := by decide
  obtain ⟨f, hrun⟩ := Session.readAll_succ_of_in_range MemoryDisc.sourceContract 1 _ hs hin
  obtain ⟨-, hset⟩ := Session.readLimited_advances MemoryDisc.sourceContract
    greatestSectorSession.maxRetries _ hs hin
  set t := ((Session.readLimited greatestSectorSession.maxRetries).run greatestSectorSession).2
  -- the read moves the cursor past the greatest sector word, and the count below it wraps
  have hwrap : t.cursorSector = Int32.minValue :=
    Session.cursorSector_advance_of_maxValue (Session.CursorBounded.of_sector Int32.maxValue
      (by decide)) (by decide) (congrArg Session.Settings.cursor hset)
  have hlast : t.lastSector = Int32.maxValue :=
    (congrArg Session.Settings.lastSector hset).trans (by decide)
  have hfirst : t.firstSector = Int32.maxValue :=
    (congrArg Session.Settings.firstSector hset).trans (by decide)
  have ht : t.SkipsOpen :=
    ⟨(congrArg Session.Settings.enableSkip hset).trans hs.1,
      (congrArg Session.Settings.opened hset).trans hs.2, by rw [hlast, hfirst]; decide⟩
  have hin' : ¬ t.lastSector < t.cursorSector := by
    rw [hlast, hwrap]
    decide
  obtain ⟨f', hrun'⟩ := Session.readAll_succ_of_in_range MemoryDisc.sourceContract 0 t ht hin'
  refine ⟨by decide, ?_⟩
  rw [hrun]
  change ((Session.readAll 1).run t).1.length + 1 = 2
  rw [hrun']
  rfl

end VerifiedRip
