import VerifiedRip.Proofs.ReadSteps
import VerifiedRip.Proofs.CacheOrder
import VerifiedRip.Proofs.TrackerDiscipline
/-!
# Reachable sessions

A caller drives a session by a sequence of operations: it sets the mode, the reading range, the
search width, the readahead or the retry limit, it seeks, and it reads frames. This module names
those operations (`SessionOp`) and the sessions they reach from a session opened on a drive
(`Reachable`), and breaks every operation into primitive steps (`SessionStep`): the steps of
reading a frame, the cursor moving on by a frame, one step per setting, and a seek.

Every operation, run from any session, is a finite run of steps (`SessionOp.steps`). A property
of the opened session that every step keeps therefore holds of every reachable session, and of
every state that a read passes through on the way.

## Main definitions

- `Session.SessionOp`, `SessionOp.run` — the operations and what they leave behind.
- `Session.Reachable d` — the sessions reached by operations from the one opened on `d`.
- `Session.SessionStep` — the primitive steps of every operation.
- `Session.Wellformed` — each order list of the cache lists each live entry once, and the
  reading range lies within the drive's audio range.

## Main statements

- `Tracker.record_cases`: counting an offset leaves the drift and the cache alone, or corrects
  the drift by some `av` and rebases the cache by that same `av`.
- `readLimited_moves`, `readAll_moves`, `SessionOp.steps`, `Reachable.steps`: operations are runs
  of steps.
- `SessionStep.wellformed`, `Reachable.wellformed`: every reachable session is well formed.
-/

namespace VerifiedRip

theorem Int32.min_le_right (a b : Int32) : min a b ≤ b := by
  simp only [min, Int32.le_iff_toInt_le]
  split <;> omega

namespace Tracker

/-- A drift correction adds `av` to the drift and rebases the cache by the same `av`; otherwise
    neither changes. -/
theorem correctDrift_cases (t : Tracker) (c : FragmentCache) :
    ((t.correctDrift c).1.drift = t.drift ∧ (t.correctDrift c).2.1 = c) ∨
    ∃ av, (t.correctDrift c).1.drift = t.drift + av ∧ (t.correctDrift c).2.1 = (c.rebase av).1 := by
  unfold correctDrift
  dsimp only
  split
  · split
    · exact .inr ⟨_, rfl, rfl⟩
    · exact .inl ⟨rfl, rfl⟩
  · exact .inl ⟨rfl, rfl⟩
/-- Counting an offset, on either stage, leaves the drift and the cache alone, or corrects the
    drift by some `av` and rebases the cache by the same `av`. -/
theorem record_cases (t : Tracker) (stage : Stage) (v : Int64) (c : FragmentCache) :
    ((t.record stage v c).1.drift = t.drift ∧ (t.record stage v c).2.1 = c) ∨
    ∃ av, (t.record stage v c).1.drift = t.drift + av ∧ (t.record stage v c).2.1 = (c.rebase av).1 := by
  have hend : ∀ u : Tracker, u.drift = t.drift →
      ((u.correctDrift c).1.adjustWidth.1.drift = t.drift ∧ (u.correctDrift c).2.1 = c) ∨
      ∃ av, (u.correctDrift c).1.adjustWidth.1.drift = t.drift + av ∧
        (u.correctDrift c).2.1 = (c.rebase av).1 := by
    intro u hu
    rw [adjustWidth_drift, ← hu]
    exact correctDrift_cases u c
  -- on either stage: a disabled stage or too few new points change nothing
  cases stage <;>
  · unfold record
    dsimp only
    split
    · exact .inl ⟨rfl, rfl⟩
    · split
      · exact hend _ rfl
      · exact .inl ⟨rfl, rfl⟩
end Tracker

namespace Session

variable {σ : Type}

/-! ### Operations and reachable sessions -/

/-- An operation that a caller asks of a session. -/
inductive SessionOp where
  | setMode (m : ReadMode)
  | setRange (start stop : Sector)
  | setOverlap (sectors : Int64)
  | setReadahead (n : Nat)
  | setMaxRetries (r : Int32)
  | seek (o : SeekOrigin)
  | read
  | readLimited (maxRetries : Int32)
  | readAll (max : Nat)

/-- A seek that finds the range non-empty moves the cursor to a sector of the range, forgets the
    cache and the drift, and changes nothing else. -/
theorem seek?_eq_some {s t : Session σ} {o : SeekOrigin} {sector : Sector}
    (h : s.seek? o = some (sector, t)) :
    ∃ n : Int, s.firstSector.toInt ≤ n ∧ n ≤ s.lastSector.toInt ∧ sector = Sector.ofInt n ∧
      t = { s with cursor := Int64.ofInt (n * frameWords), cache := s.cache.resetAll,
                   tracker := s.tracker.resetDrift, badSector := none } := by
  unfold seek? at h
  split at h
  · cases h
  · next hne =>
    cases h
    have hle : s.firstSector.toInt ≤ s.lastSector.toInt :=
      Int32.le_iff_toInt_le.1 (Int32.not_lt.1 hne)
    exact ⟨_, Int.le_max_left _ _, Int.max_le.2 ⟨hle, Int.min_le_right _ _⟩, rfl, rfl⟩

/-- Setting the range narrows it into the drive's, and leaves the cursor or moves it to the new
    range's start; nothing else changes. -/
theorem setRange_eq (s : Session σ) (start stop : Sector) :
    ∃ c, (c = s.cursor ∨ c = (max start s.drive.firstSector).toInt64 * Int64.ofNat frameWords) ∧
      s.setRange start stop =
        { s with firstSector := max start s.drive.firstSector,
                 lastSector := min stop s.drive.lastSector, cursor := c } := by
  unfold Session.setRange
  dsimp only
  split
  · exact ⟨_, .inr rfl, rfl⟩
  · exact ⟨s.cursor, .inl rfl, rfl⟩

/-- A counted offset keeps each live entry listed once, rebasing or not. -/
theorem indexed_record {c : FragmentCache} (hc : c.Indexed) (t : Tracker) (stage : Stage)
    (v : Int64) : (t.record stage v c).2.1.Indexed := by
  rcases t.record_cases stage v c with ⟨-, e⟩ | ⟨av, -, e⟩
  · rw [e]
    exact hc
  · rw [e]
    exact hc.run (.rebase av)

theorem MergeStep.indexed {s t : Session σ} (h : MergeStep s t) (hs : s.cache.Indexed) :
    t.cache.Indexed := by
  cases h with
  | edit h =>
    cases h
    exact ⟨hs.blocks, hs.fragments⟩
  | dropFragment g => exact hs.run (.removeFragment g)
  | record stage v => exact indexed_record hs _ stage v

variable [SectorSource σ]

/-- The session after the operation. A seek refused on an empty range leaves it as it is. -/
def SessionOp.run : SessionOp → Session σ → Session σ
  | .setMode m, s => s.setMode m
  | .setRange start stop, s => s.setRange start stop
  | .setOverlap sectors, s => s.setOverlap sectors
  | .setReadahead n, s => s.setReadahead n
  | .setMaxRetries r, s => s.setMaxRetries r
  | .seek o, s =>
    match s.seek? o with
    | some (_, t) => t
    | none => s
  | .read, s => (Session.read.run s).2
  | .readLimited m, s => ((Session.readLimited m).run s).2
  | .readAll n, s => ((Session.readAll n).run s).2

/-- The sessions that operations reach from the session opened on `d`. -/
inductive Reachable (d : Drive σ) : Session σ → Prop where
  | opened : Reachable d (ofDrive d)
  | step {s : Session σ} (op : SessionOp) : Reachable d s → Reachable d (op.run s)

/-! ### Operations as runs of steps -/

/-- The primitive steps of the operations of a session. -/
inductive SessionStep : Session σ → Session σ → Prop where
  /-- A step of reading a frame. -/
  | read {s t : Session σ} (h : ReadStep s t) : SessionStep s t
  /-- The cursor moved on by a frame. -/
  | advance (s : Session σ) : SessionStep s { s with cursor := s.cursor + Int64.ofNat frameWords }
  | setMode (s : Session σ) (m : ReadMode) : SessionStep s (s.setMode m)
  | setRange (s : Session σ) (start stop : Sector) : SessionStep s (s.setRange start stop)
  | setOverlap (s : Session σ) (sectors : Int64) : SessionStep s (s.setOverlap sectors)
  | setReadahead (s : Session σ) (n : Nat) : SessionStep s (s.setReadahead n)
  | setMaxRetries (s : Session σ) (r : Int32) : SessionStep s (s.setMaxRetries r)
  /-- A seek that found the range non-empty. -/
  | seek {s t : Session σ} (o : SeekOrigin) (sector : Sector) (h : s.seek? o = some (sector, t)) :
      SessionStep s t

theorem Moves.ofRead {α : Type} {x : SessionM σ α} (h : Moves ReadStep x) : Moves SessionStep x :=
  h.mono fun _ _ h => SessionStep.read h

theorem readLimited_moves (hc : SourceContract σ) (maxRetries : Int32) :
    Moves SessionStep (readLimited maxRetries : SessionM σ _) := by
  unfold readLimited
  -- clearing the reports is an edit that keeps the root as it is
  refine (Moves.modify fun s => SessionStep.read
    (ReadStep.merge (MergeStep.edit (RootEdit.edit s id s.frame #[])))).bind fun _ =>
      Moves.get_bind fun s => ?_
  refine MovesFrom.ite (fun _ => Moves.pure _ s) fun _ => ?_
  extract_lets finish
  -- a read frame moves the cursor on; a failed read leaves it
  have hfinish : ∀ r, Moves SessionStep (finish r) := by
    rintro (e | ⟨⟩)
    · exact Moves.pure _
    · exact (Moves.modify fun t => SessionStep.advance t).bind fun _ =>
        Moves.get_bind fun t => Moves.pure _ t
  exact MovesFrom.ite (fun _ => ((Moves.ofRead (readVerified_moves hc _ _)).bind hfinish) s)
    fun _ => ((Moves.ofRead (readDirect_moves _)).bind hfinish) s

theorem read_moves (hc : SourceContract σ) : Moves SessionStep (read : SessionM σ _) :=
  Moves.get_bind fun s => readLimited_moves hc s.maxRetries s

theorem readAll_moves (hc : SourceContract σ) (max : Nat) :
    Moves SessionStep (readAll max : SessionM σ _) := by
  induction max with
  | zero =>
    rw [readAll]
    exact Moves.pure _
  | succ n ih =>
    rw [readAll]
    refine Moves.get_bind fun s => MovesFrom.ite (fun _ => Moves.pure _ s) fun _ => ?_
    exact ((read_moves hc).bind fun _ => Moves.get_bind fun t =>
      MovesFrom.ite (fun _ => Moves.pure _ t) fun _ => (ih.bind fun _ => Moves.pure _) t) s

/-- Every operation, run from any session, is a finite run of steps. -/
theorem SessionOp.steps (hc : SourceContract σ) (op : SessionOp) (s : Session σ) :
    Relation.ReflTransGen SessionStep s (op.run s) := by
  cases op with
  | setMode m => exact .single (.setMode s m)
  | setRange start stop => exact .single (.setRange s start stop)
  | setOverlap sectors => exact .single (.setOverlap s sectors)
  | setReadahead n => exact .single (.setReadahead s n)
  | setMaxRetries r => exact .single (.setMaxRetries s r)
  | seek o =>
    dsimp only [SessionOp.run]
    split
    · next sector t h => exact .single (.seek o sector h)
    · exact .refl
  | read => exact read_moves hc s
  | readLimited m => exact readLimited_moves hc m s
  | readAll n => exact readAll_moves hc n s

/-- A reachable session is reached from the opened one by a finite run of steps. -/
theorem Reachable.steps (hc : SourceContract σ) {d : Drive σ} {s : Session σ}
    (h : Reachable d s) : Relation.ReflTransGen SessionStep (ofDrive d) s := by
  induction h with
  | opened => exact .refl
  | step op _ ih => exact ih.trans (op.steps hc _)

/-! ### What every step keeps -/

/-- No step changes the drive's audio range. -/
theorem SessionStep.driveRange_eq {s t : Session σ} (h : SessionStep s t) :
    t.drive.firstSector = s.drive.firstSector ∧ t.drive.lastSector = s.drive.lastSector := by
  cases h with
  | read h =>
    have e := h.settings_eq
    exact ⟨congrArg Settings.driveFirst e, congrArg Settings.driveLast e⟩
  | setRange start stop =>
    obtain ⟨c, -, e⟩ := setRange_eq s start stop
    rw [e]
    exact ⟨rfl, rfl⟩
  | seek o sector h =>
    obtain ⟨n, -, -, -, rfl⟩ := seek?_eq_some h
    exact ⟨rfl, rfl⟩
  | _ => exact ⟨rfl, rfl⟩

/-- No step closes the drive. -/
theorem SessionStep.opened_eq {s t : Session σ} (h : SessionStep s t) :
    t.drive.opened = s.drive.opened := by
  cases h with
  | read h => exact congrArg Settings.opened h.settings_eq
  | setRange start stop =>
    obtain ⟨c, -, e⟩ := setRange_eq s start stop
    rw [e]
  | seek o sector h =>
    obtain ⟨n, -, -, -, rfl⟩ := seek?_eq_some h
    rfl
  | _ => rfl

/-- Each order list of the cache lists each live entry once, and the reading range lies within
    the drive's audio range. -/
structure Wellformed (s : Session σ) : Prop where
  indexed : s.cache.Indexed
  first_le : s.drive.firstSector ≤ s.firstSector
  last_le : s.lastSector ≤ s.drive.lastSector

omit [SectorSource σ] in
theorem Wellformed.ofDrive (d : Drive σ) : (ofDrive d).Wellformed :=
  ⟨FragmentCache.Indexed.empty, Int32.le_refl _, Int32.le_refl _⟩

theorem ReadStep.indexed {s t : Session σ} (h : ReadStep s t) (hs : s.cache.Indexed) :
    t.cache.Indexed := by
  cases h with
  | merge h => exact h.indexed hs
  | batch h =>
    rw [h.cache_eq]
    exact hs
  | insertBlock => exact hs.run (.insertBlock _)
  | insertFragment f => exact hs.run (.insertFragment f)
  | trim b e => exact hs.run (.trim b e)

/-- Every step keeps a session well formed. -/
theorem SessionStep.wellformed {s t : Session σ} (h : SessionStep s t) (hs : s.Wellformed) :
    t.Wellformed := by
  cases h with
  | read h =>
    have e := h.settings_eq
    have hfirst : t.firstSector = s.firstSector := congrArg Settings.firstSector e
    have hlast : t.lastSector = s.lastSector := congrArg Settings.lastSector e
    obtain ⟨hdfirst, hdlast⟩ := (SessionStep.read h).driveRange_eq
    refine ⟨h.indexed hs.indexed, ?_, ?_⟩
    · rw [hdfirst, hfirst]
      exact hs.first_le
    · rw [hdlast, hlast]
      exact hs.last_le
  | setRange start stop =>
    -- the new range is clamped into the drive's
    obtain ⟨c, -, e⟩ := setRange_eq s start stop
    rw [e]
    exact ⟨hs.indexed, Int32.le_max_right _ _, Int32.min_le_right _ _⟩
  | seek o sector h =>
    obtain ⟨n, -, -, -, rfl⟩ := seek?_eq_some h
    exact ⟨hs.indexed.run .resetAll, hs.first_le, hs.last_le⟩
  | advance | setMode | setOverlap | setReadahead | setMaxRetries =>
    exact ⟨hs.indexed, hs.first_le, hs.last_le⟩

/-- What every step keeps and the opened session has, every reachable session has. -/
theorem Reachable.induction_steps (hc : SourceContract σ) {d : Drive σ}
    {P : Session σ → Prop} (h0 : P (ofDrive d)) (hstep : ∀ s t, SessionStep s t → P s → P t)
    {s : Session σ} (h : Reachable d s) : P s := by
  have hrun := h.steps hc
  clear h
  induction hrun with
  | refl => exact h0
  | tail _ hst ih => exact hstep _ _ hst ih

/-- A run of steps from a session with a property that every step keeps is a run of steps each of
    which has what every step from such a session has. -/
theorem steps_and {P : Session σ → Prop} {Q : Session σ → Session σ → Prop}
    (hstep : ∀ u v, SessionStep u v → P u → P v) (hq : ∀ u v, SessionStep u v → P u → Q u v)
    {s t : Session σ} (h : Relation.ReflTransGen SessionStep s t) (hs : P s) :
    Relation.ReflTransGen (fun u v => SessionStep u v ∧ Q u v) s t := by
  induction h using Relation.ReflTransGen.head_induction_on with
  | refl => exact .refl
  | head hst _ ih => exact .head ⟨hst, hq _ _ hst hs⟩ (ih (hstep _ _ hst hs))

theorem Reachable.wellformed (hc : SourceContract σ) {d : Drive σ} {s : Session σ}
    (h : Reachable d s) : s.Wellformed :=
  h.induction_steps hc (Wellformed.ofDrive d) fun _ _ hst hs => hst.wellformed hs

end Session

/-- A drive open on a synthetic disc of a hundred sectors, one audio track from sector zero. -/
def syntheticDrive : Drive MemoryDisc :=
  let toc : Toc := ⟨[⟨1, 0, true⟩], 100⟩
  { source := (MemoryDisc.synthetic 100).withToc toc, opened := true, toc, lastSector := 99,
    errorDest := .forget, messageDest := .forget, jitter := { draw := fun _ => 0 } }

end VerifiedRip
