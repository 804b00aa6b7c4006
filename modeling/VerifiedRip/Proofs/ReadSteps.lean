import VerifiedRip.Proofs.StaleRoot
import VerifiedRip.Proofs.DriveContract
/-!
# Reads as runs of primitive steps

Every operation of a read is a run of a few primitive edits of the session. Stage two only
edits the root, hands out frames and notes reports (`RootEdit`), removes fragments, and counts
offsets on the tracker, which may correct the drift and rebase the cache (`MergeStep`). A batch
read only reads through the drive and notes its failures (`BatchStep`). Reading a frame adds to
these the storing of a raw block where the drift puts its first sector, the storing of verified
fragments, and trims of the cache (`ReadStep`).

`Moves R x` says that run from any state, `x` ends in a state that finitely many `R` steps lead
to. Each session function has its moves lemma, proved by following its body one bind at a time
and citing the moves lemmas of what it calls; facts about every read then come from facts about
single steps (`eq_of_steps`).

## Main definitions

- `Session.Settings` — what reading a frame leaves as it is: mode, skipping, range, readahead,
  retry limit, cursor, and the drive's open flag and audio range.
- `Session.RootEdit`, `Session.MergeStep`, `Session.BatchStep`, `Session.ReadStep` — the steps.
- `Session.Moves` — a run ends in a state that steps lead to.

## Main statements

- `mergeFragments_moves`: stage two moves by merge steps.
- `readBatch_moves`, `readBatch_delivers`: a batch read moves by batch steps and, under the
  source contract, delivers whole sectors, no more than it asks for.
- `readBlock_moves`: a block is stored only where the drift puts the sector it was read at,
  inside the range, with as many whole sectors as were read.
- `readVerified_moves`, `readDirect_moves`: reading a frame moves by read steps.

## Design notes

Each moves lemma unfolds its function once; `extract_lets` names the `let`s of the body, and the
rules `Moves.bind`, `MovesFrom.ite`, `MovesFrom.dite` and `MovesFrom.set_bind` follow its
branches. Loops are `Moves.forIn`; the well-founded helpers are proved by their own induction
principles.
-/

namespace VerifiedRip

theorem Int32.toInt_add_one_of_lt {b t : Int32} (h : b < t) : (b + 1).toInt = b.toInt + 1 := by
  rw [Int32.lt_iff_toInt_lt] at h
  have ht := Int32.toInt_le t
  have hb := Int32.le_toInt b
  have hmax : Int32.maxValue.toInt = 2147483647 := rfl
  have hmin : Int32.minValue.toInt = -2147483648 := rfl
  rw [Int32.toInt_add, Int.bmod_eq_of_le] <;> simp <;> omega

theorem Int32.le_max_right (a b : Int32) : b ≤ max a b := by
  simp only [max, Int32.le_iff_toInt_le]
  split <;> omega

namespace Session

variable {σ : Type}

/-! ### Runs of steps -/

/-- Run from any state, `x` ends in a state that finitely many `R` steps lead to. -/
def Moves {α : Type} (R : Session σ → Session σ → Prop) (x : SessionM σ α) : Prop :=
  ∀ s, Relation.ReflTransGen R s (x.run s).2

/-- Run from `s`, `x` ends in a state that finitely many `R` steps lead to. -/
def MovesFrom {α : Type} (R : Session σ → Session σ → Prop) (s : Session σ) (x : SessionM σ α) :
    Prop :=
  Relation.ReflTransGen R s (x.run s).2

section Rules

variable {α β : Type} {R R' : Session σ → Session σ → Prop}

theorem Moves.pure (a : α) : Moves R (pure a : SessionM σ α) := fun _ => .refl

theorem MovesFrom.bind {s : Session σ} {x : SessionM σ α} {f : α → SessionM σ β}
    (hx : MovesFrom R s x) (hf : ∀ a, Moves R (f a)) : MovesFrom R s (x >>= f) :=
  hx.trans (hf _ _)

theorem Moves.bind {x : SessionM σ α} {f : α → SessionM σ β} (hx : Moves R x)
    (hf : ∀ a, Moves R (f a)) : Moves R (x >>= f) :=
  fun s => MovesFrom.bind (hx s) hf

theorem MovesFrom.bind_of {s : Session σ} {x : SessionM σ α} {f : α → SessionM σ β}
    (hx : MovesFrom R s x) (hf : MovesFrom R (x.run s).2 (f (x.run s).1)) :
    MovesFrom R s (x >>= f) :=
  hx.trans hf

theorem MovesFrom.get_bind {s : Session σ} {f : Session σ → SessionM σ β}
    (hf : MovesFrom R s (f s)) : MovesFrom R s (get >>= f) :=
  hf

theorem Moves.get_bind {f : Session σ → SessionM σ β} (hf : ∀ s, MovesFrom R s (f s)) :
    Moves R (get >>= f) :=
  hf

theorem MovesFrom.set_bind {s t : Session σ} {f : PUnit → SessionM σ β}
    (h : Relation.ReflTransGen R s t) (hf : Moves R (f ⟨⟩)) : MovesFrom R s (set t >>= f) :=
  h.trans (hf t)

theorem Moves.modify {g : Session σ → Session σ} (h : ∀ s, R s (g s)) :
    Moves R (modify g : SessionM σ PUnit) :=
  fun s => .single (h s)

theorem MovesFrom.ite {s : Session σ} {c : Prop} [Decidable c] {x y : SessionM σ α}
    (hx : c → MovesFrom R s x) (hy : ¬c → MovesFrom R s y) : MovesFrom R s (if c then x else y) := by
  split
  · exact hx ‹_›
  · exact hy ‹_›

theorem MovesFrom.dite {s : Session σ} {c : Prop} [Decidable c] {x : c → SessionM σ α}
    {y : ¬c → SessionM σ α} (hx : ∀ h, MovesFrom R s (x h)) (hy : ∀ h, MovesFrom R s (y h)) :
    MovesFrom R s (if h : c then x h else y h) := by
  split
  · exact hx ‹_›
  · exact hy ‹_›

theorem Moves.forIn {γ : Type} (l : List γ) (init : β) {f : γ → β → SessionM σ (ForInStep β)}
    (hf : ∀ a b, Moves R (f a b)) : Moves R (forIn l init f) := by
  induction l generalizing init with
  | nil => exact Moves.pure _
  | cons a l ih =>
    rw [List.forIn_cons]
    refine (hf a init).bind fun r => ?_
    cases r with
    | done b => exact Moves.pure _
    | yield b => exact ih b

theorem Moves.forIn_array {γ : Type} (l : Array γ) (init : β)
    {f : γ → β → SessionM σ (ForInStep β)} (hf : ∀ a b, Moves R (f a b)) :
    Moves R (ForIn.forIn l init f) := by
  rw [← Array.forIn_toList]
  exact Moves.forIn _ _ hf

theorem Moves.mono {x : SessionM σ α} (h : ∀ s t, R s t → R' s t) (hx : Moves R x) :
    Moves R' x :=
  fun s => Relation.ReflTransGen.mono h _ _ (hx s)

/-- What every step keeps, every run of steps keeps. -/
theorem eq_of_steps {γ : Type} (f : Session σ → γ) (hR : ∀ a b, R a b → f b = f a) {s t : Session σ}
    (h : Relation.ReflTransGen R s t) : f t = f s := by
  induction h with
  | refl => rfl
  | tail _ hab ih => rw [hR _ _ hab, ih]

end Rules

/-! ### What a read never changes -/

/-- What reading a frame leaves as it is: the mode, skipping, the reading range, the readahead,
    the retry limit, the cursor, and the drive's open flag and audio range. -/
structure Settings where
  mode : ReadMode
  enableSkip : Bool
  firstSector : Sector
  lastSector : Sector
  readahead : Nat
  maxRetries : Int32
  cursor : Int64
  opened : Bool
  driveFirst : Sector
  driveLast : Sector

/-- The settings of a session. -/
def settings (s : Session σ) : Settings :=
  ⟨s.mode, s.enableSkip, s.firstSector, s.lastSector, s.readahead, s.maxRetries, s.cursor,
    s.drive.opened, s.drive.firstSector, s.drive.lastSector⟩

/-! ### Stage two -/

/-- An edit of the root, of the frame handed out or of the reports, and of nothing else. -/
inductive RootEdit : Session σ → Session σ → Prop where
  | edit (s : Session σ) (g : Root → Root) (frame : Signal) (reports : Array Report) :
      RootEdit s { s with cache := s.cache.modifyRoot g, frame, reports }

/-- The edits stage two makes to a session. -/
inductive MergeStep : Session σ → Session σ → Prop where
  /-- The root edited, a frame handed out, reports noted. -/
  | edit {s t : Session σ} (h : RootEdit s t) : MergeStep s t
  /-- A fragment removed. -/
  | dropFragment (s : Session σ) (h : Handle Fragment) :
      MergeStep s { s with cache := (s.cache.removeFragment h).1 }
  /-- An offset counted on the tracker, which may correct the drift and rebase the cache. -/
  | record (s : Session σ) (stage : Stage) (v : Int64) :
      MergeStep s { s with
        tracker := (s.tracker.record stage v s.cache).1
        cache := (s.tracker.record stage v s.cache).2.1
        reports := s.reports ++ (s.tracker.record stage v s.cache).2.2.toArray }

theorem RootEdit.settings_eq {s t : Session σ} (h : RootEdit s t) : t.settings = s.settings := by
  cases h
  rfl

theorem MergeStep.settings_eq {s t : Session σ} (h : MergeStep s t) : t.settings = s.settings := by
  cases h with
  | edit h => exact h.settings_eq
  | dropFragment => rfl
  | record => rfl

theorem MergeStep.drive_eq {s t : Session σ} (h : MergeStep s t) : t.drive = s.drive := by
  cases h with
  | edit h => cases h; rfl
  | dropFragment => rfl
  | record => rfl

theorem Moves.ofEdit {α : Type} {x : SessionM σ α} (h : Moves RootEdit x) : Moves MergeStep x :=
  h.mono fun _ _ h => MergeStep.edit h

theorem report_moves (pos : Int64) (e : Event) : Moves RootEdit (report pos e : SessionM σ Unit) :=
  Moves.modify fun s => RootEdit.edit s id s.frame (s.reports.push ⟨pos, e⟩)

theorem editRoot_moves (g : Root → Root) : Moves RootEdit (editRoot g : SessionM σ Unit) :=
  Moves.modify fun s => RootEdit.edit s g s.frame s.reports

theorem dropFragment_moves (h : Handle Fragment) :
    Moves MergeStep (dropFragment h : SessionM σ Unit) :=
  Moves.modify fun s => MergeStep.dropFragment s h

theorem record_moves (stage : Stage) (v : Int64) : Moves MergeStep (record stage v : SessionM σ Unit) :=
  Moves.modify fun s => MergeStep.record s stage v

theorem copyFrame_moves (begin : Int64) : Moves RootEdit (copyFrame begin : SessionM σ Bool) := by
  unfold copyFrame
  refine Moves.get_bind fun s => ?_
  split
  · exact Moves.pure _ s
  · exact MovesFrom.set_bind (.single (RootEdit.edit s _ _ s.reports)) (Moves.pure _)

theorem skipFrame_moves (begin : Int64) (m : Int32) :
    Moves RootEdit (skipFrame begin m : SessionM σ _) := by
  unfold skipFrame
  refine Moves.get_bind fun s => ?_
  refine MovesFrom.ite (fun _ => Moves.pure _ s) fun _ => ?_
  exact ((report_moves _ _).bind fun _ => (editRoot_moves _).bind fun _ =>
    (copyFrame_moves _).bind fun _ => Moves.pure _) s

theorem fillSilence_moves : Moves RootEdit (fillSilence : SessionM σ _) := by
  unfold fillSilence
  exact Moves.get_bind fun s => ((report_moves _ _).bind fun _ =>
    (Moves.modify fun t => RootEdit.edit t id _ t.reports).bind fun _ => Moves.pure _) s

theorem initRoot_moves (begin : Int64) (relaxed : Bool) :
    Moves MergeStep (initRoot begin relaxed : SessionM σ Bool) := by
  unfold initRoot
  refine Moves.get_bind fun s => ?_
  dsimp only
  split
  · exact Moves.pure _ s
  · exact ((dropFragment_moves _).bind fun _ => (Moves.ofEdit (report_moves _ _)).bind fun _ =>
      (Moves.ofEdit (editRoot_moves _)).bind fun _ => Moves.pure _) s

theorem repairRift_moves (k fbegin : Int64) (samples : Signal) :
    Moves RootEdit (repairRift k fbegin samples : SessionM σ _) := by
  -- every branch edits the root and notes the repair, only notes it, or gives up untouched
  have fix : ∀ (g : Root → Root) (e : Event) (r : Bool × Signal),
      Moves RootEdit (do editRoot g; report k e; pure r : SessionM σ _) :=
    fun g e r => (editRoot_moves g).bind fun _ => (report_moves k e).bind fun _ => Moves.pure r
  have note : ∀ (e : Event) (r : Bool × Signal),
      Moves RootEdit (do report k e; pure r : SessionM σ _) :=
    fun e r => (report_moves k e).bind fun _ => Moves.pure r
  unfold repairRift
  refine Moves.get_bind fun s => ?_
  have guarded : ∀ (c : Prop) [Decidable c] (g : Root → Root) (e : Event),
      MovesFrom RootEdit s (if c then pure (false, samples) else
        (do editRoot g; report k e; pure (true, samples) : SessionM σ _)) :=
    fun c _ g e => MovesFrom.ite (fun _ => Moves.pure _ s) fun _ => fix g e _ s
  refine MovesFrom.ite (fun _ => Moves.pure _ s) fun _ => ?_
  refine MovesFrom.ite (fun _ => guarded _ _ _) fun _ => ?_
  refine MovesFrom.ite (fun _ => guarded _ _ _) fun _ => ?_
  refine MovesFrom.ite (fun _ => Moves.pure _ s) fun _ => ?_
  refine MovesFrom.ite (fun _ => guarded _ _ _) fun _ => ?_
  refine MovesFrom.ite (fun _ => guarded _ _ _) fun _ => ?_
  exact MovesFrom.ite (fun _ => note _ _ s) fun _ => note _ _ s

theorem walkFragment_moves (h : Handle Fragment) (fbegin : Int64) (samples : Signal) (k : Int64)
    (fixes : Nat) : Moves MergeStep (walkFragment h fbegin samples k fixes : SessionM σ _) := by
  have scratch : ∀ k : Int64, Moves MergeStep
      (do report k .scratch; dropFragment h; pure none : SessionM σ (Option Signal)) :=
    fun k => (Moves.ofEdit (report_moves _ _)).bind fun _ => (dropFragment_moves h).bind fun _ =>
      Moves.pure _
  induction samples, k, fixes using walkFragment.induct (σ := σ) fbegin with
  | case1 samples k fixes ih =>
    rw [walkFragment]
    refine Moves.get_bind fun s => ?_
    refine MovesFrom.ite (fun _ => Moves.pure _ s) fun _ => ?_
    refine MovesFrom.ite (fun _ => ((dropFragment_moves h).bind fun _ => Moves.pure _) s)
      fun _ => ?_
    refine MovesFrom.dite (fun _ => scratch _ s) fun hf => ?_
    refine ((Moves.ofEdit (repairRift_moves _ _ _)).bind fun r t => ?_) s
    exact MovesFrom.ite (fun _ => scratch _ t) fun _ => ih s hf _ t

theorem alignFragment_moves (h : Handle Fragment) (frag : Fragment) :
    Moves MergeStep (alignFragment h frag : SessionM σ _) := by
  unfold alignFragment
  refine Moves.get_bind fun s => ?_
  dsimp only
  split
  · refine MovesFrom.ite (fun _ => Moves.pure _ s) fun _ => ?_
    refine ((record_moves _ _).bind fun _ => Moves.get_bind fun t => ?_) s
    split
    · exact Moves.pure _ t
    · exact MovesFrom.ite (fun _ => Moves.pure _ t) fun _ => Moves.pure _ t
  · exact Moves.pure _ s

theorem mergeFragment_moves (h : Handle Fragment) :
    Moves MergeStep (mergeFragment h : SessionM σ Bool) := by
  have drop : Moves MergeStep (do dropFragment h; pure false : SessionM σ Bool) :=
    (dropFragment_moves h).bind fun _ => Moves.pure _
  unfold mergeFragment
  refine Moves.get_bind fun s => ?_
  split
  · exact Moves.pure _ s
  · refine MovesFrom.ite (fun _ => drop s) fun _ => ?_
    refine ((alignFragment_moves _ _).bind fun a => ?_) s
    cases a with
    | none => exact Moves.pure _
    | some align =>
      refine Moves.get_bind fun t => ?_
      split
      · exact Moves.pure _ t
      · refine (Moves.get_bind fun u => ?_) t
        refine MovesFrom.ite (fun _ => drop u) fun _ => ?_
        refine ((walkFragment_moves _ _ _ _ _).bind fun r => ?_) u
        cases r with
        | none => exact Moves.pure _
        | some samples =>
          refine Moves.get_bind fun v => ?_
          -- a growing merge appends to the root and notes it before the fragment is dropped
          have last : ∀ b : Bool, Moves MergeStep (do dropFragment h; pure b : SessionM σ Bool) :=
            fun b => (dropFragment_moves h).bind fun _ => Moves.pure b
          exact MovesFrom.ite
            (fun _ => ((Moves.ofEdit (editRoot_moves _)).bind fun _ =>
              (Moves.ofEdit (report_moves _ _)).bind fun _ => last _) v)
            fun _ => last _ v

theorem mergePasses_moves (passes : Nat) : Moves MergeStep (mergePasses passes : SessionM σ Unit) := by
  induction passes with
  | zero => exact Moves.pure _
  | succ n ih =>
    rw [mergePasses]
    refine Moves.get_bind fun s => ?_
    refine ((Moves.forIn_array _ _ fun h g => (mergeFragment_moves h).bind fun _ => Moves.pure _).bind
      fun grew => ?_) s
    exact fun t => MovesFrom.ite (fun _ => ih t) fun _ => Moves.pure _ t

theorem mergeFragments_moves (begin : Int64) (relaxed : Bool) :
    Moves MergeStep (mergeFragments begin relaxed : SessionM σ Unit) := by
  -- the passes that follow, whether or not the root had to be started
  have passes : Moves MergeStep
      (do let t ← get; mergePasses (t.cache.fragmentCount + 1) : SessionM σ Unit) :=
    Moves.get_bind fun t => mergePasses_moves _ t
  unfold mergeFragments
  refine Moves.get_bind fun s => ?_
  refine MovesFrom.ite (fun _ => ((initRoot_moves _ _).bind fun r t => ?_) s) fun _ => passes s
  exact MovesFrom.ite (fun _ => Moves.pure _ t) fun _ => passes t

/-! ### Stage one -/

/-- A block read never starts before the reading range: past a remembered bad sector it starts
    one sector after it, and that sector lies before the frame's, so the step does not wrap. -/
theorem firstSector_le_blockSector (s : Session σ) (begin : Int64) :
    s.firstSector ≤ s.blockSector begin := by
  unfold blockSector
  extract_lets anchor anchor' sector target
  have hsector : s.firstSector ≤ sector := Int32.le_max_right _ _
  split
  · split
    · next bad hb =>
      have hstep := Int32.toInt_add_one_of_lt hb.2
      rw [Int32.le_iff_toInt_le] at hsector ⊢
      have := Int32.le_iff_toInt_le.1 hb.1
      omega
    · exact hsector
  · exact hsector

variable [SectorSource σ]

/-- The edits a batch read makes to a session. -/
inductive BatchStep : Session σ → Session σ → Prop where
  /-- A read through the drive, which changes only the drive. -/
  | driveRead (s : Session σ) (lsn : Sector) (want room : Nat) :
      BatchStep s { s with drive := (s.drive.read lsn want room).2 }
  /-- Reports noted and a failed sector remembered. -/
  | note (s : Session σ) (reports : Array Report) (badSector : Option Sector) :
      BatchStep s { s with reports, badSector }

theorem BatchStep.settings_eq {s t : Session σ} (h : BatchStep s t) : t.settings = s.settings := by
  cases h with
  | driveRead lsn want room =>
    have hd := Drive.read_sameSetup s.drive lsn want room
    simp only [settings, hd.opened, hd.firstSector, hd.lastSector]
  | note => rfl

theorem BatchStep.cache_eq {s t : Session σ} (h : BatchStep s t) : t.cache = s.cache := by
  cases h <;> rfl

theorem BatchStep.tracker_eq {s t : Session σ} (h : BatchStep s t) : t.tracker = s.tracker := by
  cases h <;> rfl

theorem readBatch_moves (sector : Sector) (count : Nat) (drift : Int64) (read : Nat) (single : Bool)
    (acc : ByteArray) : Moves BatchStep (readBatch sector count drift read single acc : SessionM σ _) := by
  induction read, single, acc using readBatch.induct count with
  | case1 read single acc hlt ih1 ih2 =>
    rw [readBatch, dif_pos hlt]
    refine Moves.get_bind fun s => ?_
    extract_lets lsn want
    split
    next r drive hread =>
    have hstep := BatchStep.driveRead s lsn want (count - read)
    rw [hread] at hstep
    refine MovesFrom.set_bind (.single hstep) ?_
    split
    · exact fun t => MovesFrom.dite (fun _ => Moves.pure _ t) fun hn => ih1 _ hn t
    · exact Moves.pure _
    · next e hne =>
      refine (Moves.modify fun t => BatchStep.note t _ t.badSector).bind fun _ t => ?_
      refine MovesFrom.ite (fun _ => ((Moves.modify fun u => BatchStep.note u u.reports _).bind
        fun _ => Moves.pure _) t) fun hs => ?_
      exact MovesFrom.dite (fun h1 => ih2 e hs h1 t) fun _ => Moves.pure _ t
  | case2 read single acc hge =>
    rw [readBatch, dif_neg hge]
    exact Moves.pure _

/-- What a batch read delivers: under the contract, whole sectors, no more than the batch asks
    for. -/
theorem readBatch_delivers (hc : SourceContract σ) (sector : Sector) (count : Nat) (drift : Int64)
    (read : Nat) (single : Bool) (acc : ByteArray) (hacc : acc.size % sectorBytes = 0)
    (hread : acc.size / sectorBytes = read) (hle : read ≤ count) (s : Session σ) (bytes : ByteArray)
    (h : ((readBatch sector count drift read single acc).run s).1 = .ok bytes) :
    WholeSectors count bytes := by
  induction read, single, acc using readBatch.induct count generalizing s with
  | case1 read single acc hlt ih1 ih2 =>
    rw [readBatch, dif_pos hlt, run_get_bind] at h
    extract_lets lsn want at h
    split at h
    next r drive hdrive =>
    rw [run_bind] at h
    split at h
    · next b =>
      have hb := Drive.read_delivers hc s.drive lsn want (count - read) b (by rw [hdrive])
      split at h
      · cases h
        exact ⟨hacc, hread ▸ hle⟩
      · next hn =>
        -- the delivered sectors fit in the room the batch left
        obtain ⟨hbw, hbn⟩ := hb
        have e : sectorBytes = 2352 := rfl
        rw [e] at hacc hread hbw hbn hn
        refine ih1 b (by rw [e]; exact hn) (by rw [ByteArray.size_append, e]; omega)
          (by rw [ByteArray.size_append, e]; omega) (by rw [e]; omega) _ h
    · simp at h
    · next e hne =>
      rw [run_bind] at h
      split at h
      · cases h
        exact ⟨hacc, hread ▸ hle⟩
      · next hs =>
        split at h
        · next h1 => exact ih2 e hs h1 hacc hread hle _ h
        · cases h
          exact ⟨hacc, hread ▸ hle⟩
  | case2 read single acc hge =>
    rw [readBatch, dif_neg hge] at h
    cases h
    exact ⟨hacc, hread ▸ hle⟩

/-- The steps of reading a frame. -/
inductive ReadStep : Session σ → Session σ → Prop where
  /-- A step of stage two. -/
  | merge {s t : Session σ} (h : MergeStep s t) : ReadStep s t
  /-- A step of a batch read. -/
  | batch {s t : Session σ} (h : BatchStep s t) : ReadStep s t
  /-- A raw block read at `sector` stored where `drift`, the session's drift, puts that sector:
      the bytes of at least one whole sector and of no more than the range holds from `sector`
      on. -/
  | insertBlock (s : Session σ) (sector : Sector) (drift : Int64) (bytes : ByteArray)
      (hdrift : s.tracker.drift = drift) (hfirst : s.firstSector ≤ sector)
      (hlast : sector ≤ s.lastSector) (hwhole : WholeSectors (s.lastSector - sector + 1).toCount bytes)
      (hread : 0 < bytes.size / sectorBytes) :
      ReadStep s { s with cache := (s.cache.insertBlock (RawBlock.ofSignal (Signal.ofBytes bytes)
        (sector.toInt64 * Int64.ofNat frameWords - drift)
        (sector + Int32.ofNat (bytes.size / sectorBytes) - 1))).1 }
  /-- A verified fragment stored. -/
  | insertFragment (s : Session σ) (f : Fragment) :
      ReadStep s { s with cache := (s.cache.insertFragment f).1 }
  /-- The cache trimmed behind the frame at `b`. -/
  | trim (s : Session σ) (b e : Int64) : ReadStep s { s with cache := s.cache.trim b e }

theorem ReadStep.settings_eq {s t : Session σ} (h : ReadStep s t) : t.settings = s.settings := by
  cases h with
  | merge h => exact h.settings_eq
  | batch h => exact h.settings_eq
  | insertBlock => rfl
  | insertFragment => rfl
  | trim => rfl

theorem Moves.ofMerge {α : Type} {x : SessionM σ α} (h : Moves MergeStep x) : Moves ReadStep x :=
  h.mono fun _ _ h => ReadStep.merge h

theorem Moves.ofRootEdit {α : Type} {x : SessionM σ α} (h : Moves RootEdit x) : Moves ReadStep x :=
  h.mono fun _ _ h => ReadStep.merge (MergeStep.edit h)

theorem readBlock_moves (hc : SourceContract σ) (begin : Int64) :
    Moves ReadStep (readBlock begin : SessionM σ _) := by
  unfold readBlock
  refine Moves.get_bind fun s => ?_
  extract_lets drift sector count bufBytes blockBegin
  refine MovesFrom.ite (fun _ => Moves.pure _ s) fun hlast => ?_
  -- a buffer too large to allocate ends the read before it starts
  refine MovesFrom.ite (fun _ => Moves.pure _ s) fun _ => ?_
  set batch := min count (bufBytes / sectorBytes)
  have hbatch := readBatch_moves sector batch drift 0 false ByteArray.empty s
  refine MovesFrom.bind_of (Relation.ReflTransGen.mono (fun _ _ h => ReadStep.batch h) _ _ hbatch) ?_
  -- the batch read kept the settings and the tracker
  have hset := eq_of_steps settings (fun _ _ h => BatchStep.settings_eq h) hbatch
  have htr := eq_of_steps tracker (fun _ _ h => BatchStep.tracker_eq h) hbatch
  split
  · exact .refl
  · next bytes hok =>
    have hw := readBatch_delivers hc sector batch drift 0 false ByteArray.empty rfl rfl
      (Nat.zero_le _) s bytes hok
    refine MovesFrom.ite (fun _ => .refl) fun hread => ?_
    refine MovesFrom.bind_of (Moves.ofRootEdit (report_moves _ _) _) ?_
    refine MovesFrom.get_bind ?_
    split
    next cache h hins =>
    set s₁ := ((readBatch sector batch drift 0 false ByteArray.empty).run s).2
    set s₂ := ((report blockBegin .read : SessionM σ Unit).run s₁).2
    have hfirst : s₂.firstSector ≤ sector := by
      rw [show s₂.firstSector = s.firstSector from congrArg Settings.firstSector hset]
      exact firstSector_le_blockSector s begin
    have hlast' : s₂.lastSector = s.lastSector := congrArg Settings.lastSector hset
    have hstep : ReadStep s₂ { s₂ with cache := (s₂.cache.insertBlock (RawBlock.ofSignal
        (Signal.ofBytes bytes) blockBegin (sector + Int32.ofNat (bytes.size / sectorBytes) - 1))).1 } :=
      ReadStep.insertBlock s₂ sector drift bytes (congrArg Tracker.drift htr)
        hfirst (hlast' ▸ Int32.not_lt.1 hlast)
        (hlast' ▸ hw.mono ((Nat.min_le_left _ _).trans (Nat.min_le_right _ _)))
        (Nat.pos_of_ne_zero hread)
    rw [hins] at hstep
    exact MovesFrom.set_bind (.single hstep) (Moves.pure _)

/-- Storing fragments one after another is a run of read steps. -/
theorem insertFragments_steps {β : Type} (l : List β) (mk : β → Fragment) (s : Session σ) :
    Relation.ReflTransGen ReadStep s
      { s with cache := l.foldl (fun c r => (c.insertFragment (mk r)).1) s.cache } := by
  induction l generalizing s with
  | nil => exact .refl
  | cons r l ih => exact .head (ReadStep.insertFragment s (mk r)) (ih _)

theorem verifyBlock_moves (h : Handle RawBlock) : Moves ReadStep (verifyBlock h : SessionM σ Unit) := by
  unfold verifyBlock
  refine Moves.get_bind fun s => ?_
  split
  · exact Moves.pure _ s
  · split
    next runs offsets hruns =>
    refine MovesFrom.set_bind (insertFragments_steps runs _ s) ?_
    exact Moves.forIn _ _ fun v _ =>
      ((record_moves _ _).mono fun _ _ h => ReadStep.merge h).bind fun _ => Moves.pure _

theorem verifyRounds_moves (hc : SourceContract σ) (begin : Int64) (maxRetries : Int32) (retries : Int)
    (lastEnd : Int64) : Moves ReadStep (verifyRounds begin maxRetries retries lastEnd : SessionM σ _) := by
  induction retries, lastEnd using verifyRounds.induct (σ := σ) maxRetries with
  | case1 retries lastEnd ihgrew ihretry =>
    rw [verifyRounds]
    extract_lets relaxed finishRound
    -- the end of a round: the frame handed out or skipped, or another round
    have handOut : Moves ReadStep (do
        if ← copyFrame begin then pure (.ok ()) else skipFrame begin maxRetries : SessionM σ _) :=
      (Moves.ofRootEdit (copyFrame_moves begin)).bind fun _ t =>
        MovesFrom.ite (fun _ => Moves.pure _ t) fun _ => Moves.ofRootEdit (skipFrame_moves _ _) t
    have hfinish : ∀ u, Moves ReadStep (finishRound u) := by
      intro u
      refine Moves.get_bind fun s => ?_
      refine MovesFrom.dite (fun hgrew => ?_) fun _ => ?_
      · exact MovesFrom.ite (fun _ => handOut s) fun _ => ihgrew s hgrew s
      · exact MovesFrom.ite (fun _ => handOut s) fun hr => ihretry hr s
    refine (Moves.ofRootEdit (copyFrame_moves begin)).bind fun _ s =>
      MovesFrom.ite (fun _ => Moves.pure _ s) fun _ => ?_
    refine ((Moves.ofMerge (mergeFragments_moves _ _)).bind fun _ =>
      (Moves.ofRootEdit (copyFrame_moves begin)).bind fun _ t => ?_) s
    refine MovesFrom.ite (fun _ => Moves.pure _ t) fun _ => ?_
    refine ((readBlock_moves hc begin).bind fun r => ?_) t
    split
    · exact Moves.pure _
    · exact (verifyBlock_moves _).bind fun _ =>
        (Moves.ofMerge (mergeFragments_moves _ _)).bind hfinish
    · exact hfinish ()

theorem readVerified_moves (hc : SourceContract σ) (begin : Int64) (maxRetries : Int32) :
    Moves ReadStep (readVerified begin maxRetries : SessionM σ _) := by
  unfold readVerified
  exact (Moves.modify fun s => ReadStep.trim s _ _).bind fun _ =>
    Moves.get_bind fun s => verifyRounds_moves hc _ _ _ _ s

theorem readDirect_moves (sector : Sector) : Moves ReadStep (readDirect sector : SessionM σ _) := by
  unfold readDirect
  refine Moves.get_bind fun s => ((Moves.ofRootEdit (report_moves _ _)).bind fun _ =>
    Moves.get_bind fun t => ?_) s
  split
  next r drive hread =>
  have hstep := BatchStep.driveRead t sector 1 1
  rw [hread] at hstep
  refine MovesFrom.set_bind (.single (ReadStep.batch hstep)) ?_
  split
  · exact fun u => MovesFrom.ite (fun _ => ((Moves.ofRootEdit (Moves.modify fun v =>
      RootEdit.edit v id _ v.reports)).bind fun _ => Moves.pure _) u)
      fun _ => MovesFrom.ite (fun _ => Moves.ofRootEdit fillSilence_moves u) fun _ => Moves.pure _ u
  · exact fun u => MovesFrom.ite (fun _ => Moves.ofRootEdit fillSilence_moves u) fun _ =>
      Moves.pure _ u

end Session

end VerifiedRip
