import VerifiedRip.Proofs.OrderList
/-!
# An arena follows the log of its operations

A sequence of stores, removals and clears run on an empty arena leaves a log of what happened,
each store with the handle it handed out. What a handle should find can be read off that log
(`Arena.Log.find`): the value of the store that handed it out, unless a removal of that handle
or a clear came after. On every run the arena agrees: each handle finds exactly that, the arena
counts the handles that find something, a store never lands on a value still held, and removing
a handle that finds nothing changes nothing.

A slot's generation is a 32-bit word, bumped each time the slot is emptied. As long as no
generation wraps around, no handle is handed out twice, so a handle once removed or cleared is
never handed out again and finds nothing from then on. The invariant behind this is that every
handle handed out either still finds its value or lies behind its slot's generation.

## Main definitions

- `Arena.Op`, `Arena.Event`, `Arena.Log`: operations, what each one did, and the log of a run,
  newest first.
- `Arena.runOps`: the arena and the log that a sequence of operations leaves.
- `Arena.NoWrap`: along a run, no slot's generation goes down.

## Main statements

- `Arena.Follows.step`: one operation that wraps no generation keeps the arena in step with its
  log; `Arena.Follows.runFrom`: so does a whole run.
- `Arena.runOps_follows_log`: after any run that wraps no generation, every handle finds what
  the log says, no handle was handed out twice, the size counts the live handles, a store
  overwrites nothing and removing a stale handle changes nothing.
-/

namespace VerifiedRip

namespace Arena

variable {α : Type}

/-! ### Runs and their logs -/

/-- An operation on an arena. -/
inductive Op (α : Type) where
  | insert (v : α)
  | remove (h : Handle α)
  | clear

/-- What an operation did; a store names the handle it handed out. -/
inductive Event (α : Type) where
  | inserted (h : Handle α) (v : α)
  | removed (h : Handle α)
  | cleared

/-- The events of a run, newest first. -/
abbrev Log (α : Type) := List (Event α)

namespace Log

/-- What `h` finds by the log: the value of the store that handed `h` out, unless a removal of
    `h` or a clear came after it. -/
def find : Log α → Handle α → Option α
  | [], _ => none
  | .inserted g v :: log, h => if h = g then some v else find log h
  | .removed g :: log, h => if h = g then none else find log h
  | .cleared :: _, _ => none

/-- The handles that stores handed out, newest first. -/
def handedOut : Log α → List (Handle α)
  | [] => []
  | .inserted g _ :: log => g :: handedOut log
  | _ :: log => handedOut log

/-- The handed-out handles that still find something by the log. -/
def live (log : Log α) : List (Handle α) := log.handedOut.filter fun h => (log.find h).isSome

end Log

/-- Runs one operation, with what it did. -/
def step (A : Arena α) : Op α → Arena α × Event α
  | .insert v => ((A.insert v).1, .inserted (A.insert v).2 v)
  | .remove h => ((A.remove h).1, .removed h)
  | .clear => (A.clear, .cleared)

/-- Runs operations in order from `A`, putting what they did on top of `log`. -/
def runFrom (A : Arena α) (log : Log α) : List (Op α) → Arena α × Log α
  | [] => (A, log)
  | op :: ops => runFrom (A.step op).1 ((A.step op).2 :: log) ops

/-- The arena and the log that operations leave, run in order from the empty arena. -/
def runOps (ops : List (Op α)) : Arena α × Log α := runFrom {} [] ops

/-- The generation of slot `i`; a slot not yet made counts as its first generation, zero. -/
def generationAt (A : Arena α) (i : Nat) : UInt32 := (A.slots[i]?.map (·.generation)).getD 0

/-- No slot's generation is lower in `B` than in `A`. -/
def Grows (A B : Arena α) : Prop := ∀ i < A.slots.size, A.generationAt i ≤ B.generationAt i

instance (A B : Arena α) : Decidable (A.Grows B) :=
  inferInstanceAs (Decidable (∀ i < A.slots.size, A.generationAt i ≤ B.generationAt i))

/-- Along the run of `ops` from `A`, no slot's generation wraps around to a lower one. -/
def NoWrap (A : Arena α) : List (Op α) → Prop
  | [] => True
  | op :: ops => A.Grows (A.step op).1 ∧ NoWrap (A.step op).1 ops

instance decidableNoWrap : (A : Arena α) → (ops : List (Op α)) → Decidable (NoWrap A ops)
  | _, [] => isTrue trivial
  | A, op :: ops =>
    haveI := decidableNoWrap (A.step op).1 ops
    inferInstanceAs (Decidable (A.Grows (A.step op).1 ∧ NoWrap (A.step op).1 ops))

/-! ### The log -/

namespace Log

variable {log : Log α} {h : Handle α}

/-- A store of a handle not handed out before adds it to the live ones. -/
theorem live_inserted {n : Handle α} {v : α} (hn : n ∉ log.handedOut) :
    live (.inserted n v :: log) = n :: log.live := by
  simp only [live, handedOut, find]
  rw [List.filter_cons_of_pos (by simp)]
  congr 1
  refine List.filter_congr fun h hm => ?_
  have hne : h ≠ n := fun e => hn (e ▸ hm)
  simp [hne]

theorem live_removed (g : Handle α) : live (.removed g :: log) = log.live.filter (· != g) := by
  simp only [live, handedOut, find, List.filter_filter]
  refine List.filter_congr fun h _ => ?_
  by_cases hg : h = g <;> simp [hg]

theorem live_cleared : live (.cleared :: log : Log α) = [] := by
  simp [live, find]

end Log

/-! ### Generations -/

variable {A B : Arena α} {h : Handle α} {v : α}

theorem Grows.le (hg : A.Grows B) (i : Nat) : A.generationAt i ≤ B.generationAt i := by
  by_cases hi : i < A.slots.size
  · exact hg i hi
  · have hz : A.generationAt i = 0 := by simp [generationAt, Array.getElem?_eq_none (Nat.le_of_not_lt hi)]
    rw [hz, UInt32.le_iff_toNat_le]
    simp

/-- A handle behind its slot's generation stays behind it while generations grow. -/
theorem Grows.behind (hg : A.Grows B) (hlt : h.generation < A.generationAt h.index) :
    h.generation < B.generationAt h.index :=
  UInt32.lt_of_lt_of_le hlt (hg.le h.index)

theorem generationAt_of_get? (hv : A.get? h = some v) : A.generationAt h.index = h.generation := by
  rw [get?_eq, Option.bind_eq_some_iff] at hv
  obtain ⟨s, hs, hv⟩ := hv
  split at hv
  · simp [generationAt, *]
  · simp at hv

/-- A live handle whose slot moved to another generation, which can only be a later one while
    generations grow, is behind it. -/
theorem Grows.behind_of_bumped (hg : A.Grows B) (hv : A.get? h = some v)
    (hb : B.generationAt h.index ≠ h.generation) : h.generation < B.generationAt h.index := by
  have hle := hg.le h.index
  rw [generationAt_of_get? hv, UInt32.le_iff_toNat_le] at hle
  rw [UInt32.lt_iff_toNat_lt]
  have hne := UInt32.toNat_inj.not.mpr hb
  omega

theorem UInt32.add_one_ne (g : UInt32) : g + 1 ≠ g := by
  intro e
  have he := congrArg UInt32.toNat e
  rw [UInt32.toNat_add] at he
  simp at he
  omega

theorem generationAt_insert (A : Arena α) (v : α) (i : Nat) :
    (A.insert v).1.generationAt i = A.generationAt i := by
  unfold insert
  split
  next j rest hfree =>
    simp only [generationAt, Array.set!_eq_setIfInBounds, Array.getElem?_setIfInBounds]
    split_ifs with hji hj
    · subst hji
      simp [Array.getElem?_eq_getElem hj]
    · subst hji
      simp [Array.getElem?_eq_none (Nat.le_of_not_lt hj)]
    · rfl
  next =>
    simp only [generationAt, Array.getElem?_push]
    split_ifs with hi
    · simp [hi]
    · rfl

theorem generation_insert_snd (A : Arena α) (v : α) :
    (A.insert v).2.generation = A.generationAt (A.insert v).2.index := by
  unfold insert
  split
  · rfl
  · simp [generationAt]

/-- The slot a store takes held nothing. -/
theorem get?_of_index_insert (hA : A.WF) (hi : h.index = (A.insert v).2.index) : A.get? h = none := by
  unfold insert at hi
  split at hi
  next j rest hfree =>
    obtain ⟨g, hg⟩ := hA.free_empty j (by simp [hfree])
    simp only at hi
    rw [get?_eq, hi, hg]
    simp
  next =>
    simp only at hi
    rw [get?_eq, hi]
    simp

theorem generationAt_remove_ne (hv : A.get? h = some v) :
    (A.remove h).1.generationAt h.index ≠ h.generation := by
  have hgen := generationAt_of_get? hv
  rw [get?_eq, Option.bind_eq_some_iff] at hv
  obtain ⟨⟨g, x⟩, hs, hv⟩ := hv
  have hi : h.index < A.slots.size := (Array.getElem?_eq_some_iff.1 hs).1
  split at hv
  next hg =>
    simp only at hg hv
    subst hg hv
    simp only [remove, hs, if_true, generationAt, Array.set!_eq_setIfInBounds,
      Array.getElem?_setIfInBounds_self_of_lt hi, Option.map_some, Option.getD_some]
    exact UInt32.add_one_ne _
  next => simp at hv

theorem generationAt_clear_ne (hv : A.get? h = some v) :
    A.clear.generationAt h.index ≠ h.generation := by
  rw [get?_eq, Option.bind_eq_some_iff] at hv
  obtain ⟨⟨g, x⟩, hs, hv⟩ := hv
  split at hv
  next hg =>
    simp only at hg hv
    subst hg hv
    have hs' : A.slots.toList[h.index]? = some ⟨h.generation, some v⟩ := by simpa using hs
    rw [clear_eq]
    simp only [generationAt, List.getElem?_toArray, List.getElem?_map, hs', Option.map_some,
      Slot.cleared, Option.getD_some]
    exact UInt32.add_one_ne _
  next => simp at hv

/-! ### The arena follows its log -/

/-- The arena is in step with the log: handles find what the log says, none was handed out
    twice, each handed-out handle still finds its value or lies behind its slot's generation, and
    the arena counts the handles the log shows live, listed once each. -/
structure Follows (A : Arena α) (log : Log α) : Prop where
  get?_eq : ∀ h, A.get? h = log.find h
  nodup : log.handedOut.Nodup
  behind : ∀ h ∈ log.handedOut, (A.get? h).isSome ∨ h.generation < A.generationAt h.index
  indexes : Indexes A ⟨log.live⟩

variable {log : Log α}

theorem Follows.empty : Follows ({} : Arena α) [] where
  get?_eq h := by simp [Arena.get?_eq, Log.find]
  nodup := List.nodup_nil
  behind h hm := by simp [Log.handedOut] at hm
  indexes := Indexes.empty

/-- A store hands out a handle never handed out before: a handle handed out earlier still finds
    a value, which the store's slot does not hold, or lies behind a generation the store hands
    out. -/
theorem Follows.insert_fresh (hF : Follows A log) (v : α) : (A.insert v).2 ∉ log.handedOut := by
  intro hm
  rcases hF.behind _ hm with hs | hlt
  · rw [get?_insert_snd hF.indexes.wf] at hs
    exact Bool.false_ne_true hs
  · rw [← generation_insert_snd] at hlt
    exact UInt32.lt_irrefl _ hlt

theorem Follows.insert (hF : Follows A log) (v : α) :
    Follows (A.insert v).1 (.inserted (A.insert v).2 v :: log) where
  get?_eq h := by
    rw [get?_insert hF.indexes.wf, hF.get?_eq]
    rfl
  nodup := List.nodup_cons.2 ⟨hF.insert_fresh v, hF.nodup⟩
  behind h hm := by
    rcases List.mem_cons.1 hm with rfl | hm
    · left
      simp [get?_insert hF.indexes.wf]
    rcases hF.behind h hm with hs | hlt
    · -- a live handle is not the one handed out, whose slot held nothing
      have hne : h ≠ (A.insert v).2 := fun e => by
        rw [e, get?_insert_snd hF.indexes.wf] at hs
        exact Bool.false_ne_true hs
      left
      rwa [get?_insert hF.indexes.wf, if_neg hne]
    · right
      rwa [generationAt_insert]
  indexes := by
    have hI := Indexes.insert hF.indexes v (Nat.zero_le _)
    rw [Log.live_inserted (hF.insert_fresh v)]
    simpa using hI

/-- Removing a handle that finds nothing leaves the arena as it is, in step with the log. -/
theorem Follows.remove_stale (hF : Follows A log) {g : Handle α} (hv : A.get? g = none) :
    Follows (A.remove g).1 (.removed g :: log) := by
  rw [remove_of_get?_none hv]
  have hlive : log.live.filter (· != g) = log.live := List.filter_eq_self.2 fun h hm => by
    have hs := (List.mem_filter.1 hm).2
    rw [← hF.get?_eq] at hs
    have hne : h ≠ g := fun e => by rw [e, hv] at hs; exact Bool.false_ne_true hs
    simpa using hne
  refine ⟨fun h => ?_, hF.nodup, hF.behind, ?_⟩
  · by_cases hg : h = g
    · rw [hg, hv]
      simp [Log.find]
    · rw [hF.get?_eq]
      simp [Log.find, hg]
  · rw [Log.live_removed, hlive]
    exact hF.indexes

/-- Removing a live handle, bumping its slot's generation forward, keeps the arena in step with
    the log. -/
theorem Follows.remove_live (hF : Follows A log) {g : Handle α} (hv : A.get? g = some v)
    (hg : A.Grows (A.remove g).1) : Follows (A.remove g).1 (.removed g :: log) where
  get?_eq h := by
    rw [get?_remove, hF.get?_eq]
    rfl
  nodup := hF.nodup
  behind h hm := by
    by_cases hhg : h = g
    · subst hhg
      exact Or.inr (hg.behind_of_bumped hv (generationAt_remove_ne hv))
    rcases hF.behind h hm with hs | hlt
    · left
      rwa [get?_remove, if_neg hhg]
    · exact Or.inr (hg.behind hlt)
  indexes := by
    have hI := Indexes.remove hF.indexes hv
    rw [Log.live_removed]
    simpa using hI

/-- Clearing, bumping every occupied slot's generation forward, keeps the arena in step with the
    log. -/
theorem Follows.clear (hF : Follows A log) (hg : A.Grows A.clear) :
    Follows A.clear (.cleared :: log) where
  get?_eq h := by
    rw [get?_clear]
    rfl
  nodup := hF.nodup
  behind h hm := by
    -- every handle now lies behind: the live ones by the bump, the others already were
    right
    cases hv : A.get? h with
    | some x => exact hg.behind_of_bumped hv (generationAt_clear_ne hv)
    | none =>
      rcases hF.behind h hm with hs | hlt
      · rw [hv] at hs
        exact absurd hs Bool.false_ne_true
      · exact hg.behind hlt
  indexes := by
    rw [Log.live_cleared]
    exact hF.indexes.clear

/-- One operation that wraps no generation keeps the arena in step with its log. -/
theorem Follows.step (hF : Follows A log) (op : Op α) (hg : A.Grows (A.step op).1) :
    Follows (A.step op).1 ((A.step op).2 :: log) := by
  cases op with
  | insert v => exact hF.insert v
  | remove g =>
    cases hv : A.get? g with
    | none => exact hF.remove_stale hv
    | some x => exact hF.remove_live hv hg
  | clear => exact hF.clear hg

/-- A run that wraps no generation keeps the arena in step with its log. -/
theorem Follows.runFrom (hF : Follows A log) {ops : List (Op α)} (hw : NoWrap A ops) :
    Follows (runFrom A log ops).1 (runFrom A log ops).2 := by
  induction ops generalizing A log with
  | nil => exact hF
  | cons op ops ih => exact ih (hF.step op hw.1) hw.2

/-- After any run from the empty arena that wraps no generation, every handle finds what the
    log says (the value of the store that handed it out, unless a removal of it or a clear came
    after), no handle was handed out twice, the arena's size counts the live handles, a store
    overwrites no live value, and removing a handle that finds nothing changes nothing. -/
theorem runOps_follows_log {ops : List (Op α)} {A : Arena α} {log : Log α}
    (hrun : runOps ops = (A, log)) (hwrap : NoWrap {} ops) :
    (∀ h, A.get? h = log.find h) ∧ log.handedOut.Nodup ∧
      (A.size = log.live.length ∧ ∀ h, h ∈ log.live ↔ (A.get? h).isSome) ∧
      (∀ v h, (A.get? h).isSome → (A.insert v).1.get? h = A.get? h) ∧
      (∀ h, A.get? h = none → A.remove h = (A, none)) := by
  have hF : Follows A log := by
    have hrunF := Follows.empty.runFrom hwrap
    rwa [show runFrom {} [] ops = runOps ops from rfl, hrun] at hrunF
  refine ⟨hF.get?_eq, hF.nodup, ⟨hF.indexes.size_eq, hF.indexes.mem_iff⟩, fun v h hs => ?_,
    fun h => remove_of_get?_none⟩
  exact hF.indexes.get?_insert_of_mem v ((hF.indexes.mem_iff h).2 hs)

/-- Two stores, a removal, a store into the freed slot, a removal by the stale handle, a clear
    and a store into the slot the clear freed last. -/
def sampleOps : List (Op Nat) :=
  [.insert 1, .insert 2, .remove ⟨0, 0⟩, .insert 3, .remove ⟨0, 0⟩, .clear, .insert 4]

/- The first handle, removed and its slot reused, finds nothing; the last store's handle finds
its value. -/
example : (runOps sampleOps).1.get? ⟨0, 0⟩ = none ∧ (runOps sampleOps).1.get? ⟨1, 1⟩ = some 4 := by
  decide

end Arena

end VerifiedRip
