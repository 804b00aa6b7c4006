/-!
# Generational arena

An arena stores values in numbered slots and hands out a `Handle` for each stored value: the
slot's number and the slot's generation at the time of storing. Removing a value bumps its
slot's generation (wrapping at `2 ^ 32`) and puts the slot on a free list, so a handle kept
from before the removal no longer finds anything; a new value reuses the most recently freed
slot. `Arena.get?` is the one view through which the arena is read.

Slot numbers are natural numbers here, so a new slot's number never repeats an old one. With
32-bit slot numbers the slot after the `2 ^ 32`-th would be numbered 0 again, and its handle would
find the first slot's value.

## Main statements

* `Arena.get?_insert`, `get?_remove`, `get?_modify`, `get?_clear`: what every handle finds after
  each operation, as an equation through `get?`.
* `Arena.WF`: the free list offers distinct empty slots. Every operation keeps it, and it is what
  makes a store overwrite nothing.
-/

namespace VerifiedRip

/-- A reference to a value stored in an `Arena α`. -/
structure Handle (α : Type) where
  /-- The slot number. -/
  index : Nat
  /-- The slot's generation when the value was stored. -/
  generation : UInt32
deriving Repr

/-- Handles are equal when slot and generation are. -/
instance {α : Type} : DecidableEq (Handle α) := fun a b =>
  if h : a.index = b.index ∧ a.generation = b.generation then
    isTrue (by cases a; cases b; simp_all)
  else isFalse (by intro e; subst e; simp at h)

/-- One slot of an arena: its generation and, when occupied, its value. -/
structure Slot (α : Type) where
  generation : UInt32
  value : Option α

/-- A slot as `Arena.clear` leaves it: an occupied slot moves to the next generation, emptied. -/
def Slot.cleared {α : Type} (s : Slot α) : Slot α :=
  match s.value with
  | some _ => ⟨s.generation + 1, none⟩
  | none => s

theorem Slot.value_cleared {α : Type} (s : Slot α) : s.cleared.value = none := by
  unfold Slot.cleared
  split
  · rfl
  · assumption

/-- Values in generation-tagged slots, with a stack of free slot numbers. -/
structure Arena (α : Type) where
  slots : Array (Slot α) := #[]
  /-- Free slot numbers, the most recently freed first. -/
  free : List Nat := []
  /-- Number of stored values. -/
  size : Nat := 0

namespace Arena

variable {α : Type}

/-- The value stored under `h`, if `h` is still current. -/
def get? (A : Arena α) (h : Handle α) : Option α :=
  match A.slots[h.index]? with
  | some s => if s.generation = h.generation then s.value else none
  | none => none

/-- Whether `h` still finds a value. -/
def contains (A : Arena α) (h : Handle α) : Bool := (A.get? h).isSome

/-- Stores a value in the most recently freed slot, or in a new slot of generation zero. -/
def insert (A : Arena α) (v : α) : Arena α × Handle α :=
  match A.free with
  | i :: rest =>
    let g := (A.slots[i]?.map (·.generation)).getD 0
    ({ slots := A.slots.set! i ⟨g, some v⟩, free := rest, size := A.size + 1 }, ⟨i, g⟩)
  | [] =>
    ({ A with slots := A.slots.push ⟨0, some v⟩, size := A.size + 1 }, ⟨A.slots.size, 0⟩)

/-- Removes the value under `h`, bumping the slot's generation; nothing changes for a stale
    handle. Returns the removed value. -/
def remove (A : Arena α) (h : Handle α) : Arena α × Option α :=
  match A.slots[h.index]? with
  | some ⟨g, some v⟩ =>
    if g = h.generation then
      ({ slots := A.slots.set! h.index ⟨g + 1, none⟩, free := h.index :: A.free,
         size := A.size - 1 }, some v)
    else (A, none)
  | _ => (A, none)

/-- Applies `f` to the value under `h`, if `h` is current. -/
def modify (A : Arena α) (h : Handle α) (f : α → α) : Arena α :=
  match A.slots[h.index]? with
  | some ⟨g, some v⟩ =>
    if g = h.generation then { A with slots := A.slots.set! h.index ⟨g, some (f v)⟩ } else A
  | _ => A

/-- One slot's step of `clear`: an occupied slot is emptied into the next generation and its
    number goes on the free list. -/
def clearStep (acc : Array (Slot α) × List Nat) (p : Slot α × Nat) : Array (Slot α) × List Nat :=
  match p.1.value with
  | some _ => (acc.1.push ⟨p.1.generation + 1, none⟩, p.2 :: acc.2)
  | none => (acc.1.push p.1, acc.2)

/-- Frees every occupied slot, in increasing slot order, bumping each generation. -/
def clear (A : Arena α) : Arena α :=
  let (slots, free) := A.slots.zipIdx.foldl clearStep (#[], A.free)
  { slots := slots, free := free, size := 0 }


/-! ### What the handles find -/

/-- The free list names distinct slots, each of them empty: storing into the slot it offers
    overwrites nothing. -/
structure WF (A : Arena α) : Prop where
  free_nodup : A.free.Nodup
  free_empty : ∀ i ∈ A.free, ∃ g, A.slots[i]? = some ⟨g, none⟩

theorem WF.empty : ({} : Arena α).WF := ⟨List.nodup_nil, by simp⟩

theorem get?_eq (A : Arena α) (h : Handle α) :
    A.get? h = A.slots[h.index]?.bind
      fun s => if s.generation = h.generation then s.value else none := by
  unfold get?
  cases A.slots[h.index]? <;> rfl

/-- A handle finds the value stored under it, and nothing else. -/
theorem get?_insert {A : Arena α} (hA : A.WF) (v : α) (h : Handle α) :
    (A.insert v).1.get? h = if h = (A.insert v).2 then some v else A.get? h := by
  obtain ⟨i, g⟩ := h
  unfold insert
  split
  next j rest hfree =>
    obtain ⟨g0, hg0⟩ := hA.free_empty j (by simp [hfree])
    have hj : j < A.slots.size := (Array.getElem?_eq_some_iff.1 hg0).1
    simp only [get?_eq, Array.set!_eq_setIfInBounds, Array.getElem?_setIfInBounds, hg0]
    by_cases hij : j = i
    · subst hij
      have hs : A.slots[j] = ⟨g0, none⟩ := by simpa [hj] using hg0
      by_cases hgg : g0 = g <;> simp [hj, hs, hgg, Handle.mk.injEq, eq_comm]
    · simp [hij, Handle.mk.injEq, Ne.symm hij]
  next hfree =>
    simp only [get?_eq, Array.getElem?_push]
    by_cases hi : i = A.slots.size
    · subst hi
      by_cases hg : (0 : UInt32) = g <;> simp [hg, Handle.mk.injEq, eq_comm]
    · simp [hi, Handle.mk.injEq]

/-- The handle a store hands out found nothing before. -/
theorem get?_insert_snd {A : Arena α} (hA : A.WF) (v : α) : A.get? (A.insert v).2 = none := by
  unfold insert
  split
  next j rest hfree =>
    obtain ⟨g0, hg0⟩ := hA.free_empty j (by simp [hfree])
    simp [get?_eq, hg0]
  next => simp [get?_eq]

theorem size_insert (A : Arena α) (v : α) : (A.insert v).1.size = A.size + 1 := by
  unfold insert
  split <;> rfl

theorem WF.insert {A : Arena α} (hA : A.WF) (v : α) : (A.insert v).1.WF := by
  unfold Arena.insert
  split
  next j rest hfree =>
    have hnd := hA.free_nodup
    rw [hfree, List.nodup_cons] at hnd
    refine ⟨hnd.2, fun i hi => ?_⟩
    obtain ⟨g, hg⟩ := hA.free_empty i (by simp [hfree, hi])
    have hij : j ≠ i := fun e => hnd.1 (e ▸ hi)
    exact ⟨g, by simp [hij, hg]⟩
  next hfree => exact ⟨by simp [hfree], by simp [hfree]⟩

/-- Removing the value under `h` leaves every other handle's value alone. -/
theorem get?_remove (A : Arena α) (h h' : Handle α) :
    (A.remove h).1.get? h' = if h' = h then none else A.get? h' := by
  obtain ⟨i, g⟩ := h
  obtain ⟨i', g'⟩ := h'
  unfold remove
  split
  next g0 v hs =>
    split
    next hg =>
      simp only [get?_eq, Array.set!_eq_setIfInBounds, Array.getElem?_setIfInBounds]
      have hi : i < A.slots.size := (Array.getElem?_eq_some_iff.1 hs).1
      by_cases hii : i = i'
      · subst hii hg
        have hs' : A.slots[i] = ⟨g0, some v⟩ := by simpa [hi] using hs
        by_cases hgg : g0 = g' <;> simp [hi, hs', hgg, Handle.mk.injEq, eq_comm]
      · simp [hii, Handle.mk.injEq, Ne.symm hii]
    next hg =>
      by_cases he : (⟨i', g'⟩ : Handle α) = ⟨i, g⟩
      · simp only [Handle.mk.injEq] at he
        obtain ⟨rfl, rfl⟩ := he
        simp [get?_eq, hs, hg]
      · simp [he]
  next hs =>
    by_cases he : (⟨i', g'⟩ : Handle α) = ⟨i, g⟩
    · simp only [Handle.mk.injEq] at he
      obtain ⟨rfl, rfl⟩ := he
      simp only [get?_eq, if_true]
      cases hx : A.slots[i']? with
      | none => rfl
      | some s =>
        obtain ⟨sg, sv⟩ := s
        cases sv with
        | none => simp
        | some v => exact absurd hx (hs sg v)
    · simp [he]

/-- A removal hands back what the handle found. -/
theorem remove_snd (A : Arena α) (h : Handle α) : (A.remove h).2 = A.get? h := by
  unfold remove
  split
  next g0 v hs =>
    split
    next hg => simp [get?_eq, hs, hg]
    next hg => simp [get?_eq, hs, hg]
  next hs =>
    simp only [get?_eq]
    cases hx : A.slots[h.index]? with
    | none => rfl
    | some s =>
      obtain ⟨sg, sv⟩ := s
      cases sv with
      | none => simp
      | some v => exact absurd hx (hs sg v)

/-- A removal that finds nothing changes nothing. -/
theorem remove_of_get?_none {A : Arena α} {h : Handle α} (hn : A.get? h = none) :
    A.remove h = (A, none) := by
  unfold remove
  split
  next g0 v hs =>
    split
    next hg => simp [get?_eq, hs, hg] at hn
    next => rfl
  next => rfl

theorem size_remove (A : Arena α) (h : Handle α) :
    (A.remove h).1.size = if (A.get? h).isSome then A.size - 1 else A.size := by
  unfold remove
  split
  next g0 v hs =>
    split
    next hg => simp [get?_eq, hs, hg]
    next hg => simp [get?_eq, hs, hg]
  next hs =>
    simp only [get?_eq]
    cases hx : A.slots[h.index]? with
    | none => rfl
    | some s =>
      obtain ⟨sg, sv⟩ := s
      cases sv with
      | none => simp
      | some v => exact absurd hx (hs sg v)

theorem WF.remove {A : Arena α} (hA : A.WF) (h : Handle α) : (A.remove h).1.WF := by
  unfold Arena.remove
  split
  next g0 v hs =>
    split
    next hg =>
      have hi : h.index ∉ A.free := fun hm => by
        obtain ⟨g, hg'⟩ := hA.free_empty _ hm
        simp [hs] at hg'
      refine ⟨List.nodup_cons.2 ⟨hi, hA.free_nodup⟩, fun i hm => ?_⟩
      have hlt : h.index < A.slots.size := (Array.getElem?_eq_some_iff.1 hs).1
      rcases List.mem_cons.1 hm with rfl | hm
      · exact ⟨g0 + 1, by simp [hlt]⟩
      · obtain ⟨g, hg'⟩ := hA.free_empty i hm
        have hne : h.index ≠ i := fun e => hi (e ▸ hm)
        exact ⟨g, by simp [hne, hg']⟩
    next => exact hA
  next => exact hA

/-- Changing the value under `h` changes what `h` finds and nothing else. -/
theorem get?_modify (A : Arena α) (h : Handle α) (f : α → α) (h' : Handle α) :
    (A.modify h f).get? h' = if h' = h then (A.get? h).map f else A.get? h' := by
  obtain ⟨i, g⟩ := h
  obtain ⟨i', g'⟩ := h'
  unfold modify
  split
  next g0 v hs =>
    split
    next hg =>
      simp only [get?_eq, Array.set!_eq_setIfInBounds, Array.getElem?_setIfInBounds]
      have hi : i < A.slots.size := (Array.getElem?_eq_some_iff.1 hs).1
      by_cases hii : i = i'
      · subst hii hg
        have hs' : A.slots[i] = ⟨g0, some v⟩ := by simpa [hi] using hs
        by_cases hgg : g' = g0
        · simp [hi, hs', hgg]
        · have hgg' : g0 ≠ g' := Ne.symm hgg
          simp [hi, hs', hgg, hgg', Handle.mk.injEq]
      · simp [hii, Handle.mk.injEq, Ne.symm hii]
    next hg =>
      by_cases he : (⟨i', g'⟩ : Handle α) = ⟨i, g⟩
      · simp only [Handle.mk.injEq] at he
        obtain ⟨rfl, rfl⟩ := he
        simp [get?_eq, hs, hg]
      · simp [he]
  next hs =>
    by_cases he : (⟨i', g'⟩ : Handle α) = ⟨i, g⟩
    · simp only [Handle.mk.injEq] at he
      obtain ⟨rfl, rfl⟩ := he
      simp only [get?_eq, if_true]
      cases hx : A.slots[i']? with
      | none => rfl
      | some s =>
        obtain ⟨sg, sv⟩ := s
        cases sv with
        | none => simp
        | some v => exact absurd hx (hs sg v)
    · simp [he]

theorem size_modify (A : Arena α) (h : Handle α) (f : α → α) : (A.modify h f).size = A.size := by
  unfold modify
  split
  · split <;> rfl
  · rfl

theorem WF.modify {A : Arena α} (hA : A.WF) (h : Handle α) (f : α → α) : (A.modify h f).WF := by
  unfold Arena.modify
  split
  next g0 v hs =>
    split
    next hg =>
      refine ⟨hA.free_nodup, fun i hm => ?_⟩
      obtain ⟨g, hg'⟩ := hA.free_empty i hm
      have hne : h.index ≠ i := fun e => by subst e; simp [hs] at hg'
      exact ⟨g, by simp [hne, hg']⟩
    next => exact hA
  next => exact hA

/-- The numbers of the occupied slots, in increasing order. -/
def occupied (A : Arena α) : List Nat :=
  (A.slots.toList.zipIdx.filter fun p => p.1.value.isSome).map Prod.snd

theorem foldl_clearStep (l : List (Slot α × Nat)) (acc : Array (Slot α)) (fr : List Nat) :
    l.foldl clearStep (acc, fr) =
      (⟨acc.toList ++ l.map (Slot.cleared ∘ Prod.fst)⟩,
        ((l.filter fun p => p.1.value.isSome).map Prod.snd).reverse ++ fr) := by
  induction l generalizing acc fr with
  | nil => simp
  | cons p l ih =>
    obtain ⟨⟨g, v⟩, i⟩ := p
    cases v <;> simp [clearStep, ih, Slot.cleared]

theorem clear_eq (A : Arena α) :
    A.clear = ⟨⟨A.slots.toList.map Slot.cleared⟩, A.occupied.reverse ++ A.free, 0⟩ := by
  unfold clear
  rw [← Array.foldl_toList, Array.toList_zipIdx, foldl_clearStep, ← List.map_map,
    List.zipIdx_map_fst]
  simp [occupied]

theorem get?_clear (A : Arena α) (h : Handle α) : A.clear.get? h = none := by
  rw [get?_eq, clear_eq]
  cases hs : A.slots.toList[h.index]? with
  | none => simp [hs]
  | some s => simp [hs, Slot.value_cleared]

theorem mem_occupied {A : Arena α} {i : Nat} :
    i ∈ A.occupied ↔ ∃ s, A.slots[i]? = some s ∧ s.value.isSome := by
  simp only [occupied, List.mem_map, List.mem_filter]
  constructor
  · rintro ⟨⟨s, j⟩, ⟨hm, hv⟩, rfl⟩
    obtain ⟨-, hlt, hs⟩ := List.mem_zipIdx hm
    simp only [Nat.zero_add, Nat.sub_zero] at hlt hs
    exact ⟨s, by simp [hs], hv⟩
  · rintro ⟨s, hs, hv⟩
    refine ⟨(s, i), ⟨?_, hv⟩, rfl⟩
    rw [List.mem_iff_getElem?]
    exact ⟨i, by simp [List.getElem?_zipIdx, hs]⟩

theorem occupied_nodup (A : Arena α) : A.occupied.Nodup := by
  have hsub : A.occupied.Sublist (A.slots.toList.zipIdx.map Prod.snd) :=
    (List.filter_sublist).map _
  rw [List.zipIdx_map_snd] at hsub
  exact hsub.nodup List.nodup_range'

theorem WF.clear {A : Arena α} (hA : A.WF) : A.clear.WF := by
  rw [clear_eq]
  constructor
  · refine List.nodup_append.2 ⟨(List.reverse_perm _).nodup_iff.2 A.occupied_nodup, hA.free_nodup, ?_⟩
    intro i hi j hj hij
    subst hij
    obtain ⟨s, hs, hv⟩ := mem_occupied.1 (List.mem_reverse.1 hi)
    obtain ⟨g, hg⟩ := hA.free_empty i hj
    rw [hs] at hg
    cases hg
    simp at hv
  · intro i hi
    have hslot : ∀ s, A.slots[i]? = some s →
        (⟨A.slots.toList.map Slot.cleared⟩ : Array (Slot α))[i]? = some s.cleared := by
      intro s hs
      simp [hs]
    rcases List.mem_append.1 hi with hi | hi
    · obtain ⟨s, hs, -⟩ := mem_occupied.1 (List.mem_reverse.1 hi)
      refine ⟨s.cleared.generation, ?_⟩
      rw [hslot s hs, ← Slot.value_cleared s]
    · obtain ⟨g, hg⟩ := hA.free_empty i hi
      exact ⟨g, by rw [hslot _ hg]; rfl⟩

theorem size_clear (A : Arena α) : A.clear.size = 0 := by
  rw [clear_eq]

end Arena

end VerifiedRip
