import Mathlib.Data.List.Nodup
import VerifiedRip.Cache
/-!
# Order lists of an arena

The fragment cache keeps, beside each arena, an order list of handles by which it lists the
arena's values in stream order. This module is the theory of such a pair `(A, O)`.

* `Arena.Indexes A O`: `O` holds each live handle of `A` once and nothing else, and `A` counts
  them.
* `Arena.OrderedBy A O start L`: moreover the values listed through `O` stand in stable order by
  `start` with respect to `L`, the live entries in the order they were stored
  (`StartsBefore`).

Both are kept by storing a value at the slot `FragmentCache.slotFor` picks, by removing one, by
clearing, and by a pass over handles that drops some values and moves the others
(`Arena.sweepStep`); the ordered version needs the pass to keep the order of what stays.

## Main statements

* `Arena.OrderedBy.insert`, `OrderedBy.foldl_sweepStep`, `OrderedBy.clear`.
* `Arena.OrderedBy.listsInOrder`: the listing is then `L.mergeSort`, the stable sort of the
  stored entries by start (`Arena.ListsInOrder`); `Arena.Indexes.listsLive`: without the order,
  the listing still holds each live entry once (`Arena.ListsLive`).
-/

namespace VerifiedRip

section Stable

variable {α : Type}

private theorem insertIdx_eq_take_drop {β : Type} (l : List β) (x : β) :
    ∀ k, k ≤ l.length → l.insertIdx k x = l.take k ++ x :: l.drop k := by
  induction l with
  | nil => intro k hk; simp at hk; subst hk; rfl
  | cons a l ih =>
    intro k hk
    cases k with
    | zero => rfl
    | succ k => simp [List.insertIdx_succ_cons, ih k (by simpa using hk)]

def StartsBefore (start : α → Int64) (L : List (Handle α × α)) (x y : Handle α × α) : Prop :=
  start x.2 ≤ start y.2 ∧ (start y.2 ≤ start x.2 → [x, y].Sublist L)

/-- The comparison a listing by start sorts with. -/
def byStart (start : α → Int64) (x y : Handle α × α) : Bool := decide (start x.2 ≤ start y.2)

variable {β : Type}

/-- Of two distinct members of a list, one comes first. -/
private theorem pair_sublist_or {l : List β} {x y : β} (hx : x ∈ l) (hy : y ∈ l) (hxy : x ≠ y) :
    [x, y].Sublist l ∨ [y, x].Sublist l := by
  induction l with
  | nil => simp at hx
  | cons c t ih =>
    rcases List.mem_cons.1 hx with rfl | hx'
    · have hy' : y ∈ t := (List.mem_cons.1 hy).resolve_left (Ne.symm hxy)
      exact .inl (List.cons_sublist_cons.2 (List.singleton_sublist.2 hy'))
    rcases List.mem_cons.1 hy with rfl | hy'
    · exact .inr (List.cons_sublist_cons.2 (List.singleton_sublist.2 hx'))
    rcases ih hx' hy' with h | h
    · exact .inl (h.cons c)
    · exact .inr (h.cons c)

/-- In a list without repeats, no two members come each before the other. -/
private theorem not_pair_sublist_both {l : List β} (hl : l.Nodup) {x y : β}
    (hxy : [x, y].Sublist l) (hyx : [y, x].Sublist l) : False := by
  induction l with
  | nil => simp at hxy
  | cons c t ih =>
    rw [List.nodup_cons] at hl
    have hmem : ∀ {u v : β}, [u, v].Sublist t → u ∈ t ∧ v ∈ t := fun h =>
      ⟨h.subset (by simp), h.subset (by simp)⟩
    rcases List.sublist_cons_iff.1 hxy with hxy' | ⟨r, hr, hrt⟩ <;>
      rcases List.sublist_cons_iff.1 hyx with hyx' | ⟨r', hr', hrt'⟩
    · exact ih hl.2 hxy' hyx'
    · obtain ⟨rfl, rfl⟩ := List.cons_eq_cons.1 hr'
      exact hl.1 (hmem hxy').2
    · obtain ⟨rfl, rfl⟩ := List.cons_eq_cons.1 hr
      exact hl.1 (hmem hyx').2
    · obtain ⟨rfl, rfl⟩ := List.cons_eq_cons.1 hr
      obtain ⟨rfl, -⟩ := List.cons_eq_cons.1 hr'
      exact hl.1 (hrt.subset (by simp))

theorem byStart_trans (start : α → Int64) (a b c : Handle α × α)
    (hab : byStart start a b = true) (hbc : byStart start b c = true) : byStart start a c = true := by
  simp only [byStart, decide_eq_true_eq] at *
  exact Int64.le_trans hab hbc

theorem byStart_total (start : α → Int64) (a b : Handle α × α) :
    (byStart start a b || byStart start b a) = true := by
  rcases Int64.le_total (start a.2) (start b.2) with h | h <;> simp [byStart, h]

/-- A stable sort by start lists each entry before the later ones, entries that start together
    in the order of `L`. -/
theorem pairwise_startsBefore_mergeSort (start : α → Int64) {L : List (Handle α × α)}
    (hL : L.Nodup) : (L.mergeSort (byStart start)).Pairwise (StartsBefore start L) := by
  have hsorted := List.pairwise_mergeSort (byStart_trans start) (byStart_total start) L
  have hnd : (L.mergeSort (byStart start)).Nodup := (List.mergeSort_perm _ _).nodup_iff.2 hL
  rw [List.pairwise_iff_forall_sublist]
  intro x y hxy
  refine ⟨by simpa [byStart] using hsorted.forall_sublist hxy, fun hyx => ?_⟩
  have hne : x ≠ y := by
    rintro rfl
    exact List.nodup_iff_sublist.1 hnd x hxy
  have hmem : ∀ z ∈ [x, y], z ∈ L := fun z hz =>
    List.mem_mergeSort.1 (hxy.subset hz)
  rcases pair_sublist_or (hmem x (by simp)) (hmem y (by simp)) hne with h | h
  · exact h
  · -- `y` before `x` in `L` would keep them in that order in the sort
    have hyx' := List.pair_sublist_mergeSort (byStart_trans start) (byStart_total start)
      (by simpa [byStart] using hyx) h
    exact (not_pair_sublist_both hnd hxy hyx').elim

/-- A listing of the entries of `L` that stands in stable order by start is the stable sort of
    `L` by start. -/
theorem eq_mergeSort_of_pairwise (start : α → Int64) {L M : List (Handle α × α)} (hL : L.Nodup)
    (hperm : M.Perm L) (hM : M.Pairwise (StartsBefore start L)) :
    M = L.mergeSort (byStart start) := by
  refine hperm.trans (List.mergeSort_perm _ _).symm |>.eq_of_pairwise ?_ hM
    (pairwise_startsBefore_mergeSort start hL)
  intro a b _ _ hab hba
  exact (not_pair_sublist_both hL (hab.2 hba.1) (hba.2 hab.1)).elim

theorem StartsBefore.mono {start : α → Int64} {L L' : List (Handle α × α)} {x y : Handle α × α}
    (h : StartsBefore start L x y) (hL : L.Sublist L') : StartsBefore start L' x y :=
  ⟨h.1, fun hyx => (h.2 hyx).trans hL⟩

end Stable


namespace FragmentCache

/-! ### The binary search for a slot -/

section Halving

variable {p : Nat → Bool}

/-- Halving keeps the range of indices inside the one it started from and never empties it. -/
theorem halve_add_one_le (fuel base size : Nat) (hsize : 1 ≤ size) :
    halve p fuel base size + 1 ≤ base + size := by
  induction fuel generalizing base size with
  | zero => simp only [halve]; omega
  | succ fuel ih =>
    simp only [halve]
    split
    · omega
    · -- from either end of the halved range, what is left ends where the old range did
      by_cases hm : p (base + size / 2)
      · simp only [hm, if_true]
        have := ih (base + size / 2) (size - size / 2) (by omega)
        omega
      · simp only [hm, Bool.false_eq_true, if_false]
        have := ih base (size - size / 2) (by omega)
        omega

/-- For a `p` that accepts exactly the indices below `k`, each halving keeps `k` within one past
    the range, so the last range of one index sits at `k` or just below it. -/
theorem halve_spec {n k : Nat} (hp : ∀ i < n, p i = decide (i < k)) (fuel base size : Nat)
    (hfuel : size ≤ fuel + 1) (hsize : 1 ≤ size) (hlo : base ≤ k) (hhi : k ≤ base + size)
    (hn : base + size ≤ n) :
    halve p fuel base size ≤ k ∧ k ≤ halve p fuel base size + 1 := by
  induction fuel generalizing base size with
  | zero => simp only [halve]; omega
  | succ fuel ih =>
    simp only [halve]
    split
    · omega
    · rw [hp _ (by omega)]
      by_cases hmid : base + size / 2 < k
      · simp only [hmid, decide_true, if_true]
        exact ih _ _ (by omega) (by omega) (by omega) (by omega) (by omega)
      · simp only [hmid, decide_false, Bool.false_eq_true, if_false]
        exact ih _ _ (by omega) (by omega) hlo (by omega) (by omega)

/-- The binary search never answers past the end. -/
theorem partitionPoint_le (n : Nat) : partitionPoint p n ≤ n := by
  unfold partitionPoint
  split
  · omega
  · have h := halve_add_one_le (p := p) n 0 n (by omega)
    dsimp only
    split <;> omega

/-- On a `p` that accepts exactly the indices below `k`, the binary search finds `k`. -/
theorem partitionPoint_eq {n k : Nat} (hk : k ≤ n) (hp : ∀ i < n, p i = decide (i < k)) :
    partitionPoint p n = k := by
  unfold partitionPoint
  split
  · omega
  · obtain ⟨hle, hge⟩ := halve_spec hp n 0 n (by omega) (by omega) (by omega) (by omega) (by omega)
    have hlt := halve_add_one_le (p := p) n 0 n (by omega)
    dsimp only
    rw [hp _ (by omega)]
    by_cases hb : halve p n 0 n < k <;> simp [hb] <;> omega

end Halving

variable {α : Type}

/-- In a list where an entry a predicate accepts is preceded only by accepted entries, the
    accepted entries are those before the first rejected one. -/
private theorem getElem_eq_decide_lt_findIdx {β : Type} {q : β → Bool} {l : List β}
    (hs : l.Pairwise fun x y => q y = true → q x = true) {i : Nat} (hi : i < l.length) :
    q l[i] = decide (i < l.findIdx fun x => !q x) := by
  by_cases hik : i < l.findIdx fun x => !q x
  · have h := List.not_of_lt_findIdx hik
    simp only [Bool.not_eq_false'] at h
    simp [h, hik]
  · have hk : (l.findIdx fun x => !q x) < l.length := by omega
    have hfirst := List.findIdx_getElem (w := hk)
    simp only [Bool.not_eq_eq_eq_not, Bool.not_true] at hfirst
    rw [decide_eq_false hik]
    -- an accepted entry past the first rejected one would make that one accepted too
    by_contra hq
    simp only [Bool.not_eq_false] at hq
    rcases Nat.lt_or_eq_of_le (Nat.le_of_not_lt hik) with hlt | heq
    · have := List.pairwise_iff_getElem.1 hs _ _ hk hi hlt hq
      rw [hfirst] at this
      exact Bool.false_ne_true this
    · simp only [heq] at hfirst
      rw [hfirst] at hq
      exact Bool.false_ne_true hq

/-- On an order list where an entry at or before `b` is preceded only by such entries, as in a
    list sorted by start, the slot is the place of the first entry that starts after `b`. -/
theorem slotFor_eq_findIdx (O : Array (Handle α)) (F : Handle α → Option Int64) (b : Int64)
    (hsorted : O.toList.Pairwise fun g g' => (F g').any (· ≤ b) = true → (F g).any (· ≤ b) = true) :
    slotFor O F b = O.toList.findIdx fun h => !((F h).any (· ≤ b)) := by
  unfold slotFor
  refine partitionPoint_eq (by rw [← Array.length_toList]; exact List.findIdx_le_length) fun i hi => ?_
  have hi' : i < O.toList.length := by simpa using hi
  rw [Array.getElem?_eq_getElem hi, Option.bind_some, ← Array.getElem_toList hi']
  exact getElem_eq_decide_lt_findIdx hsorted hi'

/-- A slot is a place of the order list, at most its end. -/
theorem slotFor_le (O : Array (Handle α)) (F : Handle α → Option Int64) (b : Int64) :
    slotFor O F b ≤ O.size :=
  partitionPoint_le _

end FragmentCache

namespace Arena

variable {α : Type}

/-- The values that the handles of `O` find in `A`, with their handles, in the order of `O`. -/
def entries (A : Arena α) (O : Array (Handle α)) : List (Handle α × α) :=
  O.toList.filterMap fun h => (A.get? h).map (h, ·)

theorem mem_entries {A : Arena α} {O : Array (Handle α)} {h : Handle α} {v : α} :
    (h, v) ∈ A.entries O ↔ h ∈ O.toList ∧ A.get? h = some v := by
  simp only [entries, List.mem_filterMap, Option.map_eq_some_iff, Prod.mk.injEq]
  constructor
  · rintro ⟨g, hg, w, hw, rfl, rfl⟩
    exact ⟨hg, hw⟩
  · rintro ⟨hg, hw⟩
    exact ⟨h, hg, v, hw, rfl, rfl⟩

/-- The order list `O` of arena `A` holds each live handle once, and the arena counts them. -/
structure Indexes (A : Arena α) (O : Array (Handle α)) : Prop where
  wf : A.WF
  nodup : O.toList.Nodup
  mem_iff : ∀ h, h ∈ O.toList ↔ (A.get? h).isSome
  size_eq : A.size = O.size

/-- The order list `O` of arena `A` holds each live handle once, and the values they find stand
    in stable order by start with respect to `L`, the live values in the order they were stored. -/
structure OrderedBy (A : Arena α) (O : Array (Handle α)) (start : α → Int64)
    (L : List (Handle α × α)) : Prop extends Indexes A O where
  perm : (A.entries O).Perm L
  sorted : (A.entries O).Pairwise (StartsBefore start L)

variable {start : α → Int64} {A : Arena α} {O : Array (Handle α)} {L : List (Handle α × α)}

/-- Every handle of the order list finds a value, so the entries list the whole order list. -/
theorem Indexes.map_fst_entries (hI : Indexes A O) :
    (A.entries O).map Prod.fst = O.toList := by
  rw [entries, List.map_filterMap]
  conv => rhs; rw [← List.filterMap_some (l := O.toList)]
  refine List.filterMap_congr fun g hg => ?_
  obtain ⟨w, hw⟩ := Option.isSome_iff_exists.1 ((hI.mem_iff g).1 hg)
  simp [hw]

/-- `L` holds exactly the live values. -/
theorem OrderedBy.get?_iff (hI : OrderedBy A O start L) (h : Handle α) (v : α) :
    A.get? h = some v ↔ (h, v) ∈ L := by
  rw [← hI.perm.mem_iff, mem_entries, hI.mem_iff]
  constructor
  · intro hv
    exact ⟨by simp [hv], hv⟩
  · exact fun hv => hv.2

/-- `L` holds each live handle once. -/
theorem OrderedBy.nodup_fst (hI : OrderedBy A O start L) : (L.map Prod.fst).Nodup := by
  rw [← (hI.perm.map Prod.fst).nodup_iff, hI.map_fst_entries]
  exact hI.nodup

theorem Indexes.size_eq_length (hI : Indexes A O) : A.size = (A.entries O).length := by
  rw [hI.size_eq, ← List.length_map (f := Prod.fst), hI.map_fst_entries]
  rfl

theorem OrderedBy.length_eq (hI : OrderedBy A O start L) : A.size = L.length := by
  rw [hI.size_eq_length, hI.perm.length_eq]

theorem Indexes.empty : Indexes ({} : Arena α) #[] where
  wf := WF.empty
  nodup := List.nodup_nil
  mem_iff h := by simp [get?_eq]
  size_eq := rfl

theorem OrderedBy.empty : OrderedBy ({} : Arena α) #[] start [] where
  toIndexes := Indexes.empty
  perm := by simp [entries]
  sorted := by simp [entries]

theorem Indexes.clear (hI : Indexes A O) : Indexes A.clear #[] where
  wf := hI.wf.clear
  nodup := List.nodup_nil
  mem_iff h := by simp [get?_clear]
  size_eq := A.size_clear

theorem OrderedBy.clear (hI : OrderedBy A O start L) : OrderedBy A.clear #[] start [] where
  toIndexes := hI.toIndexes.clear
  perm := by simp [entries]
  sorted := by simp [entries]

/-- Taking a member out of a list without repeats shortens it by one. -/
private theorem length_filter_ne_add_one {β : Type} [DecidableEq β] {l : List β} (hl : l.Nodup)
    {b : β} (hb : b ∈ l) : (l.filter (· != b)).length + 1 = l.length := by
  induction l with
  | nil => simp at hb
  | cons c t ih =>
    rw [List.nodup_cons] at hl
    by_cases hc : c = b
    · subst hc
      have hself : t.filter (· != c) = t := List.filter_eq_self.2 fun a ha => by
        simp only [bne_iff_ne, ne_eq]
        rintro rfl
        exact hl.1 ha
      rw [List.filter_cons_of_neg (by simp), hself]
      rfl
    · have hb' : b ∈ t := (List.mem_cons.1 hb).resolve_left (Ne.symm hc)
      rw [List.filter_cons_of_pos (by simpa using hc), List.length_cons, ih hl.2 hb']
      rfl

theorem entries_remove (A : Arena α) (O : Array (Handle α)) (h : Handle α) :
    (A.remove h).1.entries (O.filter (· != h)) = (A.entries O).filter (·.1 != h) := by
  simp only [entries, Array.toList_filter, List.filter_filterMap, List.filterMap_filter]
  refine List.filterMap_congr fun g _ => ?_
  by_cases hg : g = h
  · subst hg
    cases A.get? g <;> simp [Option.filter_some]
  · cases hx : A.get? g <;> simp [get?_remove, hg, hx, Option.filter_some]

theorem Indexes.remove (hI : Indexes A O) {h : Handle α} {v : α} (hv : A.get? h = some v) :
    Indexes (A.remove h).1 (O.filter (· != h)) where
  wf := hI.wf.remove h
  nodup := by
    rw [Array.toList_filter]
    exact hI.nodup.sublist List.filter_sublist
  mem_iff g := by
    rw [Array.toList_filter, List.mem_filter, hI.mem_iff, get?_remove]
    by_cases hg : g = h <;> simp [hg]
  size_eq := by
    have hh : h ∈ O.toList := (hI.mem_iff h).2 (by simp [hv])
    have hlen : (O.filter (· != h)).size = (O.toList.filter (· != h)).length := by
      rw [← Array.toList_filter, Array.length_toList]
    have hone := length_filter_ne_add_one hI.nodup hh
    rw [size_remove, hv, hI.size_eq, hlen, ← Array.length_toList]
    simp only [Option.isSome_some, if_true]
    omega

/-- Removing a live value takes its handle out of the order list and its entry out of `L`. -/
theorem OrderedBy.remove (hI : OrderedBy A O start L) {h : Handle α} {v : α}
    (hv : A.get? h = some v) :
    OrderedBy (A.remove h).1 (O.filter (· != h)) start (L.filter (·.1 != h)) where
  toIndexes := hI.toIndexes.remove hv
  perm := by
    rw [entries_remove]
    exact hI.perm.filter _
  sorted := by
    rw [entries_remove, List.pairwise_filter]
    exact hI.sorted.imp fun {x y} hxy hx hy =>
      ⟨hxy.1, fun hyx => by simpa [List.filter, hx, hy] using (hxy.2 hyx).filter (·.1 != h)⟩

/-! ### Storing a value -/

/-- A handle of the order list is live, so it is not the handle a new value gets. -/
theorem Indexes.ne_insert_snd (hI : Indexes A O) (v : α) {g : Handle α} (hg : g ∈ O.toList) :
    g ≠ (A.insert v).2 := fun e => by
  have hlive := (hI.mem_iff g).1 hg
  rw [e, get?_insert_snd hI.wf v] at hlive
  exact Bool.false_ne_true hlive

theorem Indexes.get?_insert_of_mem (hI : Indexes A O) (v : α) {g : Handle α}
    (hg : g ∈ O.toList) : (A.insert v).1.get? g = A.get? g := by
  rw [get?_insert hI.wf, if_neg (hI.ne_insert_snd v hg)]

private theorem toList_insertIdxIfInBounds (O : Array (Handle α)) (k : Nat) (h : Handle α) :
    (O.insertIdxIfInBounds k h).toList = O.toList.insertIdx k h := by
  obtain ⟨Ol⟩ := O
  simp

/-- Storing a value and listing its handle anywhere in the order list keeps each live handle
    listed once. -/
theorem Indexes.insert (hI : Indexes A O) (v : α) {k : Nat} (hk : k ≤ O.size) :
    Indexes (A.insert v).1 (O.insertIdxIfInBounds k (A.insert v).2) where
  wf := hI.wf.insert v
  nodup := by
    rw [toList_insertIdxIfInBounds, (List.perm_insertIdx _ _ hk).nodup_iff, List.nodup_cons]
    exact ⟨fun hm => hI.ne_insert_snd v hm rfl, hI.nodup⟩
  mem_iff g := by
    rw [toList_insertIdxIfInBounds, List.mem_insertIdx hk, get?_insert hI.wf, hI.mem_iff]
    by_cases hg : g = (A.insert v).2 <;> simp [hg]
  size_eq := by
    rw [size_insert, hI.size_eq, ← Array.length_toList, ← Array.length_toList,
      toList_insertIdxIfInBounds, List.length_insertIdx_of_le_length hk]

private theorem filterMap_insertIdx {β γ : Type} {f : β → Option γ} {x : β} {y : γ}
    (hx : f x = some y) : ∀ (l : List β), (∀ b ∈ l, (f b).isSome) → ∀ k,
      (l.insertIdx k x).filterMap f = (l.filterMap f).insertIdx k y
  | [], _, 0 => by simp [hx]
  | [], _, _ + 1 => rfl
  | b :: t, hl, 0 => by simp [List.filterMap_cons, hx]
  | b :: t, hl, k + 1 => by
    obtain ⟨c, hc⟩ := Option.isSome_iff_exists.1 (hl b (by simp))
    simp [List.insertIdx_succ_cons, hc,
      filterMap_insertIdx hx t (fun b hb => hl b (by simp [hb])) k]

theorem Indexes.entries_insert (hI : Indexes A O) (v : α) (k : Nat) :
    (A.insert v).1.entries (O.insertIdxIfInBounds k (A.insert v).2) =
      (A.entries O).insertIdx k ((A.insert v).2, v) := by
  rw [entries, toList_insertIdxIfInBounds, filterMap_insertIdx (y := ((A.insert v).2, v))
    (by simp [get?_insert hI.wf]) O.toList ?hl k]
  · congr 1
    exact List.filterMap_congr fun g hg => by rw [hI.get?_insert_of_mem v hg]
  case hl =>
    intro g hg
    rw [Option.isSome_map, hI.get?_insert_of_mem v hg]
    exact (hI.mem_iff g).1 hg

private theorem filterMap_findIdx {β γ : Type} {f : β → Option γ} {p : β → Bool}
    {q : γ → Bool} : ∀ (l : List β), (∀ b ∈ l, ∃ c, f b = some c ∧ p b = q c) →
      (l.filterMap f).findIdx q = l.findIdx p
  | [], _ => rfl
  | b :: t, hl => by
    obtain ⟨c, hc, hpq⟩ := hl b (by simp)
    simp only [List.filterMap_cons, hc, List.findIdx_cons, hpq,
      filterMap_findIdx t (fun b hb => hl b (by simp [hb]))]

/-- Where a new value is listed in a list sorted by start: before the first listed entry that
    starts after it. -/
theorem Indexes.slotFor_insert (hI : Indexes A O) (start : α → Int64) (v : α)
    (hsorted : (A.entries O).Pairwise fun x y => start x.2 ≤ start y.2) :
    FragmentCache.slotFor O (fun g => ((A.insert v).1.get? g).map start) (start v) =
      (A.entries O).findIdx fun p => decide (start v < start p.2) := by
  have hO : O.toList.Pairwise fun g g' =>
      (((A.insert v).1.get? g').map start).any (· ≤ start v) = true →
        (((A.insert v).1.get? g).map start).any (· ≤ start v) = true := by
    rw [← hI.map_fst_entries, List.pairwise_map]
    refine hsorted.imp_of_mem fun {x y} hx hy hxy hle => ?_
    rw [mem_entries] at hx hy
    rw [hI.get?_insert_of_mem v hx.1, hx.2]
    rw [hI.get?_insert_of_mem v hy.1, hy.2] at hle
    simp only [Option.map_some, Option.any_some, decide_eq_true_eq] at hle ⊢
    exact Int64.le_trans hxy hle
  rw [FragmentCache.slotFor_eq_findIdx _ _ _ hO, entries, filterMap_findIdx]
  intro g hg
  obtain ⟨w, hw⟩ := Option.isSome_iff_exists.1 ((hI.mem_iff g).1 hg)
  refine ⟨(g, w), by simp [hw], ?_⟩
  rw [hI.get?_insert_of_mem v hg, hw]
  by_cases hb : start v < start w
  · simp [hb, Int64.not_le.2 hb]
  · simp [hb, Int64.not_lt.1 hb]

/-- Putting `e` before the first entry that starts after it keeps a listing in stable order,
    `e` counting as stored last. -/
theorem pairwise_insertIdx_findIdx {M : List (Handle α × α)}
    (hM : M.Pairwise (StartsBefore start L)) (hML : ∀ a ∈ M, a ∈ L) (e : Handle α × α) :
    (M.insertIdx (M.findIdx fun p => decide (start e.2 < start p.2)) e).Pairwise
      (StartsBefore start (L ++ [e])) := by
  have hk : (M.findIdx fun p => decide (start e.2 < start p.2)) ≤ M.length :=
    List.findIdx_le_length
  generalize hkdef : (M.findIdx fun p => decide (start e.2 < start p.2)) = k at hk
  rw [insertIdx_eq_take_drop _ _ k hk]
  have hsorted : M.Pairwise (StartsBefore start (L ++ [e])) :=
    hM.imp fun h => h.mono (List.sublist_append_left _ _)
  have hsplit := List.pairwise_append.1 ((List.take_append_drop k M).symm ▸ hsorted)
  -- the entries before the slot start at or before `e`, those from it on after `e`
  have htake : ∀ a ∈ M.take k, start a.2 ≤ start e.2 := fun a ha => by
    have := List.false_of_mem_take_findIdx (hkdef ▸ ha)
    simpa using this
  have hdrop : ∀ b ∈ M.drop k, start e.2 < start b.2 := by
    intro b hb
    have hlt : k < M.length := by
      by_contra hge
      rw [List.drop_eq_nil_of_le (by omega)] at hb
      simp at hb
    rw [List.drop_eq_getElem_cons hlt] at hb
    have hfirst : start e.2 < start M[k].2 := by
      have := List.findIdx_getElem (w := hkdef ▸ hlt)
      simpa [hkdef] using this
    rcases List.mem_cons.1 hb with rfl | hb
    · exact hfirst
    · have hp := List.drop_eq_getElem_cons hlt ▸ hsplit.2.1
      exact Int64.lt_of_lt_of_le hfirst ((List.pairwise_cons.1 hp).1 b hb).1
  refine List.pairwise_append.2 ⟨hsplit.1, List.pairwise_cons.2 ⟨fun b hb => ?_, hsplit.2.1⟩,
    fun a ha b hb => ?_⟩
  · exact ⟨Int64.le_of_lt (hdrop b hb), fun hle =>
      absurd (Int64.lt_of_lt_of_le (hdrop b hb) hle) Int64.lt_irrefl⟩
  · rcases List.mem_cons.1 hb with rfl | hb
    · exact ⟨htake a ha, fun _ =>
        (List.singleton_sublist.2 (hML a (List.take_subset k M ha))).append
          (List.Sublist.refl _)⟩
    · exact hsplit.2.2 a ha b hb

/-- Storing `v` lists it after every value that starts at or before it, and adds it to `L` as the
    latest stored. -/
theorem OrderedBy.insert (hI : OrderedBy A O start L) (v : α) :
    OrderedBy (A.insert v).1
      (O.insertIdxIfInBounds
        (FragmentCache.slotFor O (fun g => ((A.insert v).1.get? g).map start) (start v))
        (A.insert v).2)
      start (L ++ [((A.insert v).2, v)]) := by
  have hk := FragmentCache.slotFor_le O (fun g => ((A.insert v).1.get? g).map start) (start v)
  have hslot := hI.toIndexes.slotFor_insert start v (hI.sorted.imp fun h => h.1)
  refine ⟨hI.toIndexes.insert v hk, ?_, ?_⟩
  · rw [hI.toIndexes.entries_insert v _]
    have hklen : _ ≤ (A.entries O).length := hslot ▸ List.findIdx_le_length
    exact (List.perm_insertIdx _ _ hklen).trans
      ((hI.perm.cons _).trans (List.perm_append_singleton _ _).symm)
  · rw [hI.toIndexes.entries_insert v _, hslot]
    exact pairwise_insertIdx_findIdx hI.sorted (fun a ha => hI.perm.subset ha) _

/-! ### Passes over the order list -/

/-- One handle's step of a pass over an arena and its order list: the value the handle finds is
    dropped if `drop` says so and moved by `move` otherwise; a handle that finds nothing is
    passed over. -/
def sweepStep (drop : α → Bool) (move : α → α) (p : Arena α × Array (Handle α)) (h : Handle α) :
    Arena α × Array (Handle α) :=
  match p.1.get? h with
  | none => p
  | some v => if drop v then ((p.1.remove h).1, p.2.filter (· != h)) else (p.1.modify h move, p.2)

/-- What a handle finds after a pass over it: nothing if its value was dropped, else the value
    moved. -/
def swept (drop : α → Bool) (move : α → α) (v : α) : Option α :=
  if drop v then none else some (move v)

variable {drop : α → Bool} {move : α → α}

theorem get?_sweepStep (A : Arena α) (O : Array (Handle α)) (h g : Handle α) :
    (sweepStep drop move (A, O) h).1.get? g =
      if g = h then (A.get? h).bind (swept drop move) else A.get? g := by
  unfold sweepStep
  cases hv : A.get? h with
  | none =>
    by_cases hg : g = h
    · simp [hg, hv]
    · simp [hg]
  | some v =>
    by_cases hd : drop v
    · simp [hd, get?_remove, swept]
    · simp [hd, get?_modify, hv, swept]

theorem sweepStep_order (A : Arena α) (O : Array (Handle α)) (h : Handle α) :
    (sweepStep drop move (A, O) h).2.toList =
      O.toList.filter fun g => !(g == h && (A.get? h).any drop) := by
  unfold sweepStep
  cases hv : A.get? h with
  | none => simp
  | some v =>
    by_cases hd : drop v
    · simp only [hd, if_true, Array.toList_filter]
      congr 1
      funext g
      simp [bne, hd]
    · simp [hd]

theorem Indexes.sweepStep (hI : Indexes A O) (drop : α → Bool) (move : α → α) (h : Handle α) :
    Indexes (sweepStep drop move (A, O) h).1 (sweepStep drop move (A, O) h).2 := by
  unfold Arena.sweepStep
  cases hv : A.get? h with
  | none => exact hI
  | some v =>
    dsimp only
    by_cases hd : drop v = true
    · rw [if_pos hd]
      exact hI.remove hv
    · rw [if_neg hd]
      refine ⟨hI.wf.modify h move, hI.nodup, fun g => ?_, by rw [size_modify, hI.size_eq]⟩
      rw [hI.mem_iff, get?_modify]
      by_cases hg : g = h <;> simp [hg, hv]

/-- What a pass over the handles `hs` makes of an entry. -/
def sweptEntry (hs : List (Handle α)) (drop : α → Bool) (move : α → α) (p : Handle α × α) :
    Option (Handle α × α) :=
  if p.1 ∈ hs then (swept drop move p.2).map (p.1, ·) else some p

/-- A pass over distinct handles `hs` drops or moves exactly the values they find, and takes the
    dropped handles out of the order list. -/
theorem Indexes.foldl_sweepStep (hI : Indexes A O) (drop : α → Bool) (move : α → α)
    (hs : List (Handle α)) (hnd : hs.Nodup) :
    Indexes (hs.foldl (Arena.sweepStep drop move) (A, O)).1 (hs.foldl (Arena.sweepStep drop move) (A, O)).2 ∧
    (∀ g, (hs.foldl (Arena.sweepStep drop move) (A, O)).1.get? g =
      if g ∈ hs then (A.get? g).bind (swept drop move) else A.get? g) ∧
    (hs.foldl (Arena.sweepStep drop move) (A, O)).2.toList =
      O.toList.filter fun g => !(decide (g ∈ hs) && (A.get? g).any drop) := by
  induction hs generalizing A O with
  | nil => exact ⟨hI, fun g => by simp, by simp⟩
  | cons h t ih =>
    rw [List.nodup_cons] at hnd
    obtain ⟨hI', hget, horder⟩ := ih (hI.sweepStep drop move h) hnd.2
    refine ⟨hI', fun g => ?_, ?_⟩
    · rw [List.foldl_cons, hget, get?_sweepStep]
      by_cases hg : g = h
      · subst hg
        simp [hnd.1]
      · by_cases hgt : g ∈ t
        · simp [hg, hgt]
        · simp [hg, hgt]
    · rw [List.foldl_cons, horder, sweepStep_order, List.filter_filter]
      refine List.filter_congr fun g _ => ?_
      by_cases hg : g = h
      · subst hg
        simp [hnd.1]
      · simp [hg, get?_sweepStep]

theorem entries_foldl_sweepStep (hI : Indexes A O) (drop : α → Bool) (move : α → α)
    (hs : List (Handle α)) (hnd : hs.Nodup) :
    (hs.foldl (Arena.sweepStep drop move) (A, O)).1.entries
        (hs.foldl (Arena.sweepStep drop move) (A, O)).2 =
      (A.entries O).filterMap (sweptEntry hs drop move) := by
  obtain ⟨-, hget, horder⟩ := hI.foldl_sweepStep drop move hs hnd
  rw [entries, entries, horder, List.filterMap_filter, List.filterMap_filterMap]
  refine List.filterMap_congr fun g _ => ?_
  rw [hget]
  by_cases hg : g ∈ hs
  · cases A.get? g with
    | none => simp [hg]
    | some v => by_cases hd : drop v <;> simp [hg, hd, swept, sweptEntry]
  · cases A.get? g <;> simp [hg, sweptEntry]

/-- A pass that drops some values and moves others keeps the arena ordered, provided moving
    keeps the order of every two values that stay. -/
theorem OrderedBy.foldl_sweepStep (hI : OrderedBy A O start L) (drop : α → Bool) (move : α → α)
    (hs : List (Handle α))
    (hnd : hs.Nodup)
    (hmove : ∀ x ∈ L, ∀ y ∈ L, ∀ x' ∈ sweptEntry hs drop move x, ∀ y' ∈ sweptEntry hs drop move y,
      (start x'.2 ≤ start y'.2 ↔ start x.2 ≤ start y.2)) :
    OrderedBy (hs.foldl (Arena.sweepStep drop move) (A, O)).1
      (hs.foldl (Arena.sweepStep drop move) (A, O)).2 start
      (L.filterMap (sweptEntry hs drop move)) where
  toIndexes := (hI.toIndexes.foldl_sweepStep drop move hs hnd).1
  perm := by
    rw [entries_foldl_sweepStep hI.toIndexes drop move hs hnd]
    exact hI.perm.filterMap _
  sorted := by
    rw [entries_foldl_sweepStep hI.toIndexes drop move hs hnd]
    refine (List.Pairwise.and_mem.1 hI.sorted).filterMap _ ?_
    rintro x y ⟨hx, hy, hxy⟩ x' hx' y' hy'
    have hxL := hI.perm.subset hx
    have hyL := hI.perm.subset hy
    refine ⟨(hmove x hxL y hyL x' hx' y' hy').2 hxy.1, fun hyx => ?_⟩
    have hsub := (hxy.2 ((hmove y hyL x hxL y' hy' x' hx').1 hyx)).filterMap
      (sweptEntry hs drop move)
    simpa [List.filterMap_cons, hx', hy'] using hsub

/-- Two entries of `L` with one handle are one entry. -/
theorem OrderedBy.eq_of_fst_eq (hI : OrderedBy A O start L) {x y : Handle α × α} (hx : x ∈ L)
    (hy : y ∈ L) (h : x.1 = y.1) : x = y := by
  have hx' := (hI.get?_iff x.1 x.2).2 hx
  have hy' := (hI.get?_iff y.1 y.2).2 hy
  rw [h, hy'] at hx'
  exact Prod.ext h (Option.some.inj hx').symm

theorem sweptEntry_drop_all (hs : List (Handle α)) (p : Handle α × α) :
    sweptEntry hs (fun _ => true) id p = if p.1 ∈ hs then none else some p := by
  simp [sweptEntry, swept]

/-- A pass over distinct handles that drops every value it meets keeps the others in order. -/
theorem OrderedBy.foldl_drop (hI : OrderedBy A O start L) (hs : List (Handle α))
    (hnd : hs.Nodup) :
    OrderedBy (hs.foldl (sweepStep (fun _ => true) id) (A, O)).1
      (hs.foldl (sweepStep (fun _ => true) id) (A, O)).2 start (L.filter fun p => p.1 ∉ hs) := by
  have hL : L.filterMap (sweptEntry hs (fun _ => true) id) = L.filter fun p => p.1 ∉ hs := by
    rw [← List.filterMap_eq_filter]
    exact List.filterMap_congr fun p _ => by simp [sweptEntry_drop_all, Option.guard]
  rw [← hL]
  refine hI.foldl_sweepStep _ _ hs hnd fun x _ y _ x' hx' y' hy' => ?_
  rw [sweptEntry_drop_all] at hx' hy'
  split at hx' <;> split at hy' <;> simp_all

/-- The handles of the listed entries that satisfy `q` are distinct. -/
theorem Indexes.nodup_map_fst_filter (hI : Indexes A O) (q : Handle α × α → Bool) :
    (((A.entries O).filter q).map Prod.fst).Nodup := by
  refine hI.nodup.sublist ?_
  rw [← hI.map_fst_entries]
  exact List.filter_sublist.map _

/-- Removing the handles of the listed entries that satisfy `q` removes exactly the entries of
    `L` that satisfy `q`. -/
theorem OrderedBy.drop_listed (hI : OrderedBy A O start L) (q : Handle α × α → Bool) :
    OrderedBy ((((A.entries O).filter q).map Prod.fst).foldl (sweepStep (fun _ => true) id)
        (A, O)).1
      ((((A.entries O).filter q).map Prod.fst).foldl (sweepStep (fun _ => true) id) (A, O)).2
      start (L.filter fun p => !q p) := by
  have hnd := hI.toIndexes.nodup_map_fst_filter q
  have hL : (L.filter fun p => p.1 ∉ ((A.entries O).filter q).map Prod.fst) =
      L.filter fun p => !q p := by
    refine List.filter_congr fun p hp => ?_
    have hmem : p.1 ∈ ((A.entries O).filter q).map Prod.fst ↔ q p := by
      simp only [List.mem_map, List.mem_filter]
      constructor
      · rintro ⟨e, ⟨he, hq⟩, hfst⟩
        rwa [← hI.eq_of_fst_eq (hI.perm.subset he) hp hfst]
      · exact fun hq => ⟨p, ⟨hI.perm.symm.subset hp, hq⟩, rfl⟩
    by_cases hq : q p <;> simp [hmem, hq]
  rw [← hL]
  exact hI.foldl_drop _ hnd

theorem mem_map_swept {drop : α → Bool} {move : α → α} {p p' : Handle α × α} :
    p' ∈ (swept drop move p.2).map (p.1, ·) ↔ drop p.2 = false ∧ p' = (p.1, move p.2) := by
  unfold swept
  cases drop p.2 <;> simp [eq_comm]

theorem map_swept (drop : α → Bool) (move : α → α) (p : Handle α × α) :
    (swept drop move p.2).map (p.1, ·) = if drop p.2 then none else some (p.1, move p.2) := by
  unfold swept
  cases drop p.2 <;> rfl

/-- A pass over the whole order list drops or moves every value; it keeps the arena ordered
    when moving keeps the order of every two values that stay. -/
theorem OrderedBy.sweep_all (hI : OrderedBy A O start L) (drop : α → Bool) (move : α → α)
    (hmove : ∀ x ∈ L, ∀ y ∈ L, drop x.2 = false → drop y.2 = false →
      (start (move x.2) ≤ start (move y.2) ↔ start x.2 ≤ start y.2)) :
    OrderedBy (O.toList.foldl (sweepStep drop move) (A, O)).1
      (O.toList.foldl (sweepStep drop move) (A, O)).2 start
      (L.filterMap fun p => (swept drop move p.2).map (p.1, ·)) := by
  have hin : ∀ p ∈ L, p.1 ∈ O.toList := fun p hp =>
    (hI.mem_iff p.1).2 (by simp [(hI.get?_iff p.1 p.2).2 hp])
  have hL : L.filterMap (sweptEntry O.toList drop move) =
      L.filterMap fun p => (swept drop move p.2).map (p.1, ·) :=
    List.filterMap_congr fun p hp => by simp [sweptEntry, hin p hp]
  rw [← hL]
  refine hI.foldl_sweepStep drop move _ hI.nodup fun x hx y hy x' hx' y' hy' => ?_
  rw [sweptEntry, if_pos (hin x hx), mem_map_swept] at hx'
  rw [sweptEntry, if_pos (hin y hy), mem_map_swept] at hy'
  obtain ⟨hdx, rfl⟩ := hx'
  obtain ⟨hdy, rfl⟩ := hy'
  exact hmove x hx y hy hdx hdy

/-! ### What a listing promises -/

/-- What a listing of an arena promises whatever its order: it holds every live entry once and
    nothing else, and `count` counts it. -/
structure ListsLive (get? : Handle α → Option α) (count : Nat) (listing : List (Handle α × α)) :
    Prop where
  mem_iff : ∀ h v, (h, v) ∈ listing ↔ get? h = some v
  nodup : (listing.map Prod.fst).Nodup
  count_eq : count = listing.length

/-- What a listing of an arena promises in stream order: `listing` is the stable sort by start of
    `stored`, the live entries in the order they were stored; `get?` finds exactly the stored
    entries, each handle is stored once, and `count` counts them. -/
structure ListsInOrder (get? : Handle α → Option α) (count : Nat)
    (listing : List (Handle α × α)) (start : α → Int64) (stored : List (Handle α × α)) :
    Prop where
  listing_eq : listing = stored.mergeSort (byStart start)
  get?_iff : ∀ h v, get? h = some v ↔ (h, v) ∈ stored
  nodup : (stored.map Prod.fst).Nodup
  count_eq : count = stored.length

section Listing

variable {get? : Handle α → Option α} {count : Nat} {listing stored : List (Handle α × α)}

theorem ListsInOrder.listsLive (hL : ListsInOrder get? count listing start stored) :
    ListsLive get? count listing where
  mem_iff h v := by rw [hL.listing_eq, List.mem_mergeSort, hL.get?_iff]
  nodup := by
    rw [hL.listing_eq]
    exact ((List.mergeSort_perm _ _).map _).nodup_iff.2 hL.nodup
  count_eq := by rw [hL.count_eq, hL.listing_eq, List.length_mergeSort]

/-- The listing goes by start. -/
theorem ListsInOrder.sorted (hL : ListsInOrder get? count listing start stored) :
    listing.Pairwise fun x y => start x.2 ≤ start y.2 := by
  rw [hL.listing_eq]
  simpa [byStart] using List.pairwise_mergeSort (byStart_trans start) (byStart_total start) stored

/-- Entries stored in one order stay in it when their starts allow, in particular when they
    start together. -/
theorem ListsInOrder.stable (hL : ListsInOrder get? count listing start stored)
    {x y : Handle α × α} (hxy : start x.2 ≤ start y.2) (hs : [x, y].Sublist stored) :
    [x, y].Sublist listing := by
  rw [hL.listing_eq]
  exact List.pair_sublist_mergeSort (byStart_trans start) (byStart_total start)
    (by simpa [byStart] using hxy) hs

end Listing

theorem Indexes.listsLive (hI : Indexes A O) : ListsLive A.get? A.size (A.entries O) where
  mem_iff h v := by
    rw [mem_entries, hI.mem_iff]
    exact ⟨fun hv => hv.2, fun hv => ⟨by simp [hv], hv⟩⟩
  nodup := by
    rw [hI.map_fst_entries]
    exact hI.nodup
  count_eq := hI.size_eq_length

theorem OrderedBy.listsInOrder (hI : OrderedBy A O start L) :
    ListsInOrder A.get? A.size (A.entries O) start L where
  listing_eq := eq_mergeSort_of_pairwise start hI.nodup_fst.of_map hI.perm hI.sorted
  get?_iff := hI.get?_iff
  nodup := hI.nodup_fst
  count_eq := hI.length_eq

end Arena

end VerifiedRip
