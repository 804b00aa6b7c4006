import VerifiedRip.Match.Runs
/-!
# Joined ranges

Verification marks what the in-place runs of a fresh block already cover by joining their index
ranges with `mergeRanges`: the ranges are sorted, and each one in turn either extends the last
range joined, if it starts at or before that range's end, or follows it (`joinRange`). A range
`(start, stop)` stands for the indices `[start, stop)` (`Runs.Covers`).

The joined ranges are kept last first while they are built. What carries the fold is that they
come in order, each ending before the next starts, and that none starts after the range joined
next (`Runs.JoinedBelow`); sorting supplies the second half.

## Main statements

* `Runs.joinRange_covers`: joining a range that starts no earlier than any joined so far adds
  exactly its indices.
* `Runs.foldl_joinRange`: joining sorted ranges one by one keeps the joined ranges in order and
  covers exactly the indices of all of them.
* `Runs.mergeRanges_joins`: the joined ranges are sorted by start, each ends before the next
  starts, they cover exactly the indices the given ranges cover, and none ends before it starts
  unless a given range does.
-/

namespace VerifiedRip

namespace Runs

/-- Index `x` lies in one of the ranges `[start, stop)`. -/
def Covers (rs : List (Nat × Nat)) (x : Nat) : Prop := ∃ r ∈ rs, r.1 ≤ x ∧ x < r.2

/-- Range `p` starts no later than `q` and ends before `q` starts. -/
def Precedes (p q : Nat × Nat) : Prop := p.1 ≤ q.1 ∧ p.2 < q.1

section Covers

variable {rs rs' : List (Nat × Nat)} {x : Nat}

@[simp] theorem covers_nil : ¬ Covers [] x := by simp [Covers]

@[simp] theorem covers_cons {r : Nat × Nat} :
    Covers (r :: rs) x ↔ (r.1 ≤ x ∧ x < r.2) ∨ Covers rs x := by
  simp [Covers]

@[simp] theorem covers_reverse : Covers rs.reverse x ↔ Covers rs x := by simp [Covers]

theorem covers_of_perm (h : rs.Perm rs') : Covers rs x ↔ Covers rs' x :=
  exists_congr fun _ => and_congr_left fun _ => h.mem_iff

end Covers

/-! ### The sort order -/

theorem rangeLE_trans (p q r : Nat × Nat) (hpq : rangeLE p q = true) (hqr : rangeLE q r = true) :
    rangeLE p r = true := by
  simp only [rangeLE, Bool.or_eq_true, decide_eq_true_eq, Bool.and_eq_true, beq_iff_eq] at *
  omega

theorem rangeLE_total (p q : Nat × Nat) : (rangeLE p q || rangeLE q p) = true := by
  simp only [rangeLE, Bool.or_eq_true, decide_eq_true_eq, Bool.and_eq_true, beq_iff_eq]
  omega

theorem start_le_of_rangeLE {p q : Nat × Nat} (h : rangeLE p q = true) : p.1 ≤ q.1 := by
  simp only [rangeLE, Bool.or_eq_true, decide_eq_true_eq, Bool.and_eq_true, beq_iff_eq] at h
  omega

theorem mergeSort_rangeLE_sorted (ranges : List (Nat × Nat)) :
    (ranges.mergeSort rangeLE).Pairwise (fun p q => p.1 ≤ q.1) :=
  (List.pairwise_mergeSort rangeLE_trans rangeLE_total ranges).imp start_le_of_rangeLE

/-! ### One range joined -/

/-- The ranges joined so far, kept last first, come in order, and none starts after `s`. -/
structure JoinedBelow (acc : List (Nat × Nat)) (s : Nat) : Prop where
  ordered : acc.Pairwise (fun q p => Precedes p q)
  starts_le : ∀ p ∈ acc, p.1 ≤ s

theorem JoinedBelow.nil (s : Nat) : JoinedBelow [] s := ⟨List.Pairwise.nil, by simp⟩

theorem JoinedBelow.mono {acc : List (Nat × Nat)} {s s' : Nat} (h : JoinedBelow acc s)
    (hs : s ≤ s') : JoinedBelow acc s' :=
  ⟨h.ordered, fun p hp => Nat.le_trans (h.starts_le p hp) hs⟩

section Join

variable {acc : List (Nat × Nat)} {r : Nat × Nat}

/-- Joining `r` keeps the ranges in order, and none starts after `r` does. -/
theorem JoinedBelow.join (h : JoinedBelow acc r.1) : JoinedBelow (joinRange acc r) r.1 := by
  rcases acc with _ | ⟨⟨s, e⟩, rest⟩
  · exact ⟨List.pairwise_singleton _ r, by simp [joinRange]⟩
  have hs : s ≤ r.1 := h.starts_le (s, e) List.mem_cons_self
  obtain ⟨hlast, hrest⟩ := List.pairwise_cons.mp h.ordered
  by_cases hover : r.1 ≤ e
  · -- `r` extends the last range, whose start is all that the order looks at
    simp only [joinRange, if_pos hover]
    refine ⟨List.pairwise_cons.mpr ⟨fun p hp => hlast p hp, hrest⟩, ?_⟩
    intro p hp
    rcases List.mem_cons.mp hp with rfl | hp
    · exact hs
    · exact h.starts_le p (List.mem_cons_of_mem _ hp)
  · -- `r` follows the last range, and every earlier range ended before that one started
    simp only [joinRange, if_neg hover]
    refine ⟨List.pairwise_cons.mpr ⟨fun p hp => ?_, h.ordered⟩, ?_⟩
    · refine ⟨h.starts_le p hp, ?_⟩
      rcases List.mem_cons.mp hp with rfl | hp
      · exact Nat.lt_of_not_le hover
      · exact Nat.lt_of_lt_of_le (hlast p hp).2 hs
    · intro p hp
      rcases List.mem_cons.mp hp with rfl | hp
      · exact Nat.le_refl _
      · exact h.starts_le p hp

/-- Joining a range that starts no earlier than any joined so far adds exactly its indices. -/
theorem joinRange_covers (h : ∀ p ∈ acc, p.1 ≤ r.1) (x : Nat) :
    Covers (joinRange acc r) x ↔ Covers acc x ∨ (r.1 ≤ x ∧ x < r.2) := by
  rcases acc with _ | ⟨⟨s, e⟩, rest⟩
  · simp [joinRange]
  have hs : s ≤ r.1 := h (s, e) List.mem_cons_self
  by_cases hover : r.1 ≤ e
  · -- the extended range `[s, max e r.2)` is `[s, e)` and `[r.1, r.2)` together
    simp only [joinRange, if_pos hover]
    have hjoin : (s ≤ x ∧ x < max e r.2) ↔ (s ≤ x ∧ x < e) ∨ (r.1 ≤ x ∧ x < r.2) := by omega
    simp only [covers_cons, hjoin]
    exact or_right_comm
  · simp only [joinRange, if_neg hover, covers_cons]
    exact or_comm

/-- Joining keeps every range from ending before it starts. -/
theorem joinRange_wellFormed (hacc : ∀ p ∈ acc, p.1 ≤ p.2) (hr : r.1 ≤ r.2) :
    ∀ p ∈ joinRange acc r, p.1 ≤ p.2 := by
  rcases acc with _ | ⟨⟨s, e⟩, rest⟩
  · simpa [joinRange] using hr
  have hse : s ≤ e := hacc (s, e) List.mem_cons_self
  by_cases hover : r.1 ≤ e
  · simp only [joinRange, if_pos hover]
    intro p hp
    rcases List.mem_cons.mp hp with rfl | hp
    · exact Nat.le_trans hse (Nat.le_max_left e r.2)
    · exact hacc p (List.mem_cons_of_mem _ hp)
  · simp only [joinRange, if_neg hover]
    intro p hp
    rcases List.mem_cons.mp hp with rfl | hp
    · exact hr
    · exact hacc p hp

end Join

/-! ### Joining sorted ranges -/

/-- Joining ranges sorted by start, none starting before `s`, onto ranges joined in order below
    `s` keeps them in order and covers exactly the indices of both. -/
theorem foldl_joinRange {rs acc : List (Nat × Nat)} {s : Nat}
    (hrs : rs.Pairwise (fun p q => p.1 ≤ q.1)) (hacc : JoinedBelow acc s)
    (hs : ∀ r ∈ rs, s ≤ r.1) :
    (rs.foldl joinRange acc).Pairwise (fun q p => Precedes p q) ∧
      ∀ x, Covers (rs.foldl joinRange acc) x ↔ Covers acc x ∨ Covers rs x := by
  induction rs generalizing acc s with
  | nil => exact ⟨hacc.ordered, fun x => by simp⟩
  | cons r rs ih =>
    obtain ⟨hr, hrs'⟩ := List.pairwise_cons.mp hrs
    have hbelow := hacc.mono (hs r List.mem_cons_self)
    obtain ⟨hord, hcov⟩ := ih hrs' hbelow.join hr
    refine ⟨hord, fun x => ?_⟩
    rw [List.foldl_cons, hcov, joinRange_covers hbelow.starts_le x, covers_cons]
    exact or_assoc

theorem foldl_joinRange_wellFormed {rs acc : List (Nat × Nat)} (hrs : ∀ r ∈ rs, r.1 ≤ r.2)
    (hacc : ∀ p ∈ acc, p.1 ≤ p.2) : ∀ p ∈ rs.foldl joinRange acc, p.1 ≤ p.2 := by
  induction rs generalizing acc with
  | nil => exact hacc
  | cons r rs ih =>
    rw [List.foldl_cons]
    exact ih (fun r' hr' => hrs r' (List.mem_cons_of_mem _ hr'))
      (joinRange_wellFormed hacc (hrs r List.mem_cons_self))

/-- The ranges `mergeRanges` returns are sorted by start, and each ends before the next starts,
    so that overlapping or touching ranges have been joined; together they cover exactly the
    indices that the given ranges cover; and none of them ends before it starts, unless one of
    the given ranges does. -/
theorem mergeRanges_joins (ranges : List (Nat × Nat)) :
    (mergeRanges ranges).Pairwise (fun p q => p.1 ≤ q.1 ∧ p.2 < q.1) ∧
      (∀ x, Covers (mergeRanges ranges) x ↔ Covers ranges x) ∧
      ((∀ r ∈ ranges, r.1 ≤ r.2) → ∀ r ∈ mergeRanges ranges, r.1 ≤ r.2) := by
  have hperm := List.mergeSort_perm ranges rangeLE
  obtain ⟨hord, hcov⟩ :=
    foldl_joinRange (mergeSort_rangeLE_sorted ranges) (JoinedBelow.nil 0) fun r _ => Nat.zero_le r.1
  refine ⟨List.pairwise_reverse.mpr hord, fun x => ?_, fun hwf => ?_⟩
  · rw [mergeRanges, covers_reverse, hcov, covers_of_perm hperm]
    simp
  · intro r hr
    rw [mergeRanges, List.mem_reverse] at hr
    exact foldl_joinRange_wellFormed (fun r' hr' => hwf r' (hperm.mem_iff.mp hr'))
      (by simp) r hr

example : mergeRanges [(200, 300), (0, 64), (64, 130), (10, 20)] = [(0, 130), (200, 300)] := by
  cbv

end Runs

end VerifiedRip
