import Mathlib
import VerifiedRip.Match.ValueIndex
/-!
# Chains of the value index

A `ValueIndex` keeps the positions of each sample value as a chain through `links`, entered at
`heads`. `ValueIndex.ChainsTo ix c ps` reads such a chain as a list: following the links from
the word `c` visits the positions `ps`, in order, and then the end marker. Every chain runs
strictly downward, and a walk over a chain lists the members of its range, in chain order.

`ValueIndex.build` pushes the positions of a signal one after another. While no position is
as large as the end marker, every push keeps the chains intact: the chain of each bucket
visits, highest first, exactly the positions pushed so far whose sample falls in that bucket
(`ValueIndex.Indexes`).

## Main statements

* `ValueIndex.walk_eq_filter`: a walk lists the members of a chain that lie in its range.
* `ValueIndex.indexes_build`: the built index indexes the whole signal.
* `ValueIndex.build_lists_positions_descending`: `candidates x lo hi` of a signal shorter than
  `2 ^ 32 - 1` lists exactly the positions in `[lo, hi)` holding `x`, each once, in strictly
  decreasing order, and the index counts every sample.
-/

namespace VerifiedRip

namespace ValueIndex

/-- Following the links of `ix` from the word `c` visits the positions `ps`, in order, and then
    the end marker. -/
inductive ChainsTo (ix : ValueIndex) : UInt32 → List Nat → Prop
  | stop : ChainsTo ix chainEnd []
  | link {c : UInt32} {ps : List Nat} (he : c ≠ chainEnd) (hp : c.toNat < ix.links.size) :
      ChainsTo ix ix.links[c.toNat] ps → ChainsTo ix c (c.toNat :: ps)

variable {ix : ValueIndex} {c : UInt32} {ps : List Nat}

/-- A chain from a word that reads as position `p` starts at `p`. -/
theorem ChainsTo.cons_of_toNat {p : Nat} (hcp : c.toNat = p) (he : c ≠ chainEnd)
    (hp : p < ix.links.size) (h : ix.ChainsTo ix.links[p] ps) : ix.ChainsTo c (p :: ps) := by
  subst hcp
  exact ChainsTo.link he hp h

/-- Every position of a chain lies below the measure of its first word. -/
theorem ChainsTo.lt_chainMeasure (h : ix.ChainsTo c ps) : ∀ q ∈ ps, q < chainMeasure c := by
  induction h with
  | stop => simp
  | @link c ps he hp _ ih =>
    intro q hq
    have hlink : chainMeasure ix.links[c.toNat] ≤ c.toNat := by
      unfold chainMeasure
      rcases ix.link_lt c.toNat hp with h | h
      · rw [if_pos h]; omega
      · split <;> omega
    rw [chainMeasure, if_neg he]
    rcases List.mem_cons.mp hq with rfl | hq
    · omega
    · exact Nat.lt_of_lt_of_le (ih q hq) (Nat.le_succ_of_le hlink)

/-- A chain runs strictly downward. -/
theorem ChainsTo.pairwise (h : ix.ChainsTo c ps) : ps.Pairwise (· > ·) := by
  induction h with
  | stop => exact List.Pairwise.nil
  | @link c ps he hp htail ih =>
    refine List.Pairwise.cons (fun q hq => ?_) ih
    -- the rest of the chain starts at the link below `c`, which lies below `c`
    have hq' := htail.lt_chainMeasure q hq
    unfold chainMeasure at hq'
    rcases ix.link_lt c.toNat hp with hl | hl
    · rw [if_pos hl] at hq'; omega
    · split at hq' <;> omega

/-- A walk over a chain lists the members of the chain that lie in `[lo, hi)`, in chain
    order. Stopping at the first member below `lo` loses nothing, as the chain runs downward. -/
theorem walk_eq_filter (lo hi : Nat) (h : ix.ChainsTo c ps)
    (hc : c = chainEnd ∨ c.toNat < ix.links.size) :
    ix.walk lo hi c hc = ps.filter fun p => lo ≤ p ∧ p < hi := by
  induction h with
  | stop => rw [walk, dif_pos rfl, List.filter_nil]
  | @link c ps he hp htail ih =>
    rw [walk, dif_neg he]
    by_cases hlo : c.toNat < lo
    · -- every later member lies below `c`, hence below `lo`
      rw [if_pos hlo, eq_comm, List.filter_eq_nil_iff]
      have hbelow := (ChainsTo.link he hp htail).pairwise
      rw [List.pairwise_cons] at hbelow
      intro q hq
      rcases List.mem_cons.mp hq with rfl | hq
      · simp only [decide_eq_true_eq]; omega
      · have := hbelow.1 q hq
        simp only [decide_eq_true_eq]; omega
    · rw [if_neg hlo]
      dsimp only
      rw [ih (ix.link_valid hp), List.filter_cons]
      by_cases hhi : c.toNat < hi
      · rw [if_pos hhi, if_pos (by simp only [decide_eq_true_eq]; omega)]
      · rw [if_neg hhi, if_neg (by simp only [decide_eq_true_eq]; omega)]

/-! ### Pushing a position -/

section Push

variable {s : Int16}

@[simp] theorem push_links_size : (ix.push s).links.size = ix.links.size + 1 :=
  Array.size_push ..

theorem push_links_of_lt {p : Nat} (hp : p < ix.links.size) (hp' : p < (ix.push s).links.size) :
    (ix.push s).links[p] = ix.links[p] :=
  Array.getElem_push_lt hp

theorem push_links_last {p : Nat} (hpn : p = ix.links.size) (hp : p < (ix.push s).links.size)
    (hb : bucketOf s < ix.heads.size) : (ix.push s).links[p] = ix.heads[bucketOf s] := by
  subst hpn
  exact Array.getElem_push_eq

theorem push_heads (b : Nat) (hb : b < (ix.push s).heads.size) (hb' : b < ix.heads.size) :
    (ix.push s).heads[b] = if bucketOf s = b then UInt32.ofNat ix.links.size else ix.heads[b] :=
  Array.getElem_set (ix.heads_size ▸ bucketOf_lt s) hb

/-- Pushing a position keeps every chain: it only adds a link past the old positions. -/
theorem ChainsTo.push (h : ix.ChainsTo c ps) : (ix.push s).ChainsTo c ps := by
  induction h with
  | stop => exact ChainsTo.stop
  | @link c ps he hp _ ih =>
    refine ChainsTo.link he (by simp; omega) ?_
    rw [push_links_of_lt hp]
    exact ih

end Push

/-! ### The built index -/

/-- `ix` indexes the first `n` samples of `v`: it holds `n` positions, and the chain of each
    bucket visits, highest first, exactly the positions below `n` whose sample falls in it. -/
structure Indexes (ix : ValueIndex) (v : Signal) (n : Nat) : Prop where
  size_eq : ix.links.size = n
  chains : ∀ b (hb : b < ix.heads.size), ∃ ps, ix.ChainsTo ix.heads[b] ps ∧
    ∀ p, p ∈ ps ↔ p < n ∧ ∃ x, v[p]? = some x ∧ bucketOf x = b

theorem indexes_empty (v : Signal) : empty.Indexes v 0 where
  size_eq := rfl
  chains b hb := by
    have hhead : empty.heads[b] = chainEnd := Array.getElem_replicate hb
    refine ⟨[], ?_, by simp⟩
    rw [hhead]
    exact ChainsTo.stop

/-- The positions below `n + 1` whose sample falls in bucket `b`: `n` if its sample does, and
    those below `n` that do. -/
theorem mem_bucket_succ {v : Signal} {n : Nat} (hn : n < v.size) {b p : Nat} :
    (p < n + 1 ∧ ∃ x, v[p]? = some x ∧ bucketOf x = b) ↔
      (p = n ∧ bucketOf v[n] = b) ∨ (p < n ∧ ∃ x, v[p]? = some x ∧ bucketOf x = b) := by
  constructor
  · rintro ⟨hp, x, hx, hb⟩
    rcases Nat.lt_succ_iff_lt_or_eq.mp hp with hp | rfl
    · exact Or.inr ⟨hp, x, hx, hb⟩
    · rw [Array.getElem?_eq_getElem hn, Option.some.injEq] at hx
      exact Or.inl ⟨rfl, hx ▸ hb⟩
  · rintro (⟨rfl, hb⟩ | ⟨hp, hx⟩)
    · exact ⟨by omega, v[p], by simp [hn], hb⟩
    · exact ⟨by omega, hx⟩

/-- Pushing the sample at position `n` indexes one sample more, while `n` is no end marker. -/
theorem Indexes.push {v : Signal} {n : Nat} (h : ix.Indexes v n) (hn : n < v.size)
    (hend : n < 2 ^ 32 - 1) : (ix.push v[n]).Indexes v (n + 1) := by
  have hword : (UInt32.ofNat n).toNat = n := UInt32.toNat_ofNat_of_lt' (by
    simp only [UInt32.size]; omega)
  refine ⟨by simp [h.size_eq], fun b hb => ?_⟩
  have hb0 : b < ix.heads.size := by simpa [ValueIndex.push] using hb
  obtain ⟨ps, hchain, hmem⟩ := h.chains b hb0
  rw [push_heads b hb hb0]
  split
  · -- `n` heads the chain of its own bucket, linked to the old head
    rename_i hbuck
    subst hbuck
    refine ⟨n :: ps, ?_, fun p => ?_⟩
    · have hne : UInt32.ofNat n ≠ chainEnd := by
        intro heq
        have := congrArg UInt32.toNat heq
        rw [hword] at this
        simp [chainEnd] at this
        omega
      have hn' : n < (ix.push v[n]).links.size := by simp [h.size_eq]
      rw [h.size_eq]
      apply ChainsTo.cons_of_toNat hword hne hn'
      rw [push_links_last h.size_eq.symm hn' hb0]
      exact hchain.push
    · rw [List.mem_cons, hmem, mem_bucket_succ hn]
      simp
  · -- other buckets keep their chains; the new sample is not theirs
    rename_i hbuck
    refine ⟨ps, hchain.push, fun p => ?_⟩
    rw [hmem, mem_bucket_succ hn]
    simp [hbuck]

/-- The built index of a signal shorter than the end marker indexes all of it. -/
theorem indexes_build {v : Signal} (hv : v.size < 2 ^ 32 - 1) :
    (build v).Indexes v v.size := by
  unfold build
  apply Array.foldl_induction (fun n (ix : ValueIndex) => ix.Indexes v n) (indexes_empty v)
  intro i ix h
  exact h.push i.isLt (by omega)

/-- Every push adds one position. -/
theorem len_build (v : Signal) : (build v).len = v.size := by
  unfold build len
  apply Array.foldl_induction (fun n (ix : ValueIndex) => ix.links.size = n) rfl
  intro i ix h
  rw [push_links_size, h]

/-- A walk lists only positions of its range, whatever the links. -/
theorem mem_walk {lo hi p : Nat} (hc : c = chainEnd ∨ c.toNat < ix.links.size)
    (hp : p ∈ ix.walk lo hi c hc) : lo ≤ p ∧ p < hi := by
  induction c, hc using walk.induct ix lo hi with
  | case1 hc => rw [walk, dif_pos rfl] at hp; cases hp
  | case2 c hc he hlo => rw [walk, dif_neg he, if_pos hlo] at hp; cases hp
  | case3 c hc he hlo hidx hhi ih =>
    rw [walk, dif_neg he, if_neg hlo] at hp
    dsimp only at hp
    rw [if_pos hhi] at hp
    rcases List.mem_cons.mp hp with rfl | hp
    · exact ⟨by omega, hhi⟩
    · exact ih hp
  | case4 c hc he hlo hidx hhi ih =>
    rw [walk, dif_neg he, if_neg hlo] at hp
    dsimp only at hp
    rw [if_neg hhi] at hp
    exact ih hp

/-- The candidates of a value lie in the range asked for. -/
theorem mem_candidates {x : Int16} {lo hi p : Nat} (hp : p ∈ ix.candidates x lo hi) :
    lo ≤ p ∧ p < hi :=
  mem_walk _ hp

section Built

variable {v : Signal} (hv : v.size < 2 ^ 32 - 1) (x : Int16) (lo hi : Nat)
include hv

/-- The candidates of the built index are read off the chain of the value's bucket. -/
theorem candidates_build_eq_filter : ∃ ps : List Nat, (∀ p, p ∈ ps ↔ p < v.size ∧ v[p]? = some x) ∧
    ps.Pairwise (· > ·) ∧ (build v).candidates x lo hi = ps.filter fun p => lo ≤ p ∧ p < hi := by
  have hix := indexes_build hv
  have hb : bucketOf x < (build v).heads.size := (build v).heads_size ▸ bucketOf_lt x
  obtain ⟨ps, hchain, hmem⟩ := hix.chains (bucketOf x) hb
  refine ⟨ps, fun p => ?_, hchain.pairwise, walk_eq_filter lo hi hchain _⟩
  rw [hmem]
  constructor
  · rintro ⟨hp, y, hy, hby⟩
    exact ⟨hp, bucketOf_inj hby ▸ hy⟩
  · rintro ⟨hp, hx⟩
    exact ⟨hp, x, hx, rfl⟩

/-- The candidates of the built index are the positions in range holding the value. -/
theorem mem_candidates_build {p : Nat} :
    p ∈ (build v).candidates x lo hi ↔ lo ≤ p ∧ p < hi ∧ v[p]? = some x := by
  obtain ⟨ps, hmem, -, hcand⟩ := candidates_build_eq_filter hv x lo hi
  rw [hcand, List.mem_filter, hmem, decide_eq_true_eq]
  constructor
  · rintro ⟨⟨-, hx⟩, hlo, hhi⟩
    exact ⟨hlo, hhi, hx⟩
  · rintro ⟨hlo, hhi, hx⟩
    exact ⟨⟨(Array.getElem?_eq_some_iff.mp hx).1, hx⟩, hlo, hhi⟩

/-- The candidates of the built index come highest first. -/
theorem candidates_build_pairwise : ((build v).candidates x lo hi).Pairwise (· > ·) := by
  obtain ⟨ps, -, hpair, hcand⟩ := candidates_build_eq_filter hv x lo hi
  rw [hcand]
  exact hpair.filter _

end Built

/-- `candidates x lo hi` of a signal shorter than `2 ^ 32 - 1` lists exactly the positions in
    `[lo, hi)` holding `x`, each once, in strictly decreasing order; the index counts every
    sample. -/
theorem build_lists_positions_descending (v : Signal) (hv : v.size < 2 ^ 32 - 1)
    (x : Int16) (lo hi : Nat) :
    (∀ p, p ∈ (build v).candidates x lo hi ↔ lo ≤ p ∧ p < hi ∧ v[p]? = some x) ∧
      ((build v).candidates x lo hi).Pairwise (· > ·) ∧ (build v).len = v.size :=
  ⟨fun _ => mem_candidates_build hv x lo hi, candidates_build_pairwise hv x lo hi, len_build v⟩

/-- The index of the samples `100, 200, 100, 300, 100`: its candidates for `100` are exactly
    its positions holding `100`, highest first. -/
theorem build_lists_positions_descending_fiveSamples :
    (#[100, 200, 100, 300, 100] : Signal).size < 2 ^ 32 - 1 ∧
      ((∀ p, p ∈ (build #[100, 200, 100, 300, 100]).candidates 100 0 5 ↔
          0 ≤ p ∧ p < 5 ∧ (#[100, 200, 100, 300, 100] : Signal)[p]? = some 100) ∧
        ((build #[100, 200, 100, 300, 100]).candidates 100 0 5).Pairwise (· > ·) ∧
        (build #[100, 200, 100, 300, 100]).len = (#[100, 200, 100, 300, 100] : Signal).size) :=
  ⟨by decide, build_lists_positions_descending _ (by decide) 100 0 5⟩

end ValueIndex

end VerifiedRip
