import VerifiedRip.Proofs.SessionRuns
/-!
# The merge loop ends within its passes

Stage two merges every fragment into the root, pass after pass, while a pass grows the root
(`mergePasses`). A merge that grows the root removes the fragment it merged, and no edit of stage
two adds a fragment. So each growing pass takes the fragment count down, and one pass more than
there are fragments is always enough: the bound that `mergeFragments` gives the loop is never
reached while the root still grows, and any larger bound runs the same passes.

## Main statements

- `MergeStep.fragmentCount_le`: no edit of stage two adds a fragment.
- `mergeFragment_grew`: a merge that grows the root removes a fragment.
- `mergePasses_eq_of_lt`: from a cache that lists each live entry once, every bound above the
  fragment count gives the same run.
-/

namespace VerifiedRip

theorem Arena.size_sweepStep_le {α : Type} (drop : α → Bool) (move : α → α)
    (p : Arena α × Array (Handle α)) (h : Handle α) :
    (Arena.sweepStep drop move p h).1.size ≤ p.1.size := by
  unfold Arena.sweepStep
  split
  · exact Nat.le_refl _
  · split
    · rw [Arena.size_remove]
      split <;> omega
    · rw [Arena.size_modify]

theorem Arena.size_foldl_sweepStep_le {α : Type} (drop : α → Bool) (move : α → α)
    (hs : List (Handle α)) (p : Arena α × Array (Handle α)) :
    (hs.foldl (Arena.sweepStep drop move) p).1.size ≤ p.1.size := by
  induction hs generalizing p with
  | nil => exact Nat.le_refl _
  | cons h t ih => exact (ih _).trans (Arena.size_sweepStep_le drop move p h)

namespace FragmentCache

theorem fragmentCount_rebase_le (c : FragmentCache) (av : Int64) :
    (c.rebase av).1.fragmentCount ≤ c.fragmentCount := by
  rw [rebase_fst]
  exact Arena.size_foldl_sweepStep_le _ _ _ _

theorem fragmentCount_removeFragment (c : FragmentCache) (h : Handle Fragment) :
    (c.removeFragment h).1.fragmentCount =
      if (c.fragment? h).isSome then c.fragmentCount - 1 else c.fragmentCount := by
  rw [removeFragment_fst]
  unfold fragmentCount fragment? Arena.sweepStep
  cases hv : c.fragments.get? h with
  | none => rfl
  | some f =>
    simp only [if_true, Option.isSome_some]
    rw [Arena.size_remove, hv]
    rfl

/-- Removing a live fragment takes the count down; the count counts the order list, which holds
    the fragment. -/
theorem Indexed.fragmentCount_removeFragment_lt {c : FragmentCache} (hc : c.Indexed)
    {h : Handle Fragment} {f : Fragment} (hf : c.fragment? h = some f) :
    (c.removeFragment h).1.fragmentCount < c.fragmentCount := by
  have hmem : h ∈ c.fragmentOrder.toList := (hc.fragments.mem_iff h).2 (by
    rw [show c.fragments.get? h = some f from hf]
    rfl)
  have hpos : 0 < c.fragmentCount := by
    unfold fragmentCount
    rw [hc.fragments.size_eq, ← Array.length_toList]
    exact List.length_pos_of_mem hmem
  rw [fragmentCount_removeFragment, hf]
  simp only [Option.isSome_some, if_true]
  omega

end FragmentCache

namespace Session

variable {σ : Type}

theorem dropFragment_run (h : Handle Fragment) (s : Session σ) :
    (dropFragment h).run s = ((), { s with cache := (s.cache.removeFragment h).1 }) := rfl

/-- What every step does not raise, no run of steps raises. -/
theorem le_of_steps {R : Session σ → Session σ → Prop} (f : Session σ → Nat)
    (hR : ∀ a b, R a b → f b ≤ f a) {s t : Session σ} (h : Relation.ReflTransGen R s t) :
    f t ≤ f s := by
  induction h with
  | refl => exact Nat.le_refl _
  | tail _ hab ih => exact (hR _ _ hab).trans ih

theorem indexed_of_steps {s t : Session σ} (h : Relation.ReflTransGen MergeStep s t)
    (hs : s.cache.Indexed) : t.cache.Indexed := by
  induction h with
  | refl => exact hs
  | tail _ hab ih => exact hab.indexed ih

/-- No edit of stage two adds a fragment: a rebase only moves or releases them. -/
theorem MergeStep.fragmentCount_le {s t : Session σ} (h : MergeStep s t) :
    t.cache.fragmentCount ≤ s.cache.fragmentCount := by
  cases h with
  | edit h =>
    cases h
    exact Nat.le_refl _
  | dropFragment g =>
    change (s.cache.removeFragment g).1.fragmentCount ≤ _
    rw [FragmentCache.fragmentCount_removeFragment]
    split <;> omega
  | record stage v =>
    change (s.tracker.record stage v s.cache).2.1.fragmentCount ≤ _
    rcases s.tracker.record_cases stage v s.cache with ⟨-, e⟩ | ⟨av, -, e⟩
    · rw [e]
    · rw [e]
      exact s.cache.fragmentCount_rebase_le av

theorem RootEdit.fragments_eq {s t : Session σ} (h : RootEdit s t) :
    t.cache.fragments = s.cache.fragments := by
  cases h
  rfl

/-- A walk that reaches the root's end has only edited the root: every fragment is still there. -/
theorem walkFragment_fragments_of_some (h : Handle Fragment) (fbegin : Int64) (samples : Signal)
    (k : Int64) (fixes : Nat) (s : Session σ) (r : Signal)
    (hr : ((walkFragment h fbegin samples k fixes).run s).1 = some r) :
    ((walkFragment h fbegin samples k fixes).run s).2.cache.fragments = s.cache.fragments := by
  induction samples, k, fixes using walkFragment.induct (σ := σ) fbegin generalizing s with
  | case1 samples k fixes ih =>
    rw [walkFragment, run_get_bind] at hr ⊢
    revert hr
    extract_lets root k₁ k₂
    intro hr
    by_cases hend : root.endPos ≤ k₂
    · rw [if_pos hend]
      rfl
    rw [if_neg hend] at hr ⊢
    -- every other way out drops the fragment and returns nothing
    by_cases hpast : Int64.ofNat samples.size ≤ k₂ - fbegin
    · rw [if_pos hpast] at hr
      cases hr
    rw [if_neg hpast] at hr ⊢
    by_cases hfix : maxRiftFixes < fixes + 1
    · rw [dif_pos hfix] at hr
      cases hr
    rw [dif_neg hfix] at hr ⊢
    rw [run_bind] at hr ⊢
    have hrepair := eq_of_steps (fun t => t.cache.fragments) (fun _ _ h => RootEdit.fragments_eq h)
      (repairRift_moves k₂ fbegin samples s)
    split at hr
    next ok samples' hpair =>
    split at hr
    · cases hr
    · next hok =>
      rw [if_neg hok]
      exact (ih s hfix _ _ hr).trans hrepair

/-- A merge that grows the root removes the fragment it merged: the walk left it in place, and
    the merge drops it once the root holds its samples. -/
theorem mergeFragment_grew (h : Handle Fragment) (s : Session σ) (hs : s.cache.Indexed)
    (hgrew : ((mergeFragment h).run s).1 = true) :
    ((mergeFragment h).run s).2.cache.fragmentCount < s.cache.fragmentCount := by
  rw [mergeFragment, run_get_bind] at hgrew ⊢
  split at hgrew
  · cases hgrew
  next frag hfrag =>
  split at hgrew
  · rw [run_bind] at hgrew
    cases hgrew
  next hbefore =>
  rw [if_neg hbefore]
  rw [run_bind] at hgrew ⊢
  -- the alignment runs steps of stage two: the cache stays indexed and gains no fragment
  set s₁ := ((alignFragment h frag).run s).2 with hs₁
  have hsteps₁ := alignFragment_moves h frag s
  have hle₁ := le_of_steps (fun t => t.cache.fragmentCount) (fun _ _ h => h.fragmentCount_le) hsteps₁
  have hidx₁ := indexed_of_steps hsteps₁ hs
  split at hgrew
  · cases hgrew
  next align halign =>
  rw [run_get_bind] at hgrew ⊢
  split at hgrew
  · cases hgrew
  next frag' hfrag' =>
  dsimp only at hgrew ⊢
  rw [run_get_bind] at hgrew ⊢
  split at hgrew
  · rw [run_bind] at hgrew
    cases hgrew
  next hshort =>
  rw [if_neg hshort]
  rw [run_bind] at hgrew ⊢
  set fbegin := frag'.begin + Int64.ofInt align.offset
  set s₂ := ((walkFragment h fbegin frag'.samples (Int64.ofInt align.begin) 0).run s₁).2 with hs₂
  split at hgrew
  · cases hgrew
  next samples hwalk =>
  rw [run_get_bind] at hgrew ⊢
  -- the walk reached the root's end, so the fragment is still there to drop
  have hfr₂ := walkFragment_fragments_of_some _ _ _ _ _ _ _ hwalk
  have hidx₂ : s₂.cache.Indexed :=
    indexed_of_steps (walkFragment_moves h fbegin frag'.samples (Int64.ofInt align.begin) 0 _) hidx₁
  have hfrag₂ : s₂.cache.fragment? h = some frag' := by
    unfold FragmentCache.fragment?
    rw [hfr₂]
    exact hfrag'
  split at hgrew
  · next hg =>
    rw [if_pos hg, run_bind, editRoot_run, run_bind, report_run, run_bind, dropFragment_run]
    refine Nat.lt_of_lt_of_le (FragmentCache.Indexed.fragmentCount_removeFragment_lt
      (c := s₂.cache.modifyRoot _) ⟨hidx₂.blocks, hidx₂.fragments⟩ hfrag₂) ?_
    exact (Nat.le_of_eq (congrArg Arena.size hfr₂)).trans hle₁
  · next hg =>
    rw [run_bind] at hgrew
    exact absurd hgrew (by simp [hg])

/-- A pass over the handles `l` adds no fragment, and ends with the root grown only if it
    started so or it took the fragment count down. -/
theorem mergePass_grew (l : List (Handle Fragment)) (b : Bool) (s : Session σ)
    (hs : s.cache.Indexed) :
    ((forIn l b fun h r => (mergeFragment h >>= fun g => pure (ForInStep.yield (r || g)) :
        SessionM σ _)).run s).2.cache.fragmentCount ≤ s.cache.fragmentCount ∧
      (((forIn l b fun h r => (mergeFragment h >>= fun g => pure (ForInStep.yield (r || g)) :
        SessionM σ _)).run s).1 = true →
        b = true ∨ ((forIn l b fun h r => (mergeFragment h >>= fun g =>
          pure (ForInStep.yield (r || g)) : SessionM σ _)).run s).2.cache.fragmentCount <
            s.cache.fragmentCount) := by
  induction l generalizing b s with
  | nil => exact ⟨Nat.le_refl _, fun h => .inl h⟩
  | cons h l ih =>
    rw [List.forIn_cons, run_bind, run_bind]
    have hsteps := mergeFragment_moves h s
    have hle := le_of_steps (fun t => t.cache.fragmentCount) (fun _ _ h => h.fragmentCount_le) hsteps
    obtain ⟨ih1, ih2⟩ := ih (b || ((mergeFragment h).run s).1) _ (indexed_of_steps hsteps hs)
    refine ⟨ih1.trans hle, fun hr => ?_⟩
    rcases ih2 hr with hb | hlt
    · cases b
      · exact .inr (Nat.lt_of_le_of_lt ih1 (mergeFragment_grew h s hs (by simpa using hb)))
      · exact .inl rfl
    · exact .inr (Nat.lt_of_lt_of_le hlt hle)

/-- One more pass than the fragment count allows changes nothing: a pass that grows the root
    leaves fewer fragments than passes. -/
theorem mergePasses_succ_of_lt (n : Nat) (s : Session σ) (hs : s.cache.Indexed)
    (hn : s.cache.fragmentCount < n) : (mergePasses (n + 1)).run s = (mergePasses n).run s := by
  induction n generalizing s with
  | zero => omega
  | succ n ih =>
    rw [mergePasses.eq_2, mergePasses.eq_2, run_get_bind, run_get_bind]
    dsimp only
    rw [run_bind, run_bind, ← Array.forIn_toList]
    obtain ⟨-, hgrew⟩ := mergePass_grew s.cache.fragmentOrder.toList false s hs
    split
    · next hg =>
      have hlt := (hgrew hg).resolve_left Bool.false_ne_true
      have hsteps := Moves.forIn s.cache.fragmentOrder.toList false
        (fun h r => (mergeFragment_moves h).bind fun g => Moves.pure (ForInStep.yield (r || g))) s
      exact ih _ (indexed_of_steps hsteps hs) (by omega)
    · rfl

/-- The merge loop ends within its passes: from a cache that lists each live entry once, every
    bound above the fragment count runs the same passes. -/
theorem mergePasses_eq_of_lt (s : Session σ) (hs : s.cache.Indexed) {n m : Nat}
    (hn : s.cache.fragmentCount < n) (hm : n ≤ m) : (mergePasses m).run s = (mergePasses n).run s := by
  induction hm with
  | refl => rfl
  | step hle ih => rw [mergePasses_succ_of_lt _ s hs (Nat.lt_of_lt_of_le hn hle), ih]

end Session

end VerifiedRip
