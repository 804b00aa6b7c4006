import VerifiedRip.Match.Alignment
import VerifiedRip.Proofs.RootFrame
/-!
# What a root alignment promises

`findRootAlignment root frag width` returns a window of `minWordsOverlap` samples on which the
fragment, displaced by an offset, agrees with the verified part of the root. This module shows
what such a window is, wherever no position wraps around (`Alignment.Scene.wrapFree`) and the
root's skipped span, if any, is in order:

* it is sound (`Alignment.Sound`): the offset is within the width, the window starts in the
  root and ends in its verified part, the fragment holds it too, the two hold the same samples
  there, and it stays clear of a skipped span that reaches the root's end;
* it is preferred (`Alignment.Preferred`): a head window only where no head window nearer to
  zero agrees, a tail window only where no head window within the width agrees;
* no window that the search could try leaves the root's samples.

The verified part of the root stops short of a skipped span only while that span reaches the
root's end. Once samples have been appended after it, the silence inside it counts as verified,
and a silent fragment lines up there (`Alignment.findRootAlignment_inside_skipped`).

## Main statements

* `Alignment.findRootAlignment_eq_earliest`: the search is the earliest agreeing head candidate,
  else the earliest agreeing tail candidate.
* `Alignment.findRootAlignment_sound_preferred`: every alignment found is sound and preferred,
  and no probe leaves the root.
-/

namespace VerifiedRip

namespace Signal

/-- Windows that agree hold the same samples. -/
theorem extract_eq_of_agreesFor {a b : Signal} {i j n : Nat} (h : agreesFor a b i j n = true) :
    a.extract i (i + n) = b.extract j (j + n) := by
  have hag := agreesFor_iff.mp h
  apply Array.ext_getElem?
  intro m
  simp only [Array.getElem?_extract]
  by_cases hm : m < n
  · obtain ⟨x, hx, hy⟩ := hag m hm
    have hi : i + m < a.size := (Array.getElem?_eq_some_iff.mp hx).1
    have hj : j + m < b.size := (Array.getElem?_eq_some_iff.mp hy).1
    rw [if_pos (by omega), if_pos (by omega), hx, hy]
  · rw [if_neg (by omega), if_neg (by omega)]

end Signal

namespace Root

variable {r : Root}

/-- A root whose start and size are small ends at their sum. -/
theorem toInt_endPos_of_small (hb : r.begin.toInt.natAbs < 2 ^ 59) (hs : r.size < 2 ^ 59) :
    r.endPos.toInt = r.begin.toInt + r.size := by
  have hn : (Int64.ofNat r.size).toInt = r.size := Int64.toInt_ofNat_of_lt _ (by omega)
  unfold endPos
  rw [Int64.toInt_add_of_range _ _ (by omega) (by omega), hn]

/-- A skipped span that reaches the end ends the verified part at its start. -/
theorem verifiedEnd_of_trailing {s e : Int64} (h : r.skipped = some (s, e)) (he : e = r.endPos) :
    r.verifiedEnd = s := by
  simp [verifiedEnd, h, he]

/-- With its skipped span in order, the verified part ends inside the root. -/
theorem verifiedEnd_le_endPos (hskip : ∀ s e, r.skipped = some (s, e) → s ≤ e) :
    r.verifiedEnd ≤ r.endPos := by
  unfold verifiedEnd
  split
  · rename_i s e h
    split
    · rename_i he
      exact he ▸ hskip s e h
    · exact Int64.le_refl _
  · exact Int64.le_refl _

end Root

namespace Alignment

/-- A scene is free of wrapping when its positions, its sizes and the width are all below `2⁵⁹`
    in size. -/
theorem Scene.wrapFree_iff {sc : Scene} {width : Int} :
    sc.wrapFree width = true ↔
      sc.rootBegin.natAbs < 2 ^ 59 ∧ sc.verifiedEnd.natAbs < 2 ^ 59 ∧
        sc.fragBegin.natAbs < 2 ^ 59 ∧ sc.root.size < 2 ^ 59 ∧ sc.frag.size < 2 ^ 59 ∧
          width.natAbs < 2 ^ 59 := by
  simp [Scene.wrapFree, and_assoc]

/-- The positions `hits` lists lie in its range. -/
theorem mem_hits {s : Signal} {v : Int16} {lo hi : Int} {x : Nat} (h : x ∈ hits s v lo hi) :
    lo ≤ x ∧ (x : Int) ≤ hi := by
  unfold hits at h
  split at h
  · have hx := Signal.mem_positionsOf.mp h
    omega
  · simp at h

/-- Every head candidate lies within the reach. -/
theorem headCandidates_within {sc : Scene} {reach d : Int} (h : d ∈ headCandidates sc reach) :
    d.natAbs ≤ reach := by
  unfold headCandidates at h
  simp only [List.mem_append, List.mem_map] at h
  rcases h with ⟨x, hx, rfl⟩ | ⟨x, hx, rfl⟩
  · have hb := mem_hits hx
    omega
  · have hb := mem_hits hx
    omega

/-- Every tail candidate lies within the reach. -/
theorem tailCandidates_within {sc : Scene} {reach d : Int} (h : d ∈ tailCandidates sc reach) :
    d.natAbs ≤ reach := by
  unfold tailCandidates at h
  simp only [List.mem_map] at h
  obtain ⟨x, hx, rfl⟩ := h
  have hb := mem_hits hx
  omega

/-- In a scene whose verified part lies inside the root and holds a window, no probe leaves the
    root's samples. -/
theorem probe_ne_overrun {sc : Scene} (hin : sc.verifiedEnd ≤ sc.rootBegin + sc.root.size)
    (hwin : sc.rootBegin + minWordsOverlap ≤ sc.verifiedEnd) (tail : Bool) (d : Int) :
    probe sc tail d ≠ .overrun := by
  have hb : sc.rootBegin ≤ windowBegin sc tail d := by
    cases tail <;> simp only [windowBegin, Bool.false_eq_true, if_true, if_false] <;> omega
  unfold probe
  generalize windowBegin sc tail d = B at hb ⊢
  dsimp only
  split
  · exact AlignmentSearch.noConfusion
  · rename_i hfit
    simp only [not_or, not_lt] at hfit
    rw [if_neg (by omega)]
    split <;> exact AlignmentSearch.noConfusion

/-- An alignment that `earliest` returns is at the offset nearest to zero where the probe finds
    one, among the offsets within `reach`, given that every such offset is listed. -/
theorem earliest_nearest {p : Int → AlignmentSearch} {ds : List Int} {reach : Int} {a : Alignment}
    (h : earliest p ds = .found a) (hoff : ∀ d b, p d = .found b → b.offset = d)
    (hall : ∀ d b, (d.natAbs : Int) ≤ reach → p d = .found b → d ∈ ds)
    (ha : (a.offset.natAbs : Int) ≤ reach) :
    ∀ d : Int, d.natAbs < a.offset.natAbs → ∀ b, p d ≠ .found b := by
  intro d hd b hb
  have hfirst := earliest_first h (hall d b (by omega) hb) hb
  rw [hoff d b hb] at hfirst
  simp only [before, Bool.or_eq_false_iff, decide_eq_false_iff_not] at hfirst
  omega

/-- A probe's alignment is at the probed offset. -/
theorem probe_offset {sc : Scene} {tail : Bool} (d : Int) (b : Alignment)
    (h : probe sc tail d = .found b) : b.offset = d :=
  (probe_eq_found h).1

/-- An alignment that `earliest` returns over probes is found by the probe at its own offset,
    which is listed. -/
theorem earliest_probe {sc : Scene} {tail : Bool} {ds : List Int} {a : Alignment}
    (h : earliest (probe sc tail) ds = .found a) :
    a.offset ∈ ds ∧ probe sc tail a.offset = .found a := by
  obtain ⟨d, hd, hp⟩ := earliest_sound h
  rw [probe_offset d a hp]
  exact ⟨hd, hp⟩

/-- What an alignment `a` of `frag` with `root` within `width` promises: the offset is within
    the width; the window starts in the root and ends in its verified part; the fragment holds
    the window from index `a.begin - a.offset - frag.begin` on; root and fragment hold the same
    samples there; and the window stays clear of a skipped span that reaches the root's end. -/
structure Sound (root : Root) (frag : Fragment) (width : Int) (a : Alignment) : Prop where
  offset_le : (a.offset.natAbs : Int) ≤ width
  begin_ge : root.begin.toInt ≤ a.begin
  end_le : a.begin + minWordsOverlap ≤ root.verifiedEnd.toInt
  start_nonneg : 0 ≤ a.begin - a.offset - frag.begin.toInt
  start_le : a.begin - a.offset - frag.begin.toInt + minWordsOverlap ≤ frag.size
  samples_eq :
    root.samples.extract (a.begin - root.begin.toInt).toNat
        ((a.begin - root.begin.toInt).toNat + minWordsOverlap) =
      frag.samples.extract (a.begin - a.offset - frag.begin.toInt).toNat
        ((a.begin - a.offset - frag.begin.toInt).toNat + minWordsOverlap)
  clear_of_trailing_skip : ∀ s e, root.skipped = some (s, e) → e = root.endPos →
    a.begin + minWordsOverlap ≤ s.toInt

/-- The search's preference among the windows that agree: a head window at `a.offset` only
    where no head window nearer to zero agrees; a tail window only where no head window within
    `width` agrees, nor a tail window nearer to zero. -/
def Preferred (sc : Scene) (width : Int) (a : Alignment) : Prop :=
  (probe sc false a.offset = .found a ∧
      ∀ d : Int, d.natAbs < a.offset.natAbs → ∀ b, probe sc false d ≠ .found b) ∨
    (probe sc true a.offset = .found a ∧
      (∀ d : Int, (d.natAbs : Int) ≤ width → ∀ b, probe sc false d ≠ .found b) ∧
      ∀ d : Int, d.natAbs < a.offset.natAbs → ∀ b, probe sc true d ≠ .found b)

section Search

variable {root : Root} {frag : Fragment} {width : Int64}

/-- Where nothing wraps around and the skipped span is in order, the verified part of the root
    ends inside it. -/
theorem verifiedEnd_le_of_wrapFree (hskip : ∀ s e, root.skipped = some (s, e) → s ≤ e)
    (hfit : (Scene.of root frag).wrapFree width.toInt = true) :
    root.verifiedEnd.toInt ≤ root.begin.toInt + root.size := by
  obtain ⟨hb, -, -, hrs, -, -⟩ := Scene.wrapFree_iff.mp hfit
  rw [← Root.toInt_endPos_of_small hb hrs]
  exact Int64.le_iff_toInt_le.mp (Root.verifiedEnd_le_endPos hskip)

/-- Where nothing wraps around and the skipped span is in order, the search tries the head
    candidates and then the tail candidates, once the verified part of the root and the
    fragment each hold a window. -/
theorem findRootAlignment_eq_earliest (hskip : ∀ s e, root.skipped = some (s, e) → s ≤ e)
    (hfit : (Scene.of root frag).wrapFree width.toInt = true) :
    findRootAlignment root frag width =
      if root.verifiedEnd.toInt - root.begin.toInt < minWordsOverlap ∨
          (frag.size : Int) < minWordsOverlap then .notFound
      else
        match earliest (probe (Scene.of root frag) false)
            (headCandidates (Scene.of root frag) (max width.toInt 0)) with
        | .notFound => earliest (probe (Scene.of root frag) true)
            (tailCandidates (Scene.of root frag) (max width.toInt 0))
        | r => r := by
  obtain ⟨hb, hve, -, -, hfs, -⟩ := Scene.wrapFree_iff.mp hfit
  simp only [Scene.of] at hb hve
  change frag.size < 2 ^ 59 at hfs
  have hw : (Int64.ofNat minWordsOverlap).toInt = minWordsOverlap :=
    Int64.toInt_ofNat_of_lt _ (by decide)
  have hsub :
      (root.verifiedEnd - root.begin).toInt = root.verifiedEnd.toInt - root.begin.toInt := by
    rw [Int64.toInt_sub]
    exact Int.bmod_eq_of_le (by omega) (by omega)
  -- the early check on words reads the same on integers
  have hearly : (root.verifiedEnd - root.begin < Int64.ofNat minWordsOverlap ∨
      Int64.ofNat frag.size < Int64.ofNat minWordsOverlap) ↔
      (root.verifiedEnd.toInt - root.begin.toInt < minWordsOverlap ∨
        (frag.size : Int) < minWordsOverlap) := by
    rw [Int64.lt_iff_toInt_lt, Int64.lt_iff_toInt_lt, hsub, hw,
      Int64.toInt_ofNat_of_lt _ (by omega)]
  have hend := verifiedEnd_le_of_wrapFree hskip hfit
  unfold findRootAlignment
  simp only [hearly, hfit, if_true]
  split
  · rfl
  · unfold searchScene
    exact if_neg (by change ¬ root.begin.toInt + root.size < root.verifiedEnd.toInt; omega)

/-- An alignment the search finds comes from a root and a fragment that each hold a window,
    and it is the earliest agreeing head candidate, or there is none and it is the earliest
    agreeing tail candidate. -/
theorem findRootAlignment_found (hskip : ∀ s e, root.skipped = some (s, e) → s ≤ e)
    (hfit : (Scene.of root frag).wrapFree width.toInt = true) {a : Alignment}
    (h : findRootAlignment root frag width = .found a) :
    root.begin.toInt + minWordsOverlap ≤ root.verifiedEnd.toInt ∧
      (earliest (probe (Scene.of root frag) false)
          (headCandidates (Scene.of root frag) (max width.toInt 0)) = .found a ∨
        earliest (probe (Scene.of root frag) false)
            (headCandidates (Scene.of root frag) (max width.toInt 0)) = .notFound ∧
          earliest (probe (Scene.of root frag) true)
            (tailCandidates (Scene.of root frag) (max width.toInt 0)) = .found a) := by
  rw [findRootAlignment_eq_earliest hskip hfit] at h
  split at h
  · cases h
  · rename_i hearly
    refine ⟨by omega, ?_⟩
    split at h
    · rename_i hhead
      exact Or.inr ⟨hhead, h⟩
    · exact Or.inl h

/-- Where the early check passes, the search never overruns. -/
theorem findRootAlignment_ne_overrun (hskip : ∀ s e, root.skipped = some (s, e) → s ≤ e)
    (hfit : (Scene.of root frag).wrapFree width.toInt = true) :
    findRootAlignment root frag width ≠ .overrun := by
  rw [findRootAlignment_eq_earliest hskip hfit]
  split
  · exact AlignmentSearch.noConfusion
  · split <;> exact earliest_ne_overrun _ _

/-- An alignment the probe finds within `width` is sound, where the verified part of the root
    holds a window. -/
theorem sound_of_probe (hwin : root.begin.toInt + minWordsOverlap ≤ root.verifiedEnd.toInt)
    {tail : Bool} {d w : Int} {a : Alignment} (hp : probe (Scene.of root frag) tail d = .found a)
    (hd : (d.natAbs : Int) ≤ w) : a.Sound root frag w := by
  obtain ⟨hoff, hbeg, hve, hs0, hsz, -, hag⟩ := probe_eq_found hp
  simp only [Scene.of] at hbeg hve hs0 hsz hag
  subst hoff
  have hb : root.begin.toInt ≤ a.begin := by
    cases tail <;> simp only [windowBegin, Bool.false_eq_true, if_true, if_false] at hbeg
      <;> omega
  exact {
    offset_le := hd
    begin_ge := hb
    end_le := hve
    start_nonneg := hs0
    start_le := hsz
    samples_eq := Signal.extract_eq_of_agreesFor hag
    clear_of_trailing_skip := fun s e hs he => by
      rw [Root.verifiedEnd_of_trailing hs he] at hve
      exact hve }

/-- Where nothing wraps around and the skipped span is in order, the search never leaves the
    root and prefers small offsets: once the verified part of the root holds a window, no probe
    at any offset leaves the root's samples; the search never overruns; and every alignment it
    finds is sound within the width and preferred. -/
theorem findRootAlignment_sound_preferred (hskip : ∀ s e, root.skipped = some (s, e) → s ≤ e)
    (hw : 0 ≤ width) (hfit : (Scene.of root frag).wrapFree width.toInt = true) :
    (root.begin.toInt + minWordsOverlap ≤ root.verifiedEnd.toInt →
        ∀ tail d, probe (Scene.of root frag) tail d ≠ .overrun) ∧
      findRootAlignment root frag width ≠ .overrun ∧
      ∀ a, findRootAlignment root frag width = .found a →
        a.Sound root frag width.toInt ∧ Preferred (Scene.of root frag) width.toInt a := by
  have hend := verifiedEnd_le_of_wrapFree hskip hfit
  have hreach : max width.toInt 0 = width.toInt :=
    max_eq_left (by simpa using Int64.le_iff_toInt_le.mp hw)
  refine ⟨fun hwin => probe_ne_overrun hend hwin, findRootAlignment_ne_overrun hskip hfit, ?_⟩
  intro a h
  obtain ⟨hwin, hhead | ⟨hnone, htail⟩⟩ := findRootAlignment_found hskip hfit h
  · -- a head window: no head window nearer to zero agrees
    rw [hreach] at hhead
    obtain ⟨hmem, hp⟩ := earliest_probe hhead
    have ha := headCandidates_within hmem
    refine ⟨sound_of_probe hwin hp ha, Or.inl ⟨hp, ?_⟩⟩
    exact earliest_nearest hhead probe_offset
      (fun d b hd hb => mem_headCandidates (by omega) (by omega) hb) ha
  · -- a tail window: no head window within the width agrees, nor a tail window nearer to zero
    rw [hreach] at hnone htail
    obtain ⟨hmem, hp⟩ := earliest_probe htail
    have ha := tailCandidates_within hmem
    refine ⟨sound_of_probe hwin hp ha, Or.inr ⟨hp, ?_, ?_⟩⟩
    · intro d hd b hb
      exact earliest_eq_notFound hnone (mem_headCandidates (by omega) (by omega) hb) hb
    · exact earliest_nearest htail probe_offset
        (fun d b hd hb => mem_tailCandidates (by omega) (by omega) hb) ha

end Search

/-- A root of 130 samples whose last 30 stand in for a skipped frame. -/
def skippedTailRoot : Root :=
  { samples := Signal.zeros 130, skipped := some (100, 130) }

/-- A fragment of `n` silent samples read at `begin`. -/
def silentAt (n : Nat) (begin : Int64) : Fragment :=
  { samples := Signal.zeros n, begin, lastSector := 0, source := none, offset := 0 }

/-- The search of a silent fragment read inside the verified part of a root with a trailing
    skipped span, within 4 samples: it finds the fragment in place, and that alignment is sound
    and preferred. -/
theorem findRootAlignment_sound_preferred_verifiedPart :
    (∀ s e, skippedTailRoot.skipped = some (s, e) → s ≤ e) ∧ (0 : Int64) ≤ 4 ∧
      (Scene.of skippedTailRoot (silentAt 64 20)).wrapFree (4 : Int64).toInt = true ∧
      findRootAlignment skippedTailRoot (silentAt 64 20) 4 = .found ⟨0, 20⟩ ∧
      (skippedTailRoot.begin.toInt + minWordsOverlap ≤ skippedTailRoot.verifiedEnd.toInt →
        ∀ tail d, probe (Scene.of skippedTailRoot (silentAt 64 20)) tail d ≠ .overrun) ∧
      findRootAlignment skippedTailRoot (silentAt 64 20) 4 ≠ .overrun ∧
      ∀ a, findRootAlignment skippedTailRoot (silentAt 64 20) 4 = .found a →
        a.Sound skippedTailRoot (silentAt 64 20) (4 : Int64).toInt ∧
          Preferred (Scene.of skippedTailRoot (silentAt 64 20)) (4 : Int64).toInt a := by
  have hskip : ∀ s e, skippedTailRoot.skipped = some (s, e) → s ≤ e := by
    intro s e h
    simp only [skippedTailRoot, Option.some.injEq, Prod.mk.injEq] at h
    obtain ⟨rfl, rfl⟩ := h
    decide
  have hfit : (Scene.of skippedTailRoot (silentAt 64 20)).wrapFree (4 : Int64).toInt = true := by
    decide +kernel
  have hfound : findRootAlignment skippedTailRoot (silentAt 64 20) 4 = .found ⟨0, 20⟩ := by
    decide +kernel
  exact ⟨hskip, by decide, hfit, hfound, findRootAlignment_sound_preferred hskip (by decide) hfit⟩

/-- A root of 300 silent samples whose span `[100, 200)` stands in for a skipped frame, with
    samples after it. -/
def innerSkipRoot : Root :=
  { samples := Signal.zeros 300, skipped := some (100, 200) }

/-- Once samples follow the skipped span, a silent fragment lines up with the silence inside
    it: the window `[120, 184)` lies within `[100, 200)`. -/
theorem findRootAlignment_inside_skipped :
    findRootAlignment innerSkipRoot (silentAt 64 120) 0 = .found ⟨0, 120⟩ := by
  decide +kernel

end Alignment

end VerifiedRip
