import VerifiedRip.Block.Root
import VerifiedRip.Block.Fragment
import VerifiedRip.Match.Runs
/-!
# Aligning a fragment with the root

`findRootAlignment root frag width` looks for a window of `minWordsOverlap` samples on which a
verified fragment, displaced by an offset of at most `width`, agrees with the verified part of
the root. Head windows (at the fragment's displaced start, or the root's start) are tried
first, offsets in the order `0, 1, -1, 2, -2, …`; then tail windows ending at the root's
verified end, in the same order. The first agreeing window wins.

Positions are 64-bit words, and the probe at an offset (`Alignment.probeWord`) does its
arithmetic on words, wrapping around. A window whose positions pass its checks only because a
sum wrapped can leave the root's or the fragment's samples; the search then stops with
`AlignmentSearch.overrun`. Such roots and fragments lie at the ends of the 64-bit range and
are searched offset by offset. Everywhere else (`Alignment.Scene.wrapFree`) no sum wraps, and
the search runs on integers (`Alignment.Scene`). There a root whose skipped span reaches past
its own end can still make a window leave its samples, and such a root is searched offset by
offset as well (`Alignment.search`). Any other root cannot overrun, and there the first
agreeing window is the agreeing one nearest to offset zero: `Alignment.earliest` picks it among
the offsets at which the windows' first samples agree (`Alignment.headCandidates`,
`Alignment.tailCandidates`), found by scanning one signal for one value instead of trying every
offset.

## Main statements

* `Alignment.probe_eq_found`: a probe's alignment lies inside the verified root and the
  fragment, and the two windows agree.
* `Alignment.mem_headCandidates`, `Alignment.mem_tailCandidates`: every offset within the width
  at which a probe finds an alignment is a candidate.
* `Alignment.earliest_sound`, `Alignment.earliest_first`, `Alignment.earliest_eq_notFound`:
  `earliest` returns an alignment found at a listed offset, and none listed is tried before it.
-/

namespace VerifiedRip

/-- Where a fragment lines up with the root: its displacement and the start of the window. -/
structure Alignment where
  offset : Int
  begin : Int
deriving DecidableEq, Repr

/-- Outcome of an alignment search. -/
inductive AlignmentSearch where
  | found (a : Alignment)
  | notFound
  /-- A window ran past the root's samples. -/
  | overrun
deriving DecidableEq, Repr

namespace AlignmentSearch

/-- The alignment found, if any. -/
def toOption : AlignmentSearch → Option Alignment
  | .found a => some a
  | _ => none

end AlignmentSearch

namespace Alignment

/-- What an alignment search sees of a root and a fragment, with positions as integers: the
    root's samples, start and verified end, and the fragment's samples and start. -/
structure Scene where
  root : Signal
  rootBegin : Int
  verifiedEnd : Int
  frag : Signal
  fragBegin : Int

/-- The scene of a root and a fragment. -/
def Scene.of (root : Root) (frag : Fragment) : Scene :=
  ⟨root.samples, root.begin.toInt, root.verifiedEnd.toInt, frag.samples, frag.begin.toInt⟩

/-- Whether every position and length of the scene, and the width, is below `2⁵⁹` in size. A
    probe then adds or subtracts at most five of them and a window, so no word it forms wraps
    around, and the search gives the same answer on integers as on words. -/
def Scene.wrapFree (sc : Scene) (width : Int) : Bool :=
  let small := fun (x : Int) => decide (x.natAbs < Nat.pow 2 59)
  small sc.rootBegin && small sc.verifiedEnd && small sc.fragBegin && small sc.root.size &&
    small sc.frag.size && small width

/-- Where the window probed at `offset` starts: at the fragment's displaced start but not before
    the root's, or for a tail window, `minWordsOverlap` before the root's verified end. -/
def windowBegin (sc : Scene) (tail : Bool) (offset : Int) : Int :=
  if tail then sc.verifiedEnd - minWordsOverlap else max (sc.fragBegin + offset) sc.rootBegin

/-- The window probe at `offset`: a head window, or with `tail` the window ending at the root's
    verified end. -/
def probe (sc : Scene) (tail : Bool) (offset : Int) : AlignmentSearch :=
  let ve := sc.verifiedEnd
  let begin := windowBegin sc tail offset
  let start := begin - offset - sc.fragBegin
  if ve < begin + minWordsOverlap ∨ start < 0 ∨ sc.frag.size < start + minWordsOverlap then
    .notFound
  else
    let r := (begin - sc.rootBegin).toNat
    if sc.root.size < r + minWordsOverlap then .overrun
    else if Signal.agreesFor sc.root sc.frag r start.toNat minWordsOverlap then
      .found ⟨offset, begin⟩
    else .notFound

/-- The offsets at which a window lies inside both the fragment and the verified part of the
    root: for head windows `[rootBegin - fragBegin + w - frag.size, ve - w - fragBegin]`,
    for tail windows `[ve - fragBegin - frag.size, ve - w - fragBegin]`, where `ve` is the
    root's verified end and `w` the window. At any other offset `probe` finds nothing (given a
    root whose verified part holds a window). -/
def feasible (sc : Scene) (tail : Bool) : Int × Int :=
  let ve := sc.verifiedEnd
  let hi := ve - minWordsOverlap - sc.fragBegin
  if tail then (ve - sc.fragBegin - sc.frag.size, hi)
  else (sc.rootBegin - sc.fragBegin + minWordsOverlap - sc.frag.size, hi)

/-- Tries offsets `d, -d, d + 1, -(d + 1), …` up to `stop`; the first probe that does not
    come back `notFound` decides. -/
def sweep (p : Int → AlignmentSearch) (stop d : Nat) : AlignmentSearch :=
  if d ≤ stop then
    match p d with
    | .notFound =>
      match p (-(d : Int)) with
      | .notFound => sweep p stop (d + 1)
      | r => r
    | r => r
  else .notFound
termination_by stop + 1 - d

/-- The sizes `d` in `[1, width]` for which `d` or `-d` lies in `[lo, hi]`, as the least and
    the greatest of them (the least exceeds the greatest when there are none). -/
def sizes (width : Int) (range : Int × Int) : Int × Int :=
  let (lo, hi) := range
  let a1 := max lo 1
  let b1 := min hi width
  let a2 := max (-hi) 1
  let b2 := min (-lo) width
  if a1 ≤ b1 then (if a2 ≤ b2 then (min a1 a2, max b1 b2) else (a1, b1)) else (a2, b2)

/-- The search over one kind of window: offset zero, then outwards up to `width`, skipping the
    sizes `d` at which neither `d` nor `-d` lies in the feasible range. -/
def search (p : Int → AlignmentSearch) (width : Int) (range : Int × Int) : AlignmentSearch :=
  match p 0 with
  | .notFound =>
    let (first, last) := sizes width range
    sweep p last.toNat first.toNat
  | r => r

/-- Whether offset `d` is tried before offset `e`: the one nearer to zero, and of two equally
    near, the positive one. -/
def before (d e : Int) : Bool := d.natAbs < e.natAbs || (d.natAbs == e.natAbs && e < d)

/-- The earlier of the alignment kept so far and the one the probe finds at `d`. -/
def keepEarlier (p : Int → AlignmentSearch) (best : AlignmentSearch) (d : Int) : AlignmentSearch :=
  match p d with
  | .found a =>
    match best with
    | .found b => if before a.offset b.offset then .found a else best
    | _ => .found a
  | _ => best

/-- Of the offsets listed, the alignment at the one tried first among those where the probe
    finds one. -/
def earliest (p : Int → AlignmentSearch) (offsets : List Int) : AlignmentSearch :=
  offsets.foldl (keepEarlier p) .notFound

/-- The positions in `[lo, hi]` at which `s` holds `v` (none below zero). -/
def hits (s : Signal) (v : Int16) (lo hi : Int) : List Nat :=
  if lo ≤ hi then Signal.positionsOf s v lo.toNat (hi + 1).toNat else []

/-- The head offsets within `width` of zero whose windows start with agreeing samples. Past
    `rootBegin - fragBegin` a head window starts the fragment at a root position, so the
    fragment's first sample is looked up in the verified root; before it, the window starts the
    root at a fragment position, so the root's first sample is looked up in the fragment. -/
def headCandidates (sc : Scene) (width : Int) : List Int :=
  let w : Int := minWordsOverlap
  let shift := sc.rootBegin - sc.fragBegin
  let inRoot := hits sc.root (sc.frag.getD 0 0) (max 0 (-width - shift))
    (min (sc.verifiedEnd - w - sc.rootBegin) (width - shift))
  let inFrag := hits sc.frag (sc.root.getD 0 0) (max 1 (shift - width))
    (min (sc.frag.size - w) (shift + width))
  inRoot.map (fun (r : Nat) => r + shift) ++ inFrag.map (fun (f : Nat) => shift - f)

/-- The tail offsets within `width` of zero whose windows start with agreeing samples: the first
    sample of the root's last verified window, looked up in the fragment. -/
def tailCandidates (sc : Scene) (width : Int) : List Int :=
  let w : Int := minWordsOverlap
  let reach := sc.verifiedEnd - w - sc.fragBegin
  let first := sc.root.getD (sc.verifiedEnd - w - sc.rootBegin).toNat 0
  (hits sc.frag first (max 0 (reach - width)) (min (sc.frag.size - w) (reach + width))).map
    (fun (f : Nat) => reach - f)

/-- An alignment the probe finds is at the probed offset, its window lies inside the verified
    root and the fragment, and the two windows agree. -/
theorem probe_eq_found {sc : Scene} {tail : Bool} {d : Int} {a : Alignment}
    (h : probe sc tail d = .found a) :
    a.offset = d ∧ a.begin = windowBegin sc tail d ∧
      a.begin + minWordsOverlap ≤ sc.verifiedEnd ∧ 0 ≤ a.begin - d - sc.fragBegin ∧
      a.begin - d - sc.fragBegin + minWordsOverlap ≤ sc.frag.size ∧
      (a.begin - sc.rootBegin).toNat + minWordsOverlap ≤ sc.root.size ∧
      Signal.agreesFor sc.root sc.frag (a.begin - sc.rootBegin).toNat
        (a.begin - d - sc.fragBegin).toNat minWordsOverlap = true := by
  unfold probe at h
  generalize windowBegin sc tail d = B at h ⊢
  dsimp only at h
  split at h
  · cases h
  · split at h
    · cases h
    · split at h
      · cases h
        rename_i h1 h2 h3
        simp only [not_or] at h1
        dsimp only
        exact ⟨rfl, rfl, by omega, by omega, by omega, by omega, h3⟩
      · cases h

/-- A sample read with a default is the sample, where there is one. -/
theorem getD_of_getElem? {s : Signal} {i : Nat} {x : Int16} (h : s[i]? = some x) :
    s.getD i 0 = x := by
  simp [Array.getD_eq_getD_getElem?, h]

/-- Every head offset within `width` at which the probe finds an alignment is a candidate. -/
theorem mem_headCandidates {sc : Scene} {width d : Int} {a : Alignment}
    (hlo : -width ≤ d) (hhi : d ≤ width) (h : probe sc false d = .found a) :
    d ∈ headCandidates sc width := by
  obtain ⟨-, hbeg, hve, hs0, hsz, -, hag⟩ := probe_eq_found h
  obtain ⟨x, hx, hy⟩ := Signal.agreesFor_iff.mp hag 0 (by decide)
  simp only [windowBegin, Bool.false_eq_true, if_false] at hbeg
  simp only [Nat.add_zero] at hx hy
  unfold headCandidates hits
  simp only [List.mem_append, List.mem_map]
  by_cases hcase : sc.rootBegin ≤ sc.fragBegin + d
  · left
    have hb : a.begin = sc.fragBegin + d := by omega
    refine ⟨(d - (sc.rootBegin - sc.fragBegin)).toNat, ?_, by omega⟩
    rw [if_pos (by omega), Signal.mem_positionsOf]
    refine ⟨by omega, by omega, ?_⟩
    have e1 : (a.begin - sc.rootBegin).toNat = (d - (sc.rootBegin - sc.fragBegin)).toNat := by omega
    have e2 : (a.begin - d - sc.fragBegin).toNat = 0 := by omega
    rw [e1] at hx; rw [e2] at hy
    rw [hx, getD_of_getElem? hy]
  · right
    have hb : a.begin = sc.rootBegin := by omega
    refine ⟨(sc.rootBegin - sc.fragBegin - d).toNat, ?_, by omega⟩
    rw [if_pos (by omega), Signal.mem_positionsOf]
    refine ⟨by omega, by omega, ?_⟩
    have e1 : (a.begin - sc.rootBegin).toNat = 0 := by omega
    have e2 : (a.begin - d - sc.fragBegin).toNat = (sc.rootBegin - sc.fragBegin - d).toNat := by omega
    rw [e1] at hx; rw [e2] at hy
    rw [hy, getD_of_getElem? hx]

/-- Every tail offset within `width` at which the probe finds an alignment is a candidate. -/
theorem mem_tailCandidates {sc : Scene} {width d : Int} {a : Alignment}
    (hlo : -width ≤ d) (hhi : d ≤ width) (h : probe sc true d = .found a) :
    d ∈ tailCandidates sc width := by
  obtain ⟨-, hbeg, hve, hs0, hsz, -, hag⟩ := probe_eq_found h
  obtain ⟨x, hx, hy⟩ := Signal.agreesFor_iff.mp hag 0 (by decide)
  simp only [windowBegin, if_true] at hbeg
  simp only [Nat.add_zero] at hx hy
  unfold tailCandidates hits
  simp only [List.mem_map]
  refine ⟨(sc.verifiedEnd - minWordsOverlap - sc.fragBegin - d).toNat, ?_, by omega⟩
  rw [if_pos (by omega), Signal.mem_positionsOf]
  refine ⟨by omega, by omega, ?_⟩
  have e1 : (a.begin - sc.rootBegin).toNat = (sc.verifiedEnd - minWordsOverlap - sc.rootBegin).toNat := by omega
  have e2 : (a.begin - d - sc.fragBegin).toNat = (sc.verifiedEnd - minWordsOverlap - sc.fragBegin - d).toNat := by omega
  rw [e1] at hx; rw [e2] at hy
  rw [hy, getD_of_getElem? hx]

/-- No offset is tried before itself. -/
theorem before_irrefl (x : Int) : before x x = false := by
  simp [before]

/-- Trying order is transitive. -/
theorem before_trans {x y z : Int} (h1 : before x y = true) (h2 : before y z = true) :
    before x z = true := by
  simp only [before, Bool.or_eq_true, decide_eq_true_eq, Bool.and_eq_true, beq_iff_eq] at *
  omega

/-- Of two different offsets, one is tried before the other. -/
theorem before_total {x y : Int} (h : before x y = false) : x = y ∨ before y x = true := by
  simp only [before, Bool.or_eq_true, decide_eq_true_eq, Bool.and_eq_true, beq_iff_eq,
    Bool.or_eq_false_iff, decide_eq_false_iff_not, Bool.and_eq_false_iff, beq_eq_false_iff_ne] at *
  omega

/-- An alignment kept by the fold was kept from the start or found at a listed offset. -/
theorem foldl_keepEarlier_found (p : Int → AlignmentSearch) (ds : List Int) :
    ∀ (init : AlignmentSearch) (a : Alignment), ds.foldl (keepEarlier p) init = .found a →
      init = .found a ∨ ∃ d ∈ ds, p d = .found a := by
  induction ds with
  | nil => intro init a h; exact Or.inl h
  | cons d ds ih =>
    intro init a h
    rcases ih _ a h with h' | ⟨d', hd', hp⟩
    · unfold keepEarlier at h'
      split at h'
      · rename_i a' hpd
        split at h'
        · split at h'
          · cases h'; exact Or.inr ⟨d, List.mem_cons_self, hpd⟩
          · exact Or.inl h'
        · cases h'; exact Or.inr ⟨d, List.mem_cons_self, hpd⟩
      · exact Or.inl h'
    · exact Or.inr ⟨d', List.mem_cons_of_mem d hd', hp⟩

/-- The alignment kept by the fold comes no later than the one kept at the start, nor than any
    found at a listed offset. -/
theorem foldl_keepEarlier_first (p : Int → AlignmentSearch) (ds : List Int) :
    ∀ (init : AlignmentSearch) (a : Alignment), ds.foldl (keepEarlier p) init = .found a →
      (∀ c, init = .found c → before c.offset a.offset = false) ∧
      ∀ d ∈ ds, ∀ b, p d = .found b → before b.offset a.offset = false := by
  induction ds with
  | nil =>
    intro init a h
    refine ⟨?_, fun d hd => by simp at hd⟩
    intro c hc
    simp only [List.foldl_nil] at h
    rw [hc] at h; cases h; exact before_irrefl _
  | cons d ds ih =>
    intro init a h
    obtain ⟨hinit, hrest⟩ := ih _ a h
    refine ⟨?_, ?_⟩
    · intro c hc
      subst hc
      unfold keepEarlier at hinit
      split at hinit
      · rename_i a' hpd
        by_cases hb : before a'.offset c.offset = true
        · have h1 := hinit a' (by simp [hb])
          cases hca : before c.offset a.offset
          · rfl
          · rw [before_trans hb hca] at h1; cases h1
        · exact hinit c (by simp [hb])
      · exact hinit c rfl
    · intro d' hd' b hpb
      rcases List.mem_cons.mp hd' with rfl | hd'
      · cases init with
        | found c =>
          by_cases hb : before b.offset c.offset = true
          · exact hinit b (by simp [keepEarlier, hpb, hb])
          · have h1 := hinit c (by simp [keepEarlier, hpb, hb])
            rcases before_total (Bool.eq_false_iff.mpr hb) with he | hcb
            · rw [he]; exact h1
            · cases hba : before b.offset a.offset
              · rfl
              · rw [before_trans hcb hba] at h1; cases h1
        | notFound => exact hinit b (by simp [keepEarlier, hpb])
        | overrun => exact hinit b (by simp [keepEarlier, hpb])
      · exact hrest d' hd' b hpb

/-- The fold ends without an alignment only if it started without one and the probe finds none
    at the listed offsets. -/
theorem foldl_keepEarlier_notFound (p : Int → AlignmentSearch) (ds : List Int) :
    ∀ (init : AlignmentSearch), ds.foldl (keepEarlier p) init = .notFound →
      init = .notFound ∧ ∀ d ∈ ds, ∀ b, p d ≠ .found b := by
  induction ds with
  | nil => intro init h; exact ⟨h, fun d hd => by simp at hd⟩
  | cons d ds ih =>
    intro init h
    obtain ⟨hinit, hrest⟩ := ih _ h
    unfold keepEarlier at hinit
    split at hinit
    · split at hinit
      · split at hinit <;> cases hinit
      · cases hinit
    · rename_i hpd
      refine ⟨hinit, ?_⟩
      intro d' hd' b
      rcases List.mem_cons.mp hd' with rfl | hd'
      · exact hpd b
      · exact hrest d' hd' b

/-- The fold never ends in an overrun when it does not start in one. -/
theorem foldl_keepEarlier_ne_overrun (p : Int → AlignmentSearch) (ds : List Int) :
    ∀ (init : AlignmentSearch), init ≠ .overrun → ds.foldl (keepEarlier p) init ≠ .overrun := by
  induction ds with
  | nil => intro init h; exact h
  | cons d ds ih =>
    intro init h
    apply ih
    unfold keepEarlier
    split
    · split
      · split
        · exact AlignmentSearch.noConfusion
        · assumption
      · exact AlignmentSearch.noConfusion
    · exact h

/-- An alignment that `earliest` returns was found at a listed offset. -/
theorem earliest_sound {p : Int → AlignmentSearch} {ds : List Int} {a : Alignment}
    (h : earliest p ds = .found a) : ∃ d ∈ ds, p d = .found a := by
  rcases foldl_keepEarlier_found p ds _ a h with h' | h'
  · cases h'
  · exact h'

/-- No listed offset tried before the one `earliest` returns finds an alignment. -/
theorem earliest_first {p : Int → AlignmentSearch} {ds : List Int} {a b : Alignment} {d : Int}
    (h : earliest p ds = .found a) (hd : d ∈ ds) (hb : p d = .found b) :
    before b.offset a.offset = false :=
  (foldl_keepEarlier_first p ds _ a h).2 d hd b hb

/-- `earliest` finds nothing only if the probe finds nothing at every listed offset. -/
theorem earliest_eq_notFound {p : Int → AlignmentSearch} {ds : List Int} {d : Int} {b : Alignment}
    (h : earliest p ds = .notFound) (hd : d ∈ ds) : p d ≠ .found b :=
  (foldl_keepEarlier_notFound p ds _ h).2 d hd b

/-- `earliest` never overruns. -/
theorem earliest_ne_overrun (p : Int → AlignmentSearch) (ds : List Int) :
    earliest p ds ≠ .overrun :=
  foldl_keepEarlier_ne_overrun p ds _ AlignmentSearch.noConfusion

/-- The probe at `offset` on words: the window's positions formed in wrapping arithmetic,
    then read as indices into the root and the fragment. A window that passes its checks but
    leaves either signal is an overrun. -/
def probeWord (root : Root) (frag : Fragment) (tail : Bool) (offset : Int64) : AlignmentSearch :=
  let w := Int64.ofNat minWordsOverlap
  let ve := root.verifiedEnd
  let begin := if tail then ve - w else max (frag.begin + offset) root.begin
  let start := begin - offset - frag.begin
  if ve < begin + w ∨ start < 0 ∨ Int64.ofNat frag.size < start + w then .notFound
  else
    let r := Int64.toIndex (begin - root.begin)
    let f := Int64.toIndex start
    if root.size < r + minWordsOverlap ∨ frag.size < f + minWordsOverlap then .overrun
    else if Signal.agreesFor root.samples frag.samples r f minWordsOverlap then
      .found ⟨offset.toInt, begin.toInt⟩
    else .notFound

/-- Offset zero, then the offsets `1, -1, 2, -2, …` up to `reach`; the first probe that does not
    come back `notFound` decides. -/
def sweepWords (p : Int64 → AlignmentSearch) (reach : Nat) : AlignmentSearch :=
  match p 0 with
  | .notFound => sweep (fun o => p (Int64.ofInt o)) reach 1
  | r => r

/-- The search on the integer positions of a scene in which nothing wraps, for a root whose
    verified part holds a window. -/
def searchScene (sc : Scene) (width : Int) : AlignmentSearch :=
  if sc.rootBegin + sc.root.size < sc.verifiedEnd then
    match search (probe sc false) width (feasible sc false) with
    | .notFound => search (probe sc true) width (feasible sc true)
    | r => r
  else
    let reach := max width 0
    match earliest (probe sc false) (headCandidates sc reach) with
    | .notFound => earliest (probe sc true) (tailCandidates sc reach)
    | r => r

end Alignment

/-- Where `frag` lines up with the verified part of `root` within `width` samples. -/
def findRootAlignment (root : Root) (frag : Fragment) (width : Int64) : AlignmentSearch :=
  let w := Int64.ofNat minWordsOverlap
  if root.verifiedEnd - root.begin < w ∨ Int64.ofNat frag.size < w then .notFound
  else
    let sc := Alignment.Scene.of root frag
    if sc.wrapFree width.toInt then Alignment.searchScene sc width.toInt
    else
      let reach := (max width 0).toInt.toNat
      match Alignment.sweepWords (Alignment.probeWord root frag false) reach with
      | .notFound => Alignment.sweepWords (Alignment.probeWord root frag true) reach
      | r => r

end VerifiedRip
