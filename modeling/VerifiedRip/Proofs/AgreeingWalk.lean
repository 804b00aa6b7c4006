import VerifiedRip.Proofs.RiftRepair
import VerifiedRip.Proofs.MergeFuel
/-!
# The merge walk over a fragment that agrees with the root

Merging a fragment walks it along the root from a position `k` (`Session.walkFragment`): `k`
moves past the samples on which the two agree, jumps to the end of the span of silence that
stands in for a skipped frame (`Root.skipped`) if it stopped inside that span, and the rift it
stopped at is repaired, unless it reached the root's end.

A fragment that agrees with the root up to the root's end, or up to a skipped span that reaches
the root's end, walks through: the walk hands it back as it is and changes nothing
(`Session.walkFragment_of_agrees`). So the merge of such a fragment, in place and aligned at
offset zero with no drift to correct, only appends the fragment's samples past the root's end
and reports a verify there, besides what the offset count reports
(`Session.mergeFragment_of_agrees`).

A skipped span that ends inside the root is another matter. The silence in it does not match
the fragment, so the walk stops inside the span and jumps to its end. Where the fragment agrees
with the root again from there, there is no rift: the search finds the empty shift, the repair
gives up (`Session.repairRift_of_agrees`), and the walk scratches a fragment that agrees with the
root everywhere outside the span (`Session.walkFragment_scratches_after_skip`).
-/

namespace VerifiedRip

/-- The search answers a position where the two signals already agree with the empty shift. -/
theorem Rift.forward_of_agrees {a b : Signal} {oa ob : Nat} (ha : a.size < 2 ^ 63)
    (hb : b.size < 2 ^ 63) (hoa : oa ≤ a.size) (hob : ob < b.size)
    (h : Signal.agreesFor a b oa ob minWordsRift = true) :
    forward a b (Int64.ofNat oa) (Int64.ofNat ob) = ⟨0, 0, 0⟩ := by
  have h0 : Resyncs a b oa ob 0 := Or.inl ⟨by omega, by simpa using h⟩
  rcases forward_cases ha hb hoa (Nat.le_of_lt hob) with ⟨hm, -⟩ | ⟨i, -, hleast, hm⟩
  · exact hm
  -- the least resyncing shift is zero, whose answer moves nothing
  have hi : i = 0 := by
    by_contra hi
    exact hleast 0 (Nat.pos_of_ne_zero hi) h0
  subst hi
  rw [hm, answerAt]
  have hz : Int64.ofNat 0 = 0 := rfl
  split_ifs <;> simp [hz]

namespace Root

variable {r : Root} {k : Int64} {samples : Signal} {fbegin : Int64}

/-- Where the walk's agreement from `k` inside the root stops: `k` moved by the common run of
    the root and the fragment, at most to the root's end. -/
theorem toInt_add_agreeForward (hsize : r.size < 2 ^ 63) (hb : r.begin ≤ k) (he : k < r.endPos)
    (hf0 : 0 ≤ k - fbegin) :
    (k + Signal.agreeForward r.samples samples (k - r.begin) (k - fbegin)).toInt =
        k.toInt + Signal.runFrom r.samples samples (r.indexOf k) (Int64.toIndex (k - fbegin)) ∧
      k.toInt + Signal.runFrom r.samples samples (r.indexOf k) (Int64.toIndex (k - fbegin)) ≤
        r.endPos.toInt := by
  obtain ⟨hr, hri, -⟩ := indexOf_of_inside hsize hb he
  have hend := toInt_endPos_of_inside hsize hb he
  have hidx := r.indexOf_of_le k hb
  have hb' := Int64.le_iff_toInt_le.mp hb
  have hfi : Int64.toIndex (k - fbegin) < 2 ^ 63 := by
    have h0 := Int64.le_iff_toInt_le.mp hf0
    have hmax := Int64.toInt_le (k - fbegin)
    rw [Int64.toInt_zero] at h0
    rw [Int64.toInt_maxValue] at hmax
    rw [Int64.toIndex_of_nonneg hf0]
    omega
  set j := Int64.toIndex (k - fbegin) with hj
  have hrun := Signal.runFrom_le r.samples samples (r.indexOf k) j
  have hsz : r.size = r.samples.size := rfl
  have hfj : k - fbegin = Int64.ofNat j := (Int64.ofNat_toIndex _).symm
  have hagree := @Signal.toInt_agreeForward r.samples samples (r.indexOf k) j hsize (by omega) hfi
  rw [← hri, hfj, Int64.toInt_add_of_range _ _ ?lo ?hi, hagree]
  · constructor <;> omega
  case lo =>
    have := Int64.le_toInt k
    omega
  case hi =>
    have := Int64.toInt_le r.endPos
    rw [Int64.toInt_maxValue] at this
    omega

end Root

namespace Session

variable {σ : Type} (s : Session σ) (h : Handle Fragment) {k fbegin : Int64} {samples : Signal}

/-- Where the root and the fragment already agree, away from the root's end and not both
    constant, there is no rift: the repair gives up and changes nothing. -/
theorem repairRift_of_agrees (hroot : s.cache.root.size < 2 ^ 63)
    (hsamples : samples.size < 2 ^ 63) (hb : s.cache.root.begin ≤ k)
    (he : k < s.cache.root.endPos) (hf : Int64.toIndex (k - fbegin) < samples.size)
    (hedge : ¬ s.cache.root.endPos - k < Int64.ofNat minWordsRift)
    (hsilent : Rift.silence s.cache.root.samples samples (k - s.cache.root.begin) (k - fbegin) ≠
      some (-1, -1))
    (hagree : Signal.agreesFor s.cache.root.samples samples (s.cache.root.indexOf k)
      (Int64.toIndex (k - fbegin)) minWordsRift = true) :
    (repairRift k fbegin samples).run s = ((false, samples), s) := by
  obtain ⟨hr, hri, -⟩ := Root.indexOf_of_inside hroot hb he
  have hm : Rift.forward s.cache.root.samples samples (k - s.cache.root.begin) (k - fbegin) =
      ⟨0, 0, 0⟩ := by
    rw [← hri, ← Int64.ofNat_toIndex (k - fbegin)]
    exact Rift.forward_of_agrees hroot hsamples (Nat.le_of_lt hr) hf hagree
  rw [repairRift, run_get_bind]
  dsimp only
  -- without the repair mode it gives up at once; with it, neither the edge nor the silence
  -- branch applies and the search finds nothing to shift
  split
  · rfl
  rw [if_neg (by simpa using hsilent), hm]
  rfl

/-- A fragment that agrees with the root from `k` up to the root's end, or up to a skipped span
    that reaches the root's end, walks through: the walk hands it back and changes nothing. -/
theorem walkFragment_of_agrees {p : Int64} (fixes : Nat) (hroot : s.cache.root.size < 2 ^ 63)
    (hb : s.cache.root.begin ≤ k) (he : k < s.cache.root.endPos) (hf0 : 0 ≤ k - fbegin)
    (hkp : k ≤ p)
    (hp : p = s.cache.root.endPos ∨
      ∃ b, s.cache.root.skipped = some (p, b) ∧ s.cache.root.endPos ≤ b)
    (hagree : Signal.agreesFor s.cache.root.samples samples (s.cache.root.indexOf k)
      (Int64.toIndex (k - fbegin)) (Int64.toIndex (p - k)) = true) :
    (walkFragment h fbegin samples k fixes).run s = (some samples, s) := by
  obtain ⟨hq, hqe⟩ := @Root.toInt_add_agreeForward s.cache.root k samples fbegin hroot hb he hf0
  have ht := Signal.le_runFrom_iff.mpr hagree
  have hpk : ((Int64.toIndex (p - k) : Nat) : Int) = p.toInt - k.toInt := by
    have hkp' := Int64.le_iff_toInt_le.mp hkp
    rw [Int64.toIndex_sub p k hkp']
    omega
  rw [walkFragment, run_get_bind]
  extract_lets root k₁ k₂
  have hre : root.endPos.toInt = s.cache.root.endPos.toInt := rfl
  -- the agreement carries `k` to `p` at least, and the jump over a skipped span only onward
  have hk₁ : p.toInt ≤ k₁.toInt := by
    have hq' : k₁.toInt = _ := hq
    omega
  have hend : root.endPos ≤ k₂ := by
    rcases hp with rfl | ⟨b, hsk, hbe⟩
    · simp only [k₂]
      split
      · split_ifs with hin
        · rw [Int64.lt_iff_toInt_lt] at hin
          rw [Int64.le_iff_toInt_le]
          omega
        · exact Int64.le_iff_toInt_le.mpr hk₁
      · exact Int64.le_iff_toInt_le.mpr hk₁
    · have hsk' : root.skipped = some (p, b) := hsk
      have hbe' := Int64.le_iff_toInt_le.mp hbe
      simp only [k₂, hsk']
      split_ifs with hin
      · exact hbe
      · rw [Int64.le_iff_toInt_le, Int64.lt_iff_toInt_lt] at hin
        rw [Int64.le_iff_toInt_le]
        omega
  rw [if_pos hend]
  rfl

/-- A fragment that agrees with the root from `k` up to a skipped span that ends inside the
    root, parts from the silence in the span, and agrees with the root again from the span's end
    is scratched at the span's end: there the repair finds no rift and gives up. -/
theorem walkFragment_scratches_after_skip {a b : Int64} (fixes : Nat)
    (hroot : s.cache.root.size < 2 ^ 63) (hsamples : samples.size < 2 ^ 63)
    (hb : s.cache.root.begin ≤ k) (he : k < s.cache.root.endPos) (hf0 : 0 ≤ k - fbegin)
    (hskip : s.cache.root.skipped = some (a, b)) (hka : k ≤ a) (hab : a ≤ b)
    (hinside : b.toInt + minWordsRift ≤ s.cache.root.endPos.toInt)
    (hbf : Int64.toIndex (b - fbegin) < samples.size) (hfixes : fixes < maxRiftFixes)
    (hupto : Signal.agreesFor s.cache.root.samples samples (s.cache.root.indexOf k)
      (Int64.toIndex (k - fbegin)) (Int64.toIndex (a - k)) = true)
    (hparts : Signal.agreesFor s.cache.root.samples samples (s.cache.root.indexOf k)
      (Int64.toIndex (k - fbegin)) (Int64.toIndex (b - k)) = false)
    (hagain : Signal.agreesFor s.cache.root.samples samples (s.cache.root.indexOf b)
      (Int64.toIndex (b - fbegin)) minWordsRift = true)
    (hsilent : Rift.silence s.cache.root.samples samples (b - s.cache.root.begin) (b - fbegin) ≠
      some (-1, -1)) :
    (walkFragment h fbegin samples k fixes).run s =
      (none, { s with reports := s.reports.push ⟨b, .scratch⟩,
                      cache := (s.cache.removeFragment h).1 }) := by
  obtain ⟨hq, -⟩ := @Root.toInt_add_agreeForward s.cache.root k samples fbegin hroot hb he hf0
  have hka' := Int64.le_iff_toInt_le.mp hka
  have hab' := Int64.le_iff_toInt_le.mp hab
  have hb' := Int64.le_iff_toInt_le.mp hb
  have hend := Root.toInt_endPos_of_inside hroot hb he
  have hto := Signal.le_runFrom_iff.mpr hupto
  have hpast : ¬ Int64.toIndex (b - k) ≤
      Signal.runFrom s.cache.root.samples samples (s.cache.root.indexOf k)
        (Int64.toIndex (k - fbegin)) := fun hle => by
    rw [Signal.le_runFrom_iff, hparts] at hle
    exact Bool.false_ne_true hle
  rw [Int64.toIndex_sub a k hka'] at hto
  rw [Int64.toIndex_sub b k (Int.le_trans hka' hab')] at hpast
  have hbe : b < s.cache.root.endPos := Int64.lt_iff_toInt_lt.mpr (by unfold minWordsRift at hinside; omega)
  -- the repair at the span's end gives up, the root and the fragment agreeing there
  have hedge : ¬ s.cache.root.endPos - b < Int64.ofNat minWordsRift := by
    rw [Int64.lt_iff_toInt_lt, Int64.toInt_sub, Int.bmod_eq_of_le (by omega) (by
      have := Int64.toInt_le s.cache.root.endPos
      rw [Int64.toInt_maxValue] at this
      omega)]
    rw [Int64.toInt_ofNat_of_lt _ (by decide)]
    omega
  have hrepair := repairRift_of_agrees s hroot hsamples
    (Int64.le_iff_toInt_le.mpr (by omega)) hbe hbf hedge hsilent hagain
  rw [walkFragment, run_get_bind]
  extract_lets root k₁ k₂
  -- the walk stops inside the span, where the fragment parts from the silence, and jumps to its end
  have hk₂ : k₂ = b := by
    have hq' : k₁.toInt = _ := hq
    have hsk : root.skipped = some (a, b) := hskip
    simp only [k₂, hsk]
    rw [if_pos ⟨Int64.le_iff_toInt_le.mpr (by omega), Int64.lt_iff_toInt_lt.mpr (by omega)⟩]
  have hfb : Int64.ofNat (Int64.toIndex (b - fbegin)) = b - fbegin := Int64.ofNat_toIndex _
  rw [hk₂, if_neg (Int64.not_le.mpr hbe), if_neg (by
      rw [← hfb, Int64.ofNat_le_iff_le hsamples (by omega)]
      omega), dif_neg (by unfold maxRiftFixes at hfixes ⊢; omega), run_bind, hrepair]
  rfl

end Session

namespace Tracker

/-- A drift correction reports the drift, then a cache error for each entry it releases. -/
theorem correctDrift_events (t : Tracker) (c : FragmentCache) :
    ∀ r ∈ (t.correctDrift c).2.2, r.event = .drift ∨ r.event = .cacheError := by
  intro r hr
  unfold correctDrift at hr
  dsimp only at hr
  split at hr
  · split at hr
    · simp only [List.mem_cons, List.mem_map] at hr
      rcases hr with rfl | ⟨p, -, rfl⟩
      · exact Or.inl rfl
      · exact Or.inr rfl
    · simp at hr
  · simp at hr

/-- A new width is reported as an overlap. -/
theorem adjustWidth_events (t : Tracker) : ∀ r ∈ t.adjustWidth.2, r.event = .overlap := by
  intro r hr
  unfold adjustWidth at hr
  dsimp only at hr
  split at hr
  · simp only [List.mem_singleton] at hr
    rw [hr]
  · simp at hr

/-- Counting an offset reports nothing but drift corrections, the cache errors of the entries
    they release, and new widths. -/
theorem record_events (t : Tracker) (stage : Stage) (v : Int64) (c : FragmentCache) :
    ∀ r ∈ (t.record stage v c).2.2,
      r.event = .drift ∨ r.event = .cacheError ∨ r.event = .overlap := by
  have hboth : ∀ u : Tracker, ∀ r ∈ (u.correctDrift c).2.2 ++ (u.correctDrift c).1.adjustWidth.2,
      r.event = .drift ∨ r.event = .cacheError ∨ r.event = .overlap := by
    intro u r hr
    rcases List.mem_append.1 hr with h | h
    · exact (correctDrift_events u c r h).imp_right Or.inl
    · exact Or.inr (Or.inr (adjustWidth_events _ r h))
  intro r hr
  unfold record at hr
  -- on either stage the count reports nothing, or a drift correction and then a new width
  cases stage <;> dsimp only at hr <;> split_ifs at hr
  all_goals first | exact hboth _ r hr | simp at hr

end Tracker

/-- A position that a fragment holds, the fragment's end not wrapping, lies at its index from
    the fragment's start. -/
theorem Fragment.toInt_of_holds {f : Fragment} {k : Int64} (hsize : f.size < 2 ^ 63)
    (hfend : f.endPos.toInt = f.begin.toInt + f.size) (hhold : Int64.toIndex (k - f.begin) < f.size) :
    k.toInt = f.begin.toInt + Int64.toIndex (k - f.begin) ∧ 0 ≤ k - f.begin := by
  set j := Int64.toIndex (k - f.begin)
  have hj : k - f.begin = Int64.ofNat j := (Int64.ofNat_toIndex _).symm
  have hk : k = f.begin + Int64.ofNat j := by
    rw [← hj]
    grind
  have hjt := Int64.toInt_ofNat_of_lt j (by omega)
  have hmax := Int64.toInt_le f.endPos
  have hmin := Int64.le_toInt f.begin
  rw [Int64.toInt_maxValue] at hmax
  refine ⟨?_, ?_⟩
  · rw [hk, Int64.toInt_add_of_range _ _ (by omega) (by omega), hjt]
  · rw [hj, Int64.le_iff_toInt_le, hjt, Int64.toInt_zero]
    omega

namespace Session

variable {σ : Type} (s : Session σ) (h : Handle Fragment) {frag : Fragment} {a : Alignment}

theorem record_run (stage : Stage) (v : Int64) :
    (record stage v).run s =
      ((), { s with tracker := (s.tracker.record stage v s.cache).1,
                    cache := (s.tracker.record stage v s.cache).2.1,
                    reports := s.reports ++ (s.tracker.record stage v s.cache).2.2.toArray }) := rfl

/-- An in-place fragment that aligns with the root, and whose count on stage two moves neither
    the drift nor the cache, keeps that alignment; the count only reports. -/
theorem alignFragment_of_in_place (hfrag : s.cache.fragment? h = some frag)
    (hplace : frag.offset = 0)
    (halign : (findRootAlignment s.cache.root frag s.tracker.width).toOption = some a)
    (hkeep : (s.tracker.record .root (-(Int64.ofInt a.offset)) s.cache).1.drift =
        s.tracker.drift ∧
      (s.tracker.record .root (-(Int64.ofInt a.offset)) s.cache).2.1 = s.cache) :
    (alignFragment h frag).run s =
      (some a, { s with
        tracker := (s.tracker.record .root (-(Int64.ofInt a.offset)) s.cache).1,
        reports := s.reports ++ (s.tracker.record .root (-(Int64.ofInt a.offset)) s.cache).2.2.toArray }) := by
  rw [alignFragment, run_get_bind]
  dsimp only
  rw [halign]
  dsimp only
  rw [hplace, if_neg (by decide), run_bind, record_run, run_get_bind]
  dsimp only
  rw [hkeep.2, hfrag]
  dsimp only
  rw [hkeep.1, if_pos (by simp)]
  rfl

/-- The merge of an in-place fragment that aligns with the root at offset zero, whose count on
    stage two corrects no drift, and that agrees with the root from where it aligned up to the
    root's end, or up to a skipped span that reaches the root's end: the root keeps its start and
    its samples and gains the fragment's samples past its end, and the merge reports nothing but
    the count's reports and a verify, no scratch and no repair. -/
theorem mergeFragment_of_agrees {p : Int64} (hfrag : s.cache.fragment? h = some frag)
    (hplace : frag.offset = 0)
    (halign : (findRootAlignment s.cache.root frag s.tracker.width).toOption = some a)
    (hzero : a.offset = 0)
    (hcount : (s.tracker.record .root 0 s.cache).1.drift = s.tracker.drift ∧
      (s.tracker.record .root 0 s.cache).2.1 = s.cache)
    (hroot : s.cache.root.size < 2 ^ 63) (hsize : frag.size < 2 ^ 63)
    (hfend : frag.endPos.toInt = frag.begin.toInt + frag.size)
    (hb : s.cache.root.begin ≤ Int64.ofInt a.begin) (he : Int64.ofInt a.begin < s.cache.root.endPos)
    (hhold : Int64.toIndex (Int64.ofInt a.begin - frag.begin) < frag.size)
    (hkp : Int64.ofInt a.begin ≤ p)
    (hp : p = s.cache.root.endPos ∨
      ∃ b, s.cache.root.skipped = some (p, b) ∧ s.cache.root.endPos ≤ b)
    (hagree : Signal.agreesFor s.cache.root.samples frag.samples
      (s.cache.root.indexOf (Int64.ofInt a.begin)) (Int64.toIndex (Int64.ofInt a.begin - frag.begin))
      (Int64.toIndex (p - Int64.ofInt a.begin)) = true) :
    ((mergeFragment h).run s).2.cache.root.begin = s.cache.root.begin ∧
      ((mergeFragment h).run s).2.cache.root.samples = s.cache.root.samples ++
        frag.samples.extract (Int64.toIndex (s.cache.root.endPos - frag.begin)) frag.samples.size ∧
      ∃ added : Array Report, ((mergeFragment h).run s).2.reports = s.reports ++ added ∧
        ∀ r ∈ added, r.event = .drift ∨ r.event = .cacheError ∨ r.event = .overlap ∨
          r.event = .verify := by
  obtain ⟨hkt, hf0⟩ := Fragment.toInt_of_holds hsize hfend hhold
  have hb' := Int64.le_iff_toInt_le.mp hb
  have hreach : ¬ frag.endPos < s.cache.root.begin := by
    rw [Int64.lt_iff_toInt_lt]
    omega
  have hneg : -(Int64.ofInt a.offset) = 0 := by
    rw [hzero]
    decide
  have hfbegin : frag.begin + Int64.ofInt a.offset = frag.begin := by
    rw [hzero]
    exact Int64.add_zero _
  have hal := alignFragment_of_in_place s h hfrag hplace halign (by rw [hneg]; exact hcount)
  rw [hneg] at hal
  have hevents := Tracker.record_events s.tracker .root 0 s.cache
  rw [mergeFragment, run_get_bind]
  dsimp only
  rw [hfrag]
  dsimp only
  rw [if_neg hreach, run_bind, hal]
  dsimp only
  rw [run_get_bind]
  dsimp only
  rw [hfrag]
  dsimp only
  rw [run_get_bind, hfbegin]
  dsimp only
  have hcounted : ∀ r ∈ (s.tracker.record .root 0 s.cache).2.2.toArray,
      r.event = .drift ∨ r.event = .cacheError ∨ r.event = .overlap ∨ r.event = .verify :=
    fun r hr => (hevents r (List.mem_toArray.mp hr)).imp_right (Or.imp_right Or.inl)
  -- a fragment with nothing past the root's end appends nothing
  have hempty : ¬ Int64.toIndex (s.cache.root.endPos - frag.begin) < frag.samples.size →
      frag.samples.extract (Int64.toIndex (s.cache.root.endPos - frag.begin))
        frag.samples.size = #[] :=
    fun hle => Array.extract_eq_empty_of_le (by omega)
  by_cases hdrop : frag.begin + Int64.ofNat frag.size ≤ s.cache.root.endPos
  · -- the fragment ends inside the root and is dropped
    have hdrop' : frag.endPos.toInt ≤ s.cache.root.endPos.toInt := Int64.le_iff_toInt_le.mp hdrop
    have hpast : ¬ Int64.toIndex (s.cache.root.endPos - frag.begin) < frag.samples.size := by
      have hsz : frag.size = frag.samples.size := rfl
      rw [Int64.toIndex_sub _ _ (by omega)]
      omega
    rw [if_pos hdrop, run_bind, dropFragment_run, run_pure]
    dsimp only
    rw [FragmentCache.removeFragment_root, hempty hpast, Array.append_empty]
    exact ⟨rfl, rfl, _, rfl, hcounted⟩
  · have hwalk := walkFragment_of_agrees
      { s with
        tracker := (s.tracker.record .root 0 s.cache).1
        reports := s.reports ++ (s.tracker.record .root 0 s.cache).2.2.toArray }
      h 0 hroot hb he hf0 hkp hp hagree
    rw [if_neg hdrop, run_bind, hwalk]
    dsimp only
    rw [run_get_bind]
    dsimp only
    by_cases hgrow : Int64.toIndex (s.cache.root.endPos - frag.begin) < frag.samples.size
    · -- the root grows by the fragment's samples past its end, with a verify there
      rw [if_pos hgrow, run_bind, editRoot_run, run_bind, report_run, run_bind, dropFragment_run,
        run_pure]
      dsimp only
      rw [FragmentCache.removeFragment_root]
      refine ⟨rfl, rfl, _, Array.append_push.symm, fun r hr => ?_⟩
      rcases Array.mem_push.mp hr with hr | rfl
      · exact hcounted r hr
      · exact Or.inr (Or.inr (Or.inr rfl))
    · rw [if_neg hgrow, run_bind, dropFragment_run, run_pure]
      dsimp only
      rw [FragmentCache.removeFragment_root, hempty hgrow, Array.append_empty]
      exact ⟨rfl, rfl, _, rfl, hcounted⟩

end Session

/-- A hundred rising samples. -/
def longRisingRun : Signal := ⟨(List.range 100).map Int16.ofNat⟩

/-- The rising samples from position 20 to 140, read in place. -/
def risingTailFragment : Fragment :=
  { samples := ⟨(List.range' 20 120).map Int16.ofNat⟩, begin := 20, lastSector := 0,
    source := none, offset := 0 }

/-- A root of `longRisingRun` from position 0, with `risingTailFragment` as the one fragment. -/
def risingMergeSession : Session MemoryDisc :=
  { drive := idleDrive,
    cache := (({ root := Root.set longRisingRun 0 0 } : FragmentCache).insertFragment
      risingTailFragment).1,
    cursor := 0, firstSector := 0, lastSector := 5 }

theorem Session.mergeFragment_of_agrees_risingTail :
    risingMergeSession.cache.fragment? ⟨0, 0⟩ = some risingTailFragment ∧
      risingTailFragment.offset = 0 ∧
      (findRootAlignment risingMergeSession.cache.root risingTailFragment
        risingMergeSession.tracker.width).toOption = some ⟨0, 20⟩ ∧
      (⟨0, 20⟩ : Alignment).offset = 0 ∧
      ((risingMergeSession.tracker.record .root 0 risingMergeSession.cache).1.drift =
          risingMergeSession.tracker.drift ∧
        (risingMergeSession.tracker.record .root 0 risingMergeSession.cache).2.1 =
          risingMergeSession.cache) ∧
      risingMergeSession.cache.root.size < 2 ^ 63 ∧ risingTailFragment.size < 2 ^ 63 ∧
      risingTailFragment.endPos.toInt = risingTailFragment.begin.toInt + risingTailFragment.size ∧
      risingMergeSession.cache.root.begin ≤ Int64.ofInt 20 ∧
      Int64.ofInt 20 < risingMergeSession.cache.root.endPos ∧
      Int64.toIndex (Int64.ofInt 20 - risingTailFragment.begin) < risingTailFragment.size ∧
      Int64.ofInt 20 ≤ 100 ∧
      ((100 : Int64) = risingMergeSession.cache.root.endPos ∨
        ∃ b, risingMergeSession.cache.root.skipped = some (100, b) ∧
          risingMergeSession.cache.root.endPos ≤ b) ∧
      Signal.agreesFor risingMergeSession.cache.root.samples risingTailFragment.samples
        (risingMergeSession.cache.root.indexOf (Int64.ofInt 20))
        (Int64.toIndex (Int64.ofInt 20 - risingTailFragment.begin))
        (Int64.toIndex (100 - Int64.ofInt 20)) = true ∧
      ((Session.mergeFragment ⟨0, 0⟩).run risingMergeSession).2.cache.root.begin =
        risingMergeSession.cache.root.begin ∧
      ((Session.mergeFragment ⟨0, 0⟩).run risingMergeSession).2.cache.root.samples =
        risingMergeSession.cache.root.samples ++ risingTailFragment.samples.extract
          (Int64.toIndex (risingMergeSession.cache.root.endPos - risingTailFragment.begin))
          risingTailFragment.samples.size ∧
      ∃ added : Array Report,
        ((Session.mergeFragment ⟨0, 0⟩).run risingMergeSession).2.reports =
          risingMergeSession.reports ++ added ∧
        ∀ r ∈ added, r.event = .drift ∨ r.event = .cacheError ∨ r.event = .overlap ∨
          r.event = .verify := by
  have halign : (findRootAlignment risingMergeSession.cache.root risingTailFragment
      risingMergeSession.tracker.width).toOption = some ⟨0, 20⟩ := by
    decide +kernel
  have hfend : risingTailFragment.endPos.toInt =
      risingTailFragment.begin.toInt + risingTailFragment.size := by
    decide +kernel
  have hagree : Signal.agreesFor risingMergeSession.cache.root.samples risingTailFragment.samples
      (risingMergeSession.cache.root.indexOf (Int64.ofInt 20))
      (Int64.toIndex (Int64.ofInt 20 - risingTailFragment.begin))
      (Int64.toIndex (100 - Int64.ofInt 20)) = true := by
    decide +kernel
  exact ⟨rfl, rfl, halign, rfl, ⟨rfl, rfl⟩, by decide, by decide, hfend, by decide, by decide,
    by decide, by decide, Or.inl (by decide), hagree,
    @Session.mergeFragment_of_agrees MemoryDisc risingMergeSession ⟨0, 0⟩ risingTailFragment
      ⟨0, 20⟩ 100 rfl rfl halign rfl ⟨rfl, rfl⟩ (by decide) (by decide) hfend (by decide)
      (by decide) (by decide) (by decide) (Or.inl (by decide)) hagree⟩

/-- Forty rising samples, but silence from `8` to `12`. -/
def skippedRun : Signal :=
  ⟨(List.range 40).map fun i => if 8 ≤ i ∧ i < 12 then 0 else Int16.ofNat i⟩

/-- A root of `skippedRun` from position `0` whose frame from `8` to `12` was skipped, handed out
    up to the end of that span. -/
def skippedRootSession : Session MemoryDisc :=
  { drive := idleDrive,
    cache := { root := { Root.set skippedRun 0 0 with skipped := some (8, 12), returnedLimit := 12 } },
    cursor := 0, firstSector := 0, lastSector := 5 }

theorem Session.walkFragment_scratches_after_skip_risingRun :
    skippedRootSession.cache.root.size < 2 ^ 63 ∧ Rift.risingRun.size < 2 ^ 63 ∧
      skippedRootSession.cache.root.begin ≤ 0 ∧ 0 < skippedRootSession.cache.root.endPos ∧
      (0 : Int64) ≤ 0 - 0 ∧ skippedRootSession.cache.root.skipped = some (8, 12) ∧
      (0 : Int64) ≤ 8 ∧ (8 : Int64) ≤ 12 ∧
      (12 : Int64).toInt + minWordsRift ≤ skippedRootSession.cache.root.endPos.toInt ∧
      Int64.toIndex (12 - 0) < Rift.risingRun.size ∧ 0 < maxRiftFixes ∧
      Signal.agreesFor skippedRootSession.cache.root.samples Rift.risingRun
        (skippedRootSession.cache.root.indexOf 0) (Int64.toIndex (0 - 0)) (Int64.toIndex (8 - 0)) =
        true ∧
      Signal.agreesFor skippedRootSession.cache.root.samples Rift.risingRun
        (skippedRootSession.cache.root.indexOf 0) (Int64.toIndex (0 - 0))
        (Int64.toIndex (12 - 0)) = false ∧
      Signal.agreesFor skippedRootSession.cache.root.samples Rift.risingRun
        (skippedRootSession.cache.root.indexOf 12) (Int64.toIndex (12 - 0)) minWordsRift = true ∧
      Rift.silence skippedRootSession.cache.root.samples Rift.risingRun
        (12 - skippedRootSession.cache.root.begin) (12 - 0) ≠ some (-1, -1) ∧
      (Session.walkFragment ⟨0, 0⟩ 0 Rift.risingRun 0 0).run skippedRootSession =
        (none, { skippedRootSession with
                 reports := skippedRootSession.reports.push ⟨12, .scratch⟩,
                 cache := (skippedRootSession.cache.removeFragment ⟨0, 0⟩).1 }) := by
  have hupto : Signal.agreesFor skippedRootSession.cache.root.samples Rift.risingRun
      (skippedRootSession.cache.root.indexOf 0) (Int64.toIndex (0 - 0)) (Int64.toIndex (8 - 0)) =
      true := by
    decide +kernel
  have hparts : Signal.agreesFor skippedRootSession.cache.root.samples Rift.risingRun
      (skippedRootSession.cache.root.indexOf 0) (Int64.toIndex (0 - 0))
      (Int64.toIndex (12 - 0)) = false := by
    decide +kernel
  have hagain : Signal.agreesFor skippedRootSession.cache.root.samples Rift.risingRun
      (skippedRootSession.cache.root.indexOf 12) (Int64.toIndex (12 - 0)) minWordsRift = true := by
    decide +kernel
  exact ⟨by decide, by decide, by decide, by decide, by decide, rfl, by decide, by decide,
    by decide, by decide, by decide, hupto, hparts, hagain, by decide,
    @Session.walkFragment_scratches_after_skip _ skippedRootSession ⟨0, 0⟩ 0 0 Rift.risingRun 8 12
      0 (by decide) (by decide) (by decide) (by decide) (by decide) rfl (by decide) (by decide)
      (by decide) (by decide) (by decide) hupto hparts hagain (by decide)⟩

end VerifiedRip
