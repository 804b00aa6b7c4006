import VerifiedRip.Proofs.RiftSearch
import VerifiedRip.Proofs.StaleRoot
/-!
# Rift repair makes progress or changes nothing

Where the root and a fragment part at position `k`, `Session.repairRift` either gives up and
changes nothing, or repairs the rift: it cuts the root at `k` (too close to the root's end to
resync, or a constant stretch on both sides), or it resyncs the two by the shift the forward
rift search finds. Samples one side dropped are put back in from the other side, and samples
one side repeated are taken out. After such a repair the root and the fragment agree on
`minWordsRift` samples from `k`, so the merge walk moves on. The root is only ever edited at `k`
and past it, and only at or past the limit of what has been handed out.

## Main statements

- `Signal.agreesFor_splice`, `Signal.agreesFor_cut`: putting back the samples one side lacks,
  or taking out the samples one side repeats, makes the two agree where the search found them
  agreeing after the shift.
- `Root.truncateAt_of_inside`, `Root.insert?_of_inside`, `Root.remove?_of_inside`: the root's
  edits at a position inside it.
- `Session.RepairSound`: what a repair may leave behind, with one lemma per kind of edit.
- `Session.repairRift_progress_or_unchanged`: a repair at a position inside the root and the
  fragment gives up with nothing changed, or keeps what lies before the position and either
  ends the root there or resyncs the two from there.

Roots and fragments are taken shorter than `2 ^ 63` samples, as every vector of 16-bit samples
is.
-/

namespace VerifiedRip

/-- An answer with a one-sided shift that does not move `a` moves `b`: by a negative amount
    once a positive one is ruled out. -/
theorem RiftShift.b_neg_of_not_a {m : RiftShift} (hm : ¬ (m.isNone || m.c != 0) = true)
    (ha : ¬ 0 < m.a) (ha' : ¬ m.a < 0) (hb : ¬ 0 < m.b) : m.b < 0 := by
  have ha0 : m.a = 0 := Int64.le_antisymm (Int64.not_lt.mp ha) (Int64.not_lt.mp ha')
  simp only [RiftShift.isNone, ha0, Bool.or_eq_true, Bool.and_eq_true, beq_self_eq_true, true_and,
    beq_iff_eq, bne_iff_ne, ne_eq, not_or, not_and, not_not] at hm
  rcases Int64.lt_or_lt_of_ne (fun h => hm.1 h hm.2) with h | h
  · exact h
  · exact absurd h hb

namespace Signal

theorem agreeAt_comm {a b : Signal} {i j m : Nat} : AgreeAt a b i j m ↔ AgreeAt b a j i m := by
  unfold AgreeAt
  constructor <;> rintro ⟨x, h1, h2⟩ <;> exact ⟨x, h2, h1⟩

theorem agreesFor_comm {a b : Signal} {i j n : Nat} :
    agreesFor a b i j n = true ↔ agreesFor b a j i n = true := by
  rw [agreesFor_iff, agreesFor_iff]
  exact forall_congr' fun m => imp_congr_right fun _ => agreeAt_comm

/-- Past `i` samples of `a`, a splice reads the `k` samples of `b` from `j`, then the rest. -/
theorem getElem?_splice (a b rest : Signal) {i j k m : Nat} (hi : i ≤ a.size)
    (hk : j + k ≤ b.size) :
    (a.extract 0 i ++ b.extract j (j + k) ++ rest)[i + m]? =
      if m < k then b[j + m]? else rest[m - k]? := by
  have h1 : (a.extract 0 i).size = i := by simp; omega
  have h2 : (b.extract j (j + k)).size = k := by simp; omega
  rw [Array.getElem?_append, Array.size_append, h1, h2, Array.getElem?_append, h1]
  split_ifs with h3 h4 h5 <;> first | omega | skip
  · rw [Array.getElem?_extract, if_pos (by omega)]
    congr 1
    omega
  · congr 1
    omega

theorem extract_prefix_append {a rest : Signal} {i : Nat} (hi : i ≤ a.size) :
    (a.extract 0 i ++ rest).extract 0 i = a.extract 0 i := by
  simp [Array.extract_append, Nat.min_eq_left hi]

/-- Putting the `k` samples of `b` from `j` into `a` at `i`, where `a` from `i` agrees with `b`
    from `j + k`, makes `a` from `i` agree with `b` from `j`. -/
theorem agreesFor_splice {a b : Signal} {i j k t : Nat} (hi : i ≤ a.size)
    (h : agreesFor a b i (j + k) t = true) :
    agreesFor (a.extract 0 i ++ b.extract j (j + k) ++ a.extract i a.size) b i j t = true := by
  rw [agreesFor_iff] at h ⊢
  intro m hm
  obtain ⟨x, -, hbx⟩ := h m hm
  have hk : j + k ≤ b.size := by
    have := (Array.getElem?_eq_some_iff.mp hbx).1
    omega
  rw [getElem?_splice a b _ hi hk]
  split_ifs with hmk
  · -- inside the spliced samples both sides read `b`
    have hb : j + m < b.size := by omega
    exact ⟨b[j + m], by simp [hb], by simp [hb]⟩
  · -- past them, `a` is read where it agreed with `b` shifted by `k`
    obtain ⟨y, hay, hby⟩ := h (m - k) (by omega)
    refine ⟨y, ?_, ?_⟩
    · rw [Array.getElem?_extract,
        if_pos (by have := (Array.getElem?_eq_some_iff.mp hay).1; simp; omega)]
      exact hay
    · rw [← hby]
      congr 1
      omega

/-- Taking the `k` samples from `i` out of `a`, where `a` from `i + k` agrees with `b` from `j`,
    makes `a` from `i` agree with `b` from `j`. -/
theorem agreesFor_cut {a b : Signal} {i j k t : Nat} (h : agreesFor a b (i + k) j t = true) :
    agreesFor (a.extract 0 i ++ a.extract (i + k) a.size) b i j t = true := by
  rw [agreesFor_iff] at h ⊢
  intro m hm
  obtain ⟨x, hax, hbx⟩ := h m hm
  have hlt := (Array.getElem?_eq_some_iff.mp hax).1
  have h1 : (a.extract 0 i).size = i := by simp; omega
  refine ⟨x, ?_, hbx⟩
  rw [Array.getElem?_append, h1, if_neg (by omega), Array.getElem?_extract, if_pos (by simp; omega),
    ← hax]
  congr 1
  omega

end Signal

namespace Root

variable {r : Root} {k : Int64}

/-- The end of a root shorter than `2 ^ 63` that holds a position does not wrap: a wrapped end
    would lie before the start, and so before the position. -/
theorem toInt_endPos_of_inside (hsize : r.size < 2 ^ 63) (hb : r.begin ≤ k) (he : k < r.endPos) :
    r.endPos.toInt = r.begin.toInt + r.size := by
  have he' : k.toInt < (r.begin + Int64.ofNat r.size).toInt := Int64.lt_iff_toInt_lt.mp he
  have hb' := Int64.le_iff_toInt_le.mp hb
  have hmax := Int64.toInt_le r.begin
  have hk := Int64.toInt_le k
  have hmin := Int64.le_toInt r.begin
  rw [Int64.toInt_maxValue] at hmax hk
  change (r.begin + Int64.ofNat r.size).toInt = _
  rw [Int64.toInt_add, Int64.toInt_ofNat_of_lt _ hsize] at he' ⊢
  simp only [Int.bmod] at he' ⊢
  split at he' <;> split <;> omega

/-- A position inside a root shorter than `2 ^ 63` lies at an index inside it, a distance from
    the start that is a word. -/
theorem indexOf_of_inside (hsize : r.size < 2 ^ 63) (hb : r.begin ≤ k) (he : k < r.endPos) :
    r.indexOf k < r.size ∧ Int64.ofNat (r.indexOf k) = k - r.begin ∧
      r.begin + Int64.ofNat (r.indexOf k) = k := by
  have hb' := Int64.le_iff_toInt_le.mp hb
  have he' := Int64.lt_iff_toInt_lt.mp he
  have hend := toInt_endPos_of_inside hsize hb he
  have hidx := r.indexOf_of_le k hb
  refine ⟨by omega, ?_, ?_⟩
  · rw [← Int64.ofNat_toIndex (k - r.begin)]
    rfl
  · rw [show Int64.ofNat (r.indexOf k) = k - r.begin by rw [← Int64.ofNat_toIndex (k - r.begin)]; rfl]
    grind

variable (hsize : r.size < 2 ^ 63) (hb : r.begin ≤ k) (he : k < r.endPos)
include hsize hb he

/-- Cutting the root at a position inside it keeps its start and its samples before that
    position, and makes the position its end. -/
theorem truncateAt_of_inside :
    (r.truncateAt k).begin = r.begin ∧ (r.truncateAt k).samples = r.samples.extract 0 (r.indexOf k) ∧
      (r.truncateAt k).endPos = k := by
  obtain ⟨hlt, hofNat, hadd⟩ := indexOf_of_inside hsize hb he
  have hnn : 0 ≤ k - r.begin := by
    rw [← hofNat]
    exact Int64.le_iff_toInt_le.mpr (by rw [Int64.toInt_ofNat_of_lt _ (by omega)]; simp)
  have hsamples : (r.truncateAt k).samples = r.samples.extract 0 (r.indexOf k) := by
    simp only [truncateAt, Int64.max_eq_left hnn]
    rfl
  refine ⟨rfl, hsamples, ?_⟩
  change r.begin + Int64.ofNat (r.truncateAt k).samples.size = k
  rw [hsamples, Array.size_extract, Nat.min_eq_left (by unfold size at hlt; omega), Nat.sub_zero,
    hadd]

theorem insert?_of_inside (v : Signal) :
    r.insert? k v = some
      { r with samples := r.samples.extract 0 (r.indexOf k) ++ v ++
                            r.samples.extract (r.indexOf k) r.size } := by
  have hlt := (indexOf_of_inside hsize hb he).1
  simp only [insert?, if_pos (Nat.le_of_lt hlt)]

omit hb he in
/-- Removing `count` samples, at most to the root's end, at a position inside the root takes
    them out at its index. -/
theorem remove?_of_inside {count : Nat} (hcount : r.indexOf k + count ≤ r.size) :
    r.remove? k count = some
      { r with samples := r.samples.extract 0 (r.indexOf k) ++
                            r.samples.extract (r.indexOf k + count) r.size } := by
  have hstop : min (UInt64.ofNat (r.indexOf k) + UInt64.ofNat count).toNat r.size =
      r.indexOf k + count := by
    rw [UInt64.toNat_add, UInt64.toNat_ofNat', UInt64.toNat_ofNat']
    unfold size at hcount hsize
    rw [Nat.mod_eq_of_lt (by omega), Nat.mod_eq_of_lt (by omega), Nat.mod_eq_of_lt (by omega)]
    exact Nat.min_eq_left hcount
  simp only [remove?, hstop, if_pos (Nat.le_add_right _ _)]

end Root

namespace Session

variable {σ : Type}

section Repair

variable (s : Session σ) (k fbegin : Int64) (samples : Signal)

/-- What a repair of the rift at `k` against the fragment samples `samples`, placed at `fbegin`,
    may leave behind as its answer and session. Either it gives up and changes nothing; or it
    keeps the root's start and its samples before `k`, edits the root only at or past the limit
    of what was handed out, and leaves the root ending at `k` or agreeing with the answered
    samples for `minWordsRift` samples from `k`. -/
def RepairSound (out : (Bool × Signal) × Session σ) : Prop :=
  (out.1.1 = false → out.2 = s ∧ out.1.2 = samples) ∧
  (out.1.1 = true →
    out.2.cache.root.begin = s.cache.root.begin ∧
    out.2.cache.root.samples.extract 0 (s.cache.root.indexOf k) =
      s.cache.root.samples.extract 0 (s.cache.root.indexOf k) ∧
    (out.2.cache.root ≠ s.cache.root → s.cache.root.returnedLimit ≤ k) ∧
    (out.2.cache.root.endPos = k ∨
      Signal.agreesFor out.2.cache.root.samples out.1.2 (s.cache.root.indexOf k)
        (Int64.toIndex (k - fbegin)) minWordsRift = true))

theorem repairSound_giveUp : RepairSound s k fbegin samples ((false, samples), s) :=
  ⟨fun _ => ⟨rfl, rfl⟩, fun h => absurd h Bool.false_ne_true⟩

/-- An edit of the root, reported at `k`, is a sound repair when nothing before `k` was handed
    out and the edit keeps the root's start and samples before `k` and either ends the root at
    `k` or resyncs it with the fragment. -/
theorem repairSound_editRoot {g : Root → Root} (e : Event) (hed : s.cache.root.returnedLimit ≤ k)
    (hbegin : (g s.cache.root).begin = s.cache.root.begin)
    (hpre : (g s.cache.root).samples.extract 0 (s.cache.root.indexOf k) =
      s.cache.root.samples.extract 0 (s.cache.root.indexOf k))
    (hdone : (g s.cache.root).endPos = k ∨
      Signal.agreesFor (g s.cache.root).samples samples (s.cache.root.indexOf k)
        (Int64.toIndex (k - fbegin)) minWordsRift = true) :
    RepairSound s k fbegin samples
      ((true, samples), { s with cache := s.cache.modifyRoot g, reports := s.reports.push ⟨k, e⟩ }) :=
  ⟨fun h => Bool.noConfusion h, fun _ => ⟨hbegin, hpre, fun _ => hed, hdone⟩⟩

/-- A repair of the fragment's samples alone, reported at `k`, is sound when the root agrees
    with the repaired samples from `k`. -/
theorem repairSound_editSamples (e : Event) {fixed : Signal}
    (h : Signal.agreesFor s.cache.root.samples fixed (s.cache.root.indexOf k)
      (Int64.toIndex (k - fbegin)) minWordsRift = true) :
    RepairSound s k fbegin samples ((true, fixed), { s with reports := s.reports.push ⟨k, e⟩ }) :=
  ⟨fun h => Bool.noConfusion h, fun _ => ⟨rfl, rfl, fun h => absurd rfl h, Or.inr h⟩⟩

variable {s k fbegin samples}

/-- Cutting the root at `k`, inside it and where nothing was handed out, is a sound repair. -/
theorem repairSound_truncateAt (e : Event) (hsize : s.cache.root.size < 2 ^ 63)
    (hb : s.cache.root.begin ≤ k) (he : k < s.cache.root.endPos)
    (hed : s.cache.root.returnedLimit ≤ k) :
    RepairSound s k fbegin samples ((true, samples),
      { s with cache := s.cache.modifyRoot (·.truncateAt k), reports := s.reports.push ⟨k, e⟩ }) := by
  obtain ⟨hbegin, hsamples, hend⟩ := Root.truncateAt_of_inside hsize hb he
  refine repairSound_editRoot s k fbegin samples e hed hbegin ?_ (Or.inl hend)
  rw [hsamples]
  simp

/-- Putting back into the root at `k` the `n` fragment samples it lacks there, where nothing
    was handed out, is a sound repair. -/
theorem repairSound_insert (e : Event) (hsize : s.cache.root.size < 2 ^ 63)
    (hb : s.cache.root.begin ≤ k) (he : k < s.cache.root.endPos)
    (hed : s.cache.root.returnedLimit ≤ k) {n : Nat}
    (hskip : Rift.SkipsB s.cache.root.samples samples (s.cache.root.indexOf k)
      (Int64.toIndex (k - fbegin)) n) :
    RepairSound s k fbegin samples ((true, samples),
      { s with
        cache := s.cache.modifyRoot fun root =>
          (root.insert? k (samples.extract (Int64.toIndex (k - fbegin))
            (Int64.toIndex (k - fbegin) + n))).getD root,
        reports := s.reports.push ⟨k, e⟩ }) := by
  have hr := (Root.indexOf_of_inside hsize hb he).1
  have hins := Root.insert?_of_inside hsize hb he
    (samples.extract (Int64.toIndex (k - fbegin)) (Int64.toIndex (k - fbegin) + n))
  refine repairSound_editRoot s k fbegin samples e hed ?_ ?_ (Or.inr ?_) <;>
    simp only [hins, Option.getD_some]
  · rw [Array.append_assoc]
    exact Signal.extract_prefix_append (Nat.le_of_lt hr)
  · exact Signal.agreesFor_splice (Nat.le_of_lt hr) hskip.2

/-- Taking out of the root at `k` the `n` samples it repeats there, where nothing was handed
    out, is a sound repair. -/
theorem repairSound_remove (e : Event) (hsize : s.cache.root.size < 2 ^ 63)
    (hed : s.cache.root.returnedLimit ≤ k) {n : Nat}
    (hskip : Rift.SkipsA s.cache.root.samples samples (s.cache.root.indexOf k)
      (Int64.toIndex (k - fbegin)) n) :
    RepairSound s k fbegin samples ((true, samples),
      { s with
        cache := s.cache.modifyRoot fun root => (root.remove? k n).getD root,
        reports := s.reports.push ⟨k, e⟩ }) := by
  have hn := hskip.1
  have hrem := @Root.remove?_of_inside _ k hsize n (by unfold Root.size; omega)
  refine repairSound_editRoot s k fbegin samples e hed ?_ ?_ (Or.inr ?_) <;>
    simp only [hrem, Option.getD_some]
  · exact Signal.extract_prefix_append (by omega)
  · exact Signal.agreesFor_cut hskip.2

/-- Putting into the fragment at `k` the `n` root samples it lacks there is a sound repair. -/
theorem repairSound_splice (e : Event) (hf : Int64.toIndex (k - fbegin) ≤ samples.size) {n : Nat}
    (hskip : Rift.SkipsA s.cache.root.samples samples (s.cache.root.indexOf k)
      (Int64.toIndex (k - fbegin)) n) :
    RepairSound s k fbegin samples ((true,
        samples.extract 0 (Int64.toIndex (k - fbegin)) ++
          s.cache.root.samples.extract (s.cache.root.indexOf k) (s.cache.root.indexOf k + n) ++
          samples.extract (Int64.toIndex (k - fbegin)) samples.size),
      { s with reports := s.reports.push ⟨k, e⟩ }) :=
  repairSound_editSamples s k fbegin samples e
    (Signal.agreesFor_comm.mpr (Signal.agreesFor_splice hf (Signal.agreesFor_comm.mp hskip.2)))

/-- Taking out of the fragment at `k` the `n` samples it repeats there is a sound repair. -/
theorem repairSound_drain (e : Event) {n : Nat}
    (hskip : Rift.SkipsB s.cache.root.samples samples (s.cache.root.indexOf k)
      (Int64.toIndex (k - fbegin)) n) :
    RepairSound s k fbegin samples ((true,
        samples.extract 0 (Int64.toIndex (k - fbegin)) ++
          samples.extract (Int64.toIndex (k - fbegin) + n) samples.size),
      { s with reports := s.reports.push ⟨k, e⟩ }) :=
  repairSound_editSamples s k fbegin samples e
    (Signal.agreesFor_comm.mpr (Signal.agreesFor_cut (Signal.agreesFor_comm.mp hskip.2)))

/-- Repairing the rift at a position inside the root, against fragment samples that hold that
    position, either changes nothing or makes progress: it keeps what lies before the position,
    edits the root only past what was handed out, and leaves the root ending at the position or
    agreeing with the fragment for `minWordsRift` samples from it. -/
theorem repairRift_progress_or_unchanged (hroot : s.cache.root.size < 2 ^ 63)
    (hsamples : samples.size < 2 ^ 63) (hb : s.cache.root.begin ≤ k)
    (he : k < s.cache.root.endPos) (hf0 : 0 ≤ k - fbegin) (hf : (k - fbegin).toInt < samples.size) :
    RepairSound s k fbegin samples ((repairRift k fbegin samples).run s) := by
  obtain ⟨hr, hri, -⟩ := Root.indexOf_of_inside hroot hb he
  have hfi : Int64.toIndex (k - fbegin) < samples.size := by
    have h0 := Int64.le_iff_toInt_le.mp hf0
    rw [Int64.toIndex_of_nonneg hf0]
    rw [Int64.toInt_zero] at h0
    omega
  rw [repairRift, run_get_bind]
  dsimp only
  split
  · exact repairSound_giveUp s k fbegin samples
  -- too near the root's end to resync, or silence on both sides: cut the root at `k`
  split
  · split
    · exact repairSound_giveUp s k fbegin samples
    · rename_i hed
      exact repairSound_truncateAt .fixupEdge hroot hb he (by simpa using hed)
  split
  · split
    · exact repairSound_giveUp s k fbegin samples
    · rename_i hed
      exact repairSound_truncateAt .fixupAtom hroot hb he (by simpa using hed)
  -- the search runs on the two indices of `k`; each sign of its answer says which side skips
  have hsigns := Rift.forward_signs hroot hsamples (Nat.le_of_lt hr) (Nat.le_of_lt hfi)
  rw [hri, Int64.ofNat_toIndex] at hsigns
  generalize Rift.forward s.cache.root.samples samples (k - s.cache.root.begin) (k - fbegin) = m
    at hsigns ⊢
  obtain ⟨hA, hA', hB, hB'⟩ := hsigns
  split
  · exact repairSound_giveUp s k fbegin samples
  rename_i hm
  split
  · rename_i ha
    split
    · exact repairSound_giveUp s k fbegin samples
    · rename_i hed
      exact repairSound_insert .fixupDropped hroot hb he (by simpa using hed) (hA ha)
  split
  · rename_i ha
    split
    · exact repairSound_giveUp s k fbegin samples
    · rename_i hed
      exact repairSound_remove .fixupDuped hroot (by simpa using hed) (hA' ha)
  split
  · rename_i hb
    exact repairSound_splice .fixupDropped (Nat.le_of_lt hfi) (hB hb)
  · rename_i ha ha' hb
    exact repairSound_drain .fixupDuped (hB' (RiftShift.b_neg_of_not_a hm ha ha' hb))

end Repair

end Session

/-- A session whose root holds a rising run from position `0`, none of it handed out yet. -/
def risingRootSession : Session MemoryDisc :=
  { drive := idleDrive, cache := { root := Root.set Rift.risingRun 0 0 }, cursor := 0,
    firstSector := 0, lastSector := 5 }

theorem Session.repairRift_progress_or_unchanged_droppedRun :
    risingRootSession.cache.root.size < 2 ^ 63 ∧ Rift.droppedRun.size < 2 ^ 63 ∧
      risingRootSession.cache.root.begin ≤ 20 ∧ 20 < risingRootSession.cache.root.endPos ∧
      (0 : Int64) ≤ 20 - 0 ∧ ((20 : Int64) - 0).toInt < Rift.droppedRun.size ∧
      risingRootSession.RepairSound 20 0 Rift.droppedRun
        ((Session.repairRift 20 0 Rift.droppedRun).run risingRootSession) :=
  ⟨by decide, by decide, by decide, by decide, by decide, by decide,
    @Session.repairRift_progress_or_unchanged _ risingRootSession 20 0 Rift.droppedRun
      (by decide) (by decide) (by decide) (by decide) (by decide) (by decide)⟩

end VerifiedRip

