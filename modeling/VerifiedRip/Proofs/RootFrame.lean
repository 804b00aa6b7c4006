import Mathlib
import VerifiedRip.Cache
/-!
# Frames held by the root

`Root.frameAt?` reads a frame out of the root at the distance of its position from the root's
start. This module shows which edits keep that reading: dropping the samples before a position
keeps every frame at or after it, `FragmentCache.trim` keeps the frame it is called for, and a
root of exactly one frame hands that frame out at its start. Nothing reads a frame before the
root's start.

Positions are compared through `Int64.toInt`. A distance between two positions may not fit a
signed word, but an index reads the word as unsigned, so it is the true distance whenever that
is not negative (`Int64.toIndex_sub`).
-/

namespace VerifiedRip

theorem Int64.toIndex_sub (q b : Int64) (h : b.toInt ≤ q.toInt) :
    Int64.toIndex (q - b) = (q.toInt - b.toInt).toNat := by
  unfold Int64.toIndex
  rw [← Int64.toNat_toBitVec, Int64.toBitVec_sub]
  have hq : q.toInt = q.toBitVec.toInt := rfl
  have hb : b.toInt = b.toBitVec.toInt := rfl
  rw [hq, hb] at h ⊢
  rw [BitVec.toInt_eq_toNat_cond, BitVec.toInt_eq_toNat_cond] at h ⊢
  rw [BitVec.toNat_sub]
  have := q.toBitVec.isLt
  have := b.toBitVec.isLt
  -- each word is read back from its bits as itself or `2⁶⁴` less
  split_ifs at h ⊢ <;> omega

/-- A sum of words that stays in the signed range is exact. -/
theorem Int64.toInt_add_of_range (a b : Int64) (h₁ : -2 ^ 63 ≤ a.toInt + b.toInt)
    (h₂ : a.toInt + b.toInt < 2 ^ 63) : (a + b).toInt = a.toInt + b.toInt := by
  rw [Int64.toInt_add]
  exact Int.bmod_eq_of_le h₁ h₂

/-- A difference that is not negative as a word is the true difference. -/
theorem Int64.toInt_sub_of_nonneg (a b : Int64) (hb : b.toInt ≤ a.toInt) (h : 0 ≤ a - b) :
    (a - b).toInt = a.toInt - b.toInt := by
  have h0 : (0 : Int64).toInt ≤ (a - b).toInt := Int64.le_iff_toInt_le.mp h
  have ha := Int64.toInt_le a
  have hb' := Int64.le_toInt b
  rw [Int64.toInt_maxValue] at ha
  rw [Int64.toInt_zero, Int64.toInt_sub, Int.bmod_eq_emod] at h0
  rw [Int64.toInt_sub, Int.bmod_eq_emod]
  split at h0 <;> split <;> omega

/-- A word that moves down when `k ≥ 0` is taken from it did not wrap around. -/
theorem Int64.toInt_sub_of_lt (a k : Int64) (hk : 0 ≤ k) (h : a - k < a) :
    (a - k).toInt = a.toInt - k.toInt := by
  have h0 : (0 : Int64).toInt ≤ k.toInt := Int64.le_iff_toInt_le.mp hk
  have h1 : (a - k).toInt < a.toInt := Int64.lt_iff_toInt_lt.mp h
  have ha := Int64.toInt_le a
  have hk' := Int64.toInt_le k
  have ha' := Int64.le_toInt a
  rw [Int64.toInt_maxValue] at ha hk'
  rw [Int64.toInt_zero] at h0
  rw [Int64.toInt_sub, Int.bmod_eq_emod] at h1 ⊢
  split at h1 <;> split <;> omega

/-- A word that moves up when `k ≥ 0` is added to it did not wrap around. -/
theorem Int64.toInt_add_of_lt (a k : Int64) (hk : 0 ≤ k) (h : a < a + k) :
    (a + k).toInt = a.toInt + k.toInt := by
  have h0 : (0 : Int64).toInt ≤ k.toInt := Int64.le_iff_toInt_le.mp hk
  have h1 : a.toInt < (a + k).toInt := Int64.lt_iff_toInt_lt.mp h
  have ha := Int64.toInt_le a
  have hk' := Int64.toInt_le k
  have ha' := Int64.le_toInt a
  rw [Int64.toInt_maxValue] at ha hk'
  rw [Int64.toInt_zero] at h0
  rw [Int64.toInt_add, Int.bmod_eq_emod] at h1 ⊢
  split at h1 <;> split <;> omega

theorem Int64.toInt_ofNat_of_lt (n : Nat) (h : n < 2 ^ 63) : (Int64.ofNat n).toInt = n := by
  rw [Int64.toInt_ofNat']
  exact Int.bmod_eq_of_le (by omega) (by simp only [Int64.size]; omega)

theorem Int64.toIndex_zero : Int64.toIndex 0 = 0 := rfl

theorem Int64.max_eq_right {a b : Int64} (h : a ≤ b) : max a b = b := by
  change (if a ≤ b then b else a) = b
  rw [if_pos h]

theorem Int64.max_eq_left {a b : Int64} (h : b ≤ a) : max a b = a := by
  change (if a ≤ b then b else a) = a
  split_ifs with hab
  · exact Int64.le_antisymm h hab
  · rfl

/-- A difference that is not negative as a word indexes the true difference. -/
theorem Int64.toIndex_max_sub (a b : Int64) (hb : b.toInt ≤ a.toInt) (h : 0 ≤ a - b) :
    Int64.toIndex (max (a - b) 0) = (a.toInt - b.toInt).toNat := by
  rw [Int64.max_eq_left h]
  exact Int64.toIndex_sub a b hb

/-- Adding back a difference that is not negative as a word returns to the start. -/
theorem Int64.add_ofNat_sub (a b : Int64) (hb : b.toInt ≤ a.toInt) (h : 0 ≤ a - b) :
    b + Int64.ofNat (a.toInt - b.toInt).toNat = a := by
  apply Int64.toInt_inj.mp
  have hdiff := Int64.toInt_le (a - b)
  rw [Int64.toInt_maxValue, Int64.toInt_sub_of_nonneg a b hb h] at hdiff
  have hto : (Int64.ofNat (a.toInt - b.toInt).toNat).toInt = (a.toInt - b.toInt).toNat :=
    Int64.toInt_ofNat_of_lt _ (by omega)
  have hsum : b.toInt + (Int64.ofNat (a.toInt - b.toInt).toNat).toInt = a.toInt := by
    rw [hto]
    omega
  have hmax := Int64.toInt_le a
  have hmin := Int64.le_toInt a
  rw [Int64.toInt_maxValue] at hmax
  rw [Int64.toInt_add_of_range _ _ (by omega) (by omega), hsum]

namespace Root

theorem indexOf_of_le (r : Root) (q : Int64) (h : r.begin ≤ q) :
    r.indexOf q = (q.toInt - r.begin.toInt).toNat :=
  Int64.toIndex_sub q r.begin (Int64.le_iff_toInt_le.mp h)

/-- No frame is read before the root's start. -/
theorem frameAt?_of_lt_begin (r : Root) (q : Int64) (h : q < r.begin) : r.frameAt? q = none := by
  have hc : r.coversFrame q = false := by
    simp only [coversFrame, covers, Bool.and_eq_false_iff, decide_eq_false_iff_not, Int64.not_le]
    exact Or.inl (Or.inr h)
  simp [frameAt?, hc]

/-- A root of exactly one frame hands out all of it at its start. -/
theorem frameAt?_begin_of_size (r : Root) (h : r.size = frameWords) :
    r.frameAt? r.begin = some r.samples := by
  have hs : r.samples.size = frameWords := h
  have hne : r.isEmpty = false := by simp [isEmpty, Array.isEmpty, hs, frameWords]
  have hc : r.coversFrame r.begin = true := by
    simp [coversFrame, covers, endPos, hne, h]
  have hk : r.indexOf r.begin = 0 := by
    simp only [indexOf, Int64.sub_self]
    rfl
  simp only [frameAt?, hc, hk, true_and, Nat.zero_add]
  rw [if_pos (le_of_eq h.symm), Array.extract_eq_self_of_le (le_of_eq hs)]

theorem covers_of_frameAt? (r : Root) (q : Int64) (f : Signal) (h : r.frameAt? q = some f) :
    r.isEmpty = false ∧ r.begin ≤ q ∧ q + Int64.ofNat frameWords ≤ r.endPos := by
  simp only [frameAt?] at h
  split_ifs at h with hc
  have hcov := hc.1
  simp only [coversFrame, covers, Bool.and_eq_true, Bool.not_eq_true', decide_eq_true_eq] at hcov
  exact ⟨hcov.1.1, hcov.1.2, hcov.2⟩

/-- Dropping before a position whose distance from the start does not fit a signed word
    drops nothing. -/
theorem dropBefore_of_sub_neg (r : Root) (p : Int64) (h : p - r.begin < 0) :
    r.dropBefore p = r := by
  have hz : max (p - r.begin) 0 = 0 := Int64.max_eq_right (Int64.le_of_lt h)
  simp only [dropBefore, hz, Int64.toIndex_zero, Nat.zero_min, size, Array.extract_size]
  rw [show Int64.ofNat 0 = 0 from rfl, Int64.add_zero]

/-- Dropping before a position inside the root makes the root start there. -/
theorem dropBefore_of_lt_size (r : Root) (p : Int64) (hbp : r.begin ≤ p) (hfit : 0 ≤ p - r.begin)
    (ht : (p.toInt - r.begin.toInt).toNat < r.size) :
    r.dropBefore p =
      { r with samples := r.samples.extract (p.toInt - r.begin.toInt).toNat r.size, begin := p } := by
  have hbp' := Int64.le_iff_toInt_le.mp hbp
  simp only [dropBefore, Int64.toIndex_max_sub p r.begin hbp' hfit, Nat.min_eq_left (Nat.le_of_lt ht),
    Int64.add_ofNat_sub p r.begin hbp' hfit]

/-- Dropping before a position at or past the root's end empties the root. -/
theorem isEmpty_dropBefore_of_size_le (r : Root) (p : Int64) (hbp : r.begin ≤ p)
    (hfit : 0 ≤ p - r.begin) (ht : r.size ≤ (p.toInt - r.begin.toInt).toNat) :
    (r.dropBefore p).isEmpty = true := by
  simp [dropBefore, Int64.toIndex_max_sub p r.begin (Int64.le_iff_toInt_le.mp hbp) hfit,
    Nat.min_eq_right ht, isEmpty]

/-- Dropping the samples before `p` keeps every frame at or after `p`. -/
theorem frameAt?_dropBefore (r : Root) (p q : Int64) (hbp : r.begin ≤ p) (hpq : p ≤ q) :
    (r.dropBefore p).frameAt? q = r.frameAt? q := by
  by_cases hneg : p - r.begin < 0
  · -- the distance to `p` does not fit a signed word: nothing is dropped
    rw [r.dropBefore_of_sub_neg p hneg]
  have hfit := Int64.not_lt.mp hneg
  have hbq := Int64.le_trans hbp hpq
  have hbp' := Int64.le_iff_toInt_le.mp hbp
  have hpq' := Int64.le_iff_toInt_le.mp hpq
  have hk : r.indexOf q = (q.toInt - r.begin.toInt).toNat := r.indexOf_of_le q hbq
  by_cases hlong : r.size ≤ (p.toInt - r.begin.toInt).toNat
  · -- everything is dropped, and the frame at `q` ran past the end anyway
    have hnone : r.frameAt? q = none := by
      have : ¬ r.indexOf q + frameWords ≤ r.size := by
        rw [hk, frameWords]
        omega
      simp [frameAt?, this]
    rw [hnone]
    simp [frameAt?, coversFrame, covers, r.isEmpty_dropBefore_of_size_le p hbp hfit hlong]
  -- the root now starts at `p`, holding the same samples from there on
  rw [r.dropBefore_of_lt_size p hbp hfit (by omega)]
  set t := (p.toInt - r.begin.toInt).toNat with ht
  set r' : Root := { r with samples := r.samples.extract t r.size, begin := p } with hr'
  have hsize : r'.size = r.size - t := by simp [hr', size]
  have hend : r'.endPos = r.endPos := by
    change p + Int64.ofNat r'.size = r.begin + Int64.ofNat r.size
    rw [hsize, ← Int64.add_ofNat_sub p r.begin hbp' hfit, ← ht, Int64.add_assoc, ← Int64.ofNat_add,
      Nat.add_sub_cancel' (by omega)]
  have hempty : r'.isEmpty = r.isEmpty := by
    change decide (r'.size = 0) = decide (r.size = 0)
    rw [hsize]
    simp only [decide_eq_decide]
    omega
  have hcov : r'.coversFrame q = r.coversFrame q := by
    simp only [coversFrame, covers, hempty, hend]
    change (!r.isEmpty && decide (p ≤ q) && _) = (!r.isEmpty && decide (r.begin ≤ q) && _)
    rw [decide_eq_true hpq, decide_eq_true hbq]
  have hkt : t ≤ r.indexOf q := by rw [hk, ht]; omega
  have hk' : r'.indexOf q = r.indexOf q - t := by
    rw [r'.indexOf_of_le q hpq]
    change (q.toInt - p.toInt).toNat = _
    rw [hk, ht]
    omega
  have hfit' : r'.indexOf q + frameWords ≤ r'.size ↔ r.indexOf q + frameWords ≤ r.size := by
    rw [hk', hsize]
    omega
  simp only [frameAt?, hcov, hfit']
  split_ifs with hh
  · change some ((r.samples.extract t r.size).extract _ _) = _
    rw [hk', Array.extract_extract]
    have hstart : t + (r.indexOf q - t) = r.indexOf q := by omega
    have hstop : min (t + (r.indexOf q - t + frameWords)) r.size = r.indexOf q + frameWords := by
      omega
    rw [hstart, hstop]
  · rfl

end Root

namespace FragmentCache

theorem removeBlock_root (c : FragmentCache) (h : Handle RawBlock) :
    (c.removeBlock h).1.root = c.root := by
  unfold removeBlock
  split <;> rfl

theorem removeFragment_root (c : FragmentCache) (h : Handle Fragment) :
    (c.removeFragment h).1.root = c.root := by
  unfold removeFragment
  split <;> rfl

theorem removeBlock_fragmentOrder (c : FragmentCache) (h : Handle RawBlock) :
    (c.removeBlock h).1.fragmentOrder = c.fragmentOrder := by
  unfold removeBlock
  split <;> rfl

theorem foldl_removeBlock_root (hs : List (Handle RawBlock)) (c : FragmentCache) :
    (hs.foldl (fun c h => (c.removeBlock h).1) c).root = c.root := by
  induction hs generalizing c with
  | nil => rfl
  | cons h hs ih => rw [List.foldl_cons, ih, removeBlock_root]

theorem foldl_removeFragment_root (hs : List (Handle Fragment)) (c : FragmentCache) :
    (hs.foldl (fun c h => (c.removeFragment h).1) c).root = c.root := by
  induction hs generalizing c with
  | nil => rfl
  | cons h hs ih => rw [List.foldl_cons, ih, removeFragment_root]

theorem foldl_removeBlock_fragmentOrder (hs : List (Handle RawBlock)) (c : FragmentCache) :
    (hs.foldl (fun c h => (c.removeBlock h).1) c).fragmentOrder = c.fragmentOrder := by
  induction hs generalizing c with
  | nil => rfl
  | cons h hs ih => rw [List.foldl_cons, ih, removeBlock_fragmentOrder]

/-- What `trim` does to the root; the blocks and fragments it removes leave the root alone. -/
theorem trim_root (c : FragmentCache) (b e : Int64) :
    (c.trim b e).root =
      let target := b - Int64.ofNat (maxSectorOverlap * frameWords)
      if !c.root.isEmpty ∧ c.root.begin < b ∧ c.root.begin < target then
        if c.root.endPos < target + Int64.ofNat minWordsOverlap then {}
        else c.root.dropBefore target
      else c.root := by
  simp only [trim, foldl_removeFragment_root, foldl_removeBlock_root]

theorem trim_root_of_le_begin (c : FragmentCache) (b e : Int64) (h : b ≤ c.root.begin) :
    (c.trim b e).root = c.root := by
  rw [trim_root]
  have : ¬ c.root.begin < b := Int64.not_lt.mpr h
  simp [this]

/-- `trim` for the frame at `b` keeps that frame in the root, as long as neither the frame's
    end nor the point `maxSectorOverlap` frames back wraps around. -/
theorem frameAt?_trim (c : FragmentCache) (b e : Int64) (f : Signal)
    (hlow : b - Int64.ofNat (maxSectorOverlap * frameWords) < b)
    (hhigh : b < b + Int64.ofNat frameWords) (hf : c.root.frameAt? b = some f) :
    (c.trim b e).root.frameAt? b = some f := by
  obtain ⟨-, -, hend⟩ := c.root.covers_of_frameAt? b f hf
  have hback : (Int64.ofNat (maxSectorOverlap * frameWords)).toInt = 37632 :=
    Int64.toInt_ofNat_of_lt _ (by decide)
  have hframe : (Int64.ofNat frameWords).toInt = 1176 := Int64.toInt_ofNat_of_lt _ (by decide)
  have hmin : (Int64.ofNat minWordsOverlap).toInt = 64 := Int64.toInt_ofNat_of_lt _ (by decide)
  have htarget := Int64.toInt_sub_of_lt _ _ (by decide) hlow
  have hstop := Int64.toInt_add_of_lt _ _ (by decide) hhigh
  rw [hback] at htarget
  rw [hframe] at hstop
  have htarget_min := Int64.le_toInt (b - Int64.ofNat (maxSectorOverlap * frameWords))
  have hb_max := Int64.toInt_le b
  rw [htarget] at htarget_min
  rw [Int64.toInt_maxValue] at hb_max
  have hend' := Int64.le_iff_toInt_le.mp hend
  rw [trim_root]
  dsimp only
  split_ifs with hcond hclear
  · -- the root reaches past the frame, so it is not too short to keep
    exfalso
    have hclear' := Int64.lt_iff_toInt_lt.mp hclear
    have hsum : (b - Int64.ofNat (maxSectorOverlap * frameWords) +
        Int64.ofNat minWordsOverlap).toInt = b.toInt - 37632 + 64 := by
      rw [Int64.toInt_add_of_range _ _ (by rw [htarget, hmin]; omega)
        (by rw [htarget, hmin]; omega), htarget, hmin]
    rw [hsum] at hclear'
    omega
  · rw [c.root.frameAt?_dropBefore _ b (Int64.le_of_lt hcond.2.2) (Int64.le_of_lt hlow), hf]
  · exact hf

/-- With no fragment stored, `trim` stores none either. -/
theorem trim_fragmentOrder_of_empty (c : FragmentCache) (b e : Int64)
    (h : c.fragmentOrder = #[]) : (c.trim b e).fragmentOrder = #[] := by
  simp only [trim, fragmentList, h, Array.toList_empty, List.filterMap_nil, List.filter_nil,
    List.map_nil, List.foldl_nil, foldl_removeBlock_fragmentOrder]

end FragmentCache

end VerifiedRip
