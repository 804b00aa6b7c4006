import VerifiedRip.Proofs.RunScan
/-!
# The backward rift search mirrors the forward one

`Rift.reverseWith` searches backward from a rift that ends at `oa` in `a` and `ob` in `b`: at
each shift it asks whether the samples before the shifted offsets agree, walking down. Read from
the end, the two signals turn that walk into a forward one, from the mirrored offsets
`a.size - 1 - oa` and `b.size - 1 - ob`. The backward count leaves out the pair at the offsets
(`Signal.agreeBackward` is one less than the backward common run), so the backward search with
threshold `t` is the forward search with threshold `t + 1` over the reversed signals.

The stutter tests differ in one case only. The backward search compares the samples past the
offset on one side with those the shift passed over on the other; where that window leaves its
signal, it reports a gap, while the forward search over the reversed signals moves the window
back to index zero and compares fewer samples. So the two answers agree whenever the windows
the backward search compares lie inside both signals (`Rift.StutterWindowsInside`).

## Main statements

* `Signal.runFrom_reverse`: the forward common run of the reversed signals is the backward
  common run.
* `Signal.agreesFor_reverse`: a window of the reversed signals is the mirrored window.
* `Rift.firstShift_congr`: searches whose probes succeed at the same shifts answer alike.
* `Rift.reverseShift_eq_forwardShift`: the backward search lands on the shift the forward search
  over the reversed signals lands on, with the threshold one higher.
* `Rift.reverse_mirrors_forward`: with its stutter windows inside both signals, the backward
  rift analysis is the forward one over the reversed signals, its threshold raised by one.

Signals are taken shorter than `2 ^ 63` samples, as every slice of 16-bit samples is.
-/

namespace VerifiedRip

theorem Int64.ofNat_add_one (n : Nat) : Int64.ofNat n + 1 = Int64.ofNat (n + 1) := by
  rw [Int64.ofNat_add]
  rfl

theorem Int64.ofNat_sub_add_one {n k : Nat} (hk : k ≤ n + 1) :
    Int64.ofNat n - Int64.ofNat k + 1 = Int64.ofNat (n + 1 - k) := by
  rw [Int64.ofNat_sub (n + 1) k hk, ← Int64.ofNat_add_one]
  apply Int64.toBitVec_inj.mp
  simp only [Int64.toBitVec_sub, Int64.toBitVec_add]
  ring

namespace Signal

variable {a b : Signal}

theorem agreeAt_reverse {i j m : Nat} (hi : i < a.size) (hj : j < b.size) :
    AgreeAt a.reverse b.reverse (a.size - 1 - i) (b.size - 1 - j) m ↔ AgreeBack a b i j m := by
  unfold AgreeAt AgreeBack
  by_cases hm : m ≤ i ∧ m ≤ j
  · rw [Array.getElem?_reverse (by omega), Array.getElem?_reverse (by omega),
      show a.size - 1 - (a.size - 1 - i + m) = i - m by omega,
      show b.size - 1 - (b.size - 1 - j + m) = j - m by omega]
    simp only [hm, true_and]
  · -- one of the mirrored positions lies past the end of its reversed signal
    constructor
    · rintro ⟨x, hx, hy⟩
      have hxa := (Array.getElem?_eq_some_iff.mp hx).1
      have hyb := (Array.getElem?_eq_some_iff.mp hy).1
      rw [Array.size_reverse] at hxa hyb
      omega
    · rintro ⟨h1, h2, -⟩
      exact absurd ⟨h1, h2⟩ hm

/-- The forward common run of the reversed signals from the mirrored positions is the backward
    common run. -/
theorem runFrom_reverse {i j : Nat} (hi : i < a.size) (hj : j < b.size) :
    runFrom a.reverse b.reverse (a.size - 1 - i) (b.size - 1 - j) = runUntil a b i j := by
  obtain ⟨hfwd, hstop⟩ := runFrom_spec a.reverse b.reverse (a.size - 1 - i) (b.size - 1 - j)
  obtain ⟨hback, hstop'⟩ := runUntil_spec a b i j
  simp only [agreeAt_reverse hi hj] at hfwd hstop
  -- both runs end at the first distance at which the samples part
  rcases Nat.lt_trichotomy (runFrom a.reverse b.reverse (a.size - 1 - i) (b.size - 1 - j))
    (runUntil a b i j) with h | h | h
  · exact absurd (hback _ h) hstop
  · exact h
  · exact absurd (hfwd _ h) hstop'

/-- A window of the reversed signals is the mirrored window of the signals, read the other
    way. -/
theorem agreesFor_reverse {x y n : Nat} (hx : x + n ≤ a.size) (hy : y + n ≤ b.size) :
    agreesFor a.reverse b.reverse x y n = agreesFor a b (a.size - x - n) (b.size - y - n) n := by
  -- distance `m` into the reversed window is distance `n - 1 - m` into the mirrored one
  have hmirror : ∀ m < n, AgreeAt a.reverse b.reverse x y m ↔
      AgreeAt a b (a.size - x - n) (b.size - y - n) (n - 1 - m) := by
    intro m hm
    unfold AgreeAt
    rw [Array.getElem?_reverse (by omega), Array.getElem?_reverse (by omega),
      show a.size - 1 - (x + m) = a.size - x - n + (n - 1 - m) by omega,
      show b.size - 1 - (y + m) = b.size - y - n + (n - 1 - m) by omega]
  rw [Bool.eq_iff_iff, agreesFor_iff, agreesFor_iff]
  constructor
  · intro h m hm
    have hm' := (hmirror (n - 1 - m) (by omega)).mp (h _ (by omega))
    rwa [show n - 1 - (n - 1 - m) = m by omega] at hm'
  · intro h m hm
    exact (hmirror m hm).mpr (h _ (by omega))

variable (ha : a.size < 2 ^ 63) (hb : b.size < 2 ^ 63)
include ha hb

/-- A backward count reaches `t` exactly when the forward count of the reversed signals from the
    mirrored positions reaches `t + 1`. -/
theorem le_agreeBackward_iff {t i j : Nat} (ht : t + 1 < 2 ^ 63) (hi : i < a.size)
    (hj : j < b.size) :
    Int64.ofNat t ≤ agreeBackward a b (Int64.ofNat i) (Int64.ofNat j) ↔
      Int64.ofNat (t + 1) ≤
        agreeForward a.reverse b.reverse (Int64.ofNat (a.size - 1 - i))
          (Int64.ofNat (b.size - 1 - j)) := by
  rw [Int64.le_iff_toInt_le, Int64.le_iff_toInt_le, toInt_agreeBackward ha hb hi hj,
    toInt_agreeForward (by rwa [Array.size_reverse]) (by omega) (by omega),
    runFrom_reverse hi hj, Int64.toInt_ofNat_of_lt _ (by omega),
    Int64.toInt_ofNat_of_lt _ ht]
  omega

theorem junction_reverse {x y n : Nat} (hx : x + n ≤ a.size) (hy : y + n ≤ b.size) :
    junction a.reverse b.reverse (Int64.ofNat x) (Int64.ofNat y) (Int64.ofNat n) =
      junction a b (Int64.ofNat (a.size - x - n)) (Int64.ofNat (b.size - y - n))
        (Int64.ofNat n) := by
  simp only [junction, if_neg (Int64.not_ofNat_neg (show x < 2 ^ 63 by omega)),
    if_neg (Int64.not_ofNat_neg (show a.size - x - n < 2 ^ 63 by omega)),
    Int64.toIndex_ofNat_of_lt (show x < 2 ^ 63 by omega),
    Int64.toIndex_ofNat_of_lt (show y < 2 ^ 63 by omega),
    Int64.toIndex_ofNat_of_lt (show n < 2 ^ 63 by omega),
    Int64.toIndex_ofNat_of_lt (show a.size - x - n < 2 ^ 63 by omega),
    Int64.toIndex_ofNat_of_lt (show b.size - y - n < 2 ^ 63 by omega), agreesFor_reverse hx hy]

end Signal

namespace Rift

/-! ### Searches that probe alike -/

section Congr

variable {B A C B' A' C' : Int64 → Bool} {aSpan bSpan : Int64}

/-- What the probes find at one shift depends only on the probes the loop may try there. -/
theorem hitAt_congr {i : Nat}
    (hB : (i : Int) < bSpan.toInt → B (Int64.ofNat i) = B' (Int64.ofNat i))
    (hA : (i : Int) < aSpan.toInt → A (Int64.ofNat i) = A' (Int64.ofNat i))
    (hC : (i : Int) < aSpan.toInt → (i : Int) < bSpan.toInt →
      C (Int64.ofNat i) = C' (Int64.ofNat i)) :
    hitAt B A C aSpan bSpan i = hitAt B' A' C' aSpan bSpan i := by
  unfold hitAt
  by_cases hb : (i : Int) < bSpan.toInt <;> by_cases ha : (i : Int) < aSpan.toInt <;>
    simp [hb, ha, hB, hA, hC]

theorem hitAt_eq_some {i : Nat} {r : RiftShift} (h : hitAt B A C aSpan bSpan i = some r) :
    (r = ⟨Int64.ofNat i, 0, 0⟩ ∧ (i : Int) < bSpan.toInt) ∨
      (r = ⟨0, Int64.ofNat i, 0⟩ ∧ (i : Int) < aSpan.toInt) ∨ r = ⟨0, 0, Int64.ofNat i⟩ := by
  unfold hitAt at h
  split_ifs at h with h1 h2 h3 <;> cases h
  exacts [.inl ⟨rfl, h1.1⟩, .inr (.inl ⟨rfl, h2.1⟩), .inr (.inr rfl)]

/-- The search misses at every shift and answers with the zero shift, or answers with what the
    probes find at the first shift at which one succeeds. -/
theorem firstShift_cases :
    (firstShift B A C aSpan bSpan = ⟨0, 0, 0⟩ ∧ ∀ i, hitAt B A C aSpan bSpan i = none) ∨
      ∃ i, (∀ m < i, hitAt B A C aSpan bSpan m = none) ∧
        hitAt B A C aSpan bSpan i = some (firstShift B A C aSpan bSpan) := by
  by_cases hex : ∃ i, (hitAt B A C aSpan bSpan i).isSome
  · obtain ⟨r, hr⟩ := Option.isSome_iff_exists.mp (Nat.find_spec hex)
    have hmiss : ∀ m < Nat.find hex, hitAt B A C aSpan bSpan m = none := fun m hm =>
      Option.not_isSome_iff_eq_none.mp (Nat.find_min hex hm)
    refine .inr ⟨Nat.find hex, hmiss, ?_⟩
    rw [hr, firstShift, firstShift_go_of_hit (Nat.zero_le _) (fun m _ hm => hmiss m hm) hr]
  · have hmiss : ∀ i, hitAt B A C aSpan bSpan i = none := fun i =>
      Option.not_isSome_iff_eq_none.mp fun h => hex ⟨i, h⟩
    exact .inl ⟨firstShift_go_of_miss fun m _ => hmiss m, hmiss⟩

/-- The search answers with the zero shift, or moves `b` by a shift below its span, `a` by a
    shift below its span, or both by a shift. -/
theorem firstShift_shape :
    firstShift B A C aSpan bSpan = ⟨0, 0, 0⟩ ∨
      (∃ i : Nat, (i : Int) < bSpan.toInt ∧
        firstShift B A C aSpan bSpan = ⟨Int64.ofNat i, 0, 0⟩) ∨
      (∃ i : Nat, (i : Int) < aSpan.toInt ∧
        firstShift B A C aSpan bSpan = ⟨0, Int64.ofNat i, 0⟩) ∨
      ∃ i : Nat, firstShift B A C aSpan bSpan = ⟨0, 0, Int64.ofNat i⟩ := by
  rcases @firstShift_cases B A C aSpan bSpan with ⟨h0, -⟩ | ⟨i, -, hi⟩
  · exact .inl h0
  rcases hitAt_eq_some hi with ⟨heq, hspan⟩ | ⟨heq, hspan⟩ | heq
  · exact .inr (.inl ⟨i, hspan, heq⟩)
  · exact .inr (.inr (.inl ⟨i, hspan, heq⟩))
  · exact .inr (.inr (.inr ⟨i, heq⟩))

/-- Searches whose probes succeed at the same shifts answer alike. -/
theorem firstShift_congr (h : ∀ i, hitAt B A C aSpan bSpan i = hitAt B' A' C' aSpan bSpan i) :
    firstShift B A C aSpan bSpan = firstShift B' A' C' aSpan bSpan := by
  rcases @firstShift_cases B A C aSpan bSpan with ⟨h0, hmiss⟩ | ⟨i, hmiss, hi⟩
  · rw [h0, firstShift, firstShift_go_of_miss fun m _ => by rw [← h m]; exact hmiss m]
  · refine (firstShift_go_of_hit (Nat.zero_le i) (fun m _ hm => ?_) ?_).symm
    · rw [← h m]
      exact hmiss m hm
    · rw [← h i]
      exact hi

end Congr

/-- Classifying a shift consults the stutter test of the side it moves, and only that. -/
theorem classify_congr {m : RiftShift} {sA sB sA' sB' : Int64 → Bool}
    (hA : m.a ≠ 0 → sA m.a = sA' m.a) (hB : m.b ≠ 0 → sB m.b = sB' m.b) :
    classify m sA sB = classify m sA' sB' := by
  unfold classify
  by_cases hnone : (m.isNone || m.c != 0) = true
  · rw [if_pos hnone, if_pos hnone]
  rw [if_neg hnone, if_neg hnone]
  by_cases ha : (m.a != 0) = true
  · rw [if_pos ha, if_pos ha, hA (by simpa using ha)]
  · -- with `a` and `c` zero and the answer not empty, `b` is not zero
    have ha0 : m.a = 0 := by simpa using ha
    have hb : m.b ≠ 0 := fun hb0 => hnone (by simp [RiftShift.isNone, ha0, hb0, Decidable.em])
    rw [if_neg ha, if_neg ha, hB hb]

/-! ### The two searches -/

section Mirror

variable {a b : Signal} {oa ob : Nat}

theorem span_reverse {s : Signal} {o : Nat} (hs : s.size < 2 ^ 63) (ho : o < s.size) :
    Int64.ofNat s.reverse.size - Int64.ofNat (s.size - 1 - o) = Int64.ofNat o + 1 := by
  rw [Array.size_reverse, ← Int64.ofNat_sub _ _ (by omega),
    show s.size - (s.size - 1 - o) = o + 1 by omega, Int64.ofNat_add_one]

theorem toInt_ofNat_add_one {o : Nat} (ho : o + 1 < 2 ^ 63) :
    (Int64.ofNat o + 1).toInt = o + 1 := by
  rw [Int64.ofNat_add_one, Int64.toInt_ofNat_of_lt _ ho]
  rfl

variable (ha : a.size < 2 ^ 63) (hb : b.size < 2 ^ 63) (hoa : oa < a.size) (hob : ob < b.size)
include ha hb hoa hob

/-- The backward search lands on the shift that the forward search over the reversed signals,
    from the mirrored offsets, lands on with a threshold one higher. -/
theorem reverseShift_eq_forwardShift {t : Nat} (ht : t + 1 < 2 ^ 63) :
    reverseShift t a b (Int64.ofNat oa) (Int64.ofNat ob) =
      forwardShift (t + 1) a.reverse b.reverse (Int64.ofNat (a.size - 1 - oa))
        (Int64.ofNat (b.size - 1 - ob)) := by
  unfold reverseShift forwardShift
  dsimp only
  rw [span_reverse ha hoa, span_reverse hb hob]
  apply firstShift_congr
  intro i
  -- each probe is tried only below its spans, where the shifted offsets stay inside the signals
  apply hitAt_congr
  · intro hi
    rw [toInt_ofNat_add_one (by omega)] at hi
    rw [← Int64.ofNat_sub ob i (by omega), ← Int64.ofNat_add (b.size - 1 - ob) i,
      show b.size - 1 - ob + i = b.size - 1 - (ob - i) by omega]
    exact decide_eq_decide.mpr (Signal.le_agreeBackward_iff ha hb ht hoa (by omega))
  · intro hi
    rw [toInt_ofNat_add_one (by omega)] at hi
    rw [← Int64.ofNat_sub oa i (by omega), ← Int64.ofNat_add (a.size - 1 - oa) i,
      show a.size - 1 - oa + i = a.size - 1 - (oa - i) by omega]
    exact decide_eq_decide.mpr (Signal.le_agreeBackward_iff ha hb ht (by omega) hob)
  · intro hia hib
    rw [toInt_ofNat_add_one (by omega)] at hia hib
    rw [← Int64.ofNat_sub oa i (by omega), ← Int64.ofNat_sub ob i (by omega),
      ← Int64.ofNat_add (a.size - 1 - oa) i, ← Int64.ofNat_add (b.size - 1 - ob) i,
      show a.size - 1 - oa + i = a.size - 1 - (oa - i) by omega,
      show b.size - 1 - ob + i = b.size - 1 - (ob - i) by omega]
    exact decide_eq_decide.mpr (Signal.le_agreeBackward_iff ha hb ht (by omega) (by omega))

/-- The backward search lands on no shift, moves `b` back by at most `ob`, moves `a` back by at
    most `oa`, or moves both. -/
theorem reverseShift_cases {t : Nat} :
    reverseShift t a b (Int64.ofNat oa) (Int64.ofNat ob) = ⟨0, 0, 0⟩ ∨
      (∃ k ≤ ob, reverseShift t a b (Int64.ofNat oa) (Int64.ofNat ob) = ⟨Int64.ofNat k, 0, 0⟩) ∨
      (∃ k ≤ oa, reverseShift t a b (Int64.ofNat oa) (Int64.ofNat ob) = ⟨0, Int64.ofNat k, 0⟩) ∨
      ∃ k, reverseShift t a b (Int64.ofNat oa) (Int64.ofNat ob) = ⟨0, 0, Int64.ofNat k⟩ := by
  have hoa' := toInt_ofNat_add_one (show oa + 1 < 2 ^ 63 by omega)
  have hob' := toInt_ofNat_add_one (show ob + 1 < 2 ^ 63 by omega)
  unfold reverseShift
  dsimp only
  refine firstShift_shape.imp id (Or.imp ?_ (Or.imp ?_ id))
  · rintro ⟨k, hk, h⟩
    exact ⟨k, by omega, h⟩
  · rintro ⟨k, hk, h⟩
    exact ⟨k, by omega, h⟩

/-- Where the backward search moves `b`, it moves `b` alone, back by at most `ob`. -/
theorem reverseShift_of_a_ne_zero {t : Nat}
    (h : (reverseShift t a b (Int64.ofNat oa) (Int64.ofNat ob)).a ≠ 0) :
    ∃ k ≤ ob, reverseShift t a b (Int64.ofNat oa) (Int64.ofNat ob) = ⟨Int64.ofNat k, 0, 0⟩ := by
  rcases reverseShift_cases ha hb hoa hob with h' | hB | ⟨k, -, h'⟩ | ⟨k, h'⟩
  · exact absurd (by rw [h']) h
  · exact hB
  · exact absurd (by rw [h']) h
  · exact absurd (by rw [h']) h

theorem reverseShift_of_b_ne_zero {t : Nat}
    (h : (reverseShift t a b (Int64.ofNat oa) (Int64.ofNat ob)).b ≠ 0) :
    ∃ k ≤ oa, reverseShift t a b (Int64.ofNat oa) (Int64.ofNat ob) = ⟨0, Int64.ofNat k, 0⟩ := by
  rcases reverseShift_cases ha hb hoa hob with h' | ⟨k, -, h'⟩ | hA | ⟨k, h'⟩
  · exact absurd (by rw [h']) h
  · exact absurd (by rw [h']) h
  · exact hA
  · exact absurd (by rw [h']) h

/-- Where the window past `oa` fits in `a`, the stutter test of a backward shift of `b` by `k`
    is the forward one over the reversed signals. -/
theorem junction_stutter_reverse {k : Nat} (hk : k ≤ ob + 1) (hfit : oa + 1 + k ≤ a.size) :
    Signal.junction a.reverse b.reverse (Int64.ofNat (a.size - 1 - oa) - Int64.ofNat k)
        (Int64.ofNat (b.size - 1 - ob)) (Int64.ofNat k) =
      Signal.junction a b (Int64.ofNat oa + 1) (Int64.ofNat ob - Int64.ofNat k + 1)
        (Int64.ofNat k) := by
  rw [← Int64.ofNat_sub (a.size - 1 - oa) k (by omega),
    Signal.junction_reverse ha hb (by omega) (by omega), Int64.ofNat_sub_add_one hk,
    Int64.ofNat_add_one oa, show a.size - (a.size - 1 - oa - k) - k = oa + 1 by omega,
    show b.size - (b.size - 1 - ob) - k = ob + 1 - k by omega]

end Mirror

/-- The stutter tests of the backward search compare windows inside both signals: once it has
    moved `b` back by `n`, `a` on `[oa + 1, oa + 1 + n)` against `b` on `[ob + 1 - n, ob + 1)`;
    once it has moved `a` back by `n`, `b` on `[ob + 1, ob + 1 + n)` against `a` on
    `[oa + 1 - n, oa + 1)`. -/
def StutterWindowsInside (threshold : Nat) (a b : Signal) (oa ob : Nat) : Prop :=
  let m := reverseShift threshold a b (Int64.ofNat oa) (Int64.ofNat ob)
  (m.a ≠ 0 → (oa : Int) + 1 + m.a.toInt ≤ a.size ∧ 0 ≤ (ob : Int) + 1 - m.a.toInt) ∧
    (m.b ≠ 0 → (ob : Int) + 1 + m.b.toInt ≤ b.size ∧ 0 ≤ (oa : Int) + 1 - m.b.toInt)

instance (threshold : Nat) (a b : Signal) (oa ob : Nat) :
    Decidable (StutterWindowsInside threshold a b oa ob) :=
  inferInstanceAs (Decidable (_ ∧ _))

section Mirror

variable {a b : Signal} {oa ob : Nat}
  (ha : a.size < 2 ^ 63) (hb : b.size < 2 ^ 63) (hoa : oa < a.size) (hob : ob < b.size)
include ha hb hoa hob

/-- With its stutter windows inside both signals, the backward search with threshold `t`
    answers as the forward search over the reversed signals, from the mirrored offsets, with
    threshold `t + 1`. -/
theorem reverseWith_eq_forwardWith {t : Nat} (ht : t + 1 < 2 ^ 63)
    (hfit : StutterWindowsInside t a b oa ob) :
    reverseWith t a b (Int64.ofNat oa) (Int64.ofNat ob) =
      forwardWith (t + 1) a.reverse b.reverse (Int64.ofNat (a.size - 1 - oa))
        (Int64.ofNat (b.size - 1 - ob)) := by
  dsimp only [StutterWindowsInside] at hfit
  obtain ⟨hfitA, hfitB⟩ := hfit
  unfold reverseWith forwardWith
  rw [← reverseShift_eq_forwardShift ha hb hoa hob ht]
  apply classify_congr
  · -- the search moved `b` back by `k`: `a` past `oa` against what `b` passed over
    intro hA
    obtain ⟨k, hk, hS⟩ := reverseShift_of_a_ne_zero ha hb hoa hob hA
    rw [hS] at hA hfitA ⊢
    have hfit := (hfitA hA).1
    rw [Int64.toInt_ofNat_of_lt k (by omega)] at hfit
    dsimp only
    rw [junction_stutter_reverse ha hb hoa hob (by omega) (by omega)]
  · -- the search moved `a` back by `k`: `b` past `ob` against what `a` passed over
    intro hB
    obtain ⟨k, hk, hS⟩ := reverseShift_of_b_ne_zero ha hb hoa hob hB
    rw [hS] at hB hfitB ⊢
    have hfit := (hfitB hB).1
    rw [Int64.toInt_ofNat_of_lt k (by omega)] at hfit
    dsimp only
    rw [junction_stutter_reverse hb ha hob hoa (by omega) (by omega)]

end Mirror

-- `b` moves back by 2 from the last sample of `a`: the backward analysis keeps the gap, while the
-- forward one over the reversed signals tests an empty window and finds a stutter
example : reverse risingRun ((risingRun.push 77).push 88) (Int64.ofNat 39) (Int64.ofNat 41) =
      ⟨2, 0, 0⟩ ∧
    forwardWith (minWordsRift + 1) risingRun.reverse ((risingRun.push 77).push 88).reverse 0 0 =
      ⟨0, -2, 0⟩ := by
  decide +kernel

/-- With the windows its stutter tests compare inside both signals, the backward rift analysis
    from `oa` in `a` and `ob` in `b` is the forward one over the reversed signals from the
    mirrored offsets `a.size - 1 - oa` and `b.size - 1 - ob`, its resync threshold raised from
    `minWordsRift` to `minWordsRift + 1`: the backward count leaves out the pair at the
    offsets. -/
theorem reverse_mirrors_forward {a b : Signal} {oa ob : Nat} (ha : a.size < 2 ^ 63)
    (hb : b.size < 2 ^ 63) (hoa : oa < a.size) (hob : ob < b.size)
    (hfit : StutterWindowsInside minWordsRift a b oa ob) :
    reverse a b (Int64.ofNat oa) (Int64.ofNat ob) =
      forwardWith (minWordsRift + 1) a.reverse b.reverse (Int64.ofNat (a.size - 1 - oa))
        (Int64.ofNat (b.size - 1 - ob)) :=
  reverseWith_eq_forwardWith ha hb hoa hob (by decide) hfit

theorem reverse_mirrors_forward_droppedRun :
    StutterWindowsInside minWordsRift risingRun droppedRun 22 19 ∧
      reverse risingRun droppedRun (Int64.ofNat 22) (Int64.ofNat 19) =
        forwardWith (minWordsRift + 1) risingRun.reverse droppedRun.reverse (Int64.ofNat 17)
          (Int64.ofNat 17) := by
  have hfit : StutterWindowsInside minWordsRift risingRun droppedRun 22 19 := by decide +kernel
  exact ⟨hfit, reverse_mirrors_forward (by decide) (by decide) (by decide) (by decide) hfit⟩

end Rift

end VerifiedRip

