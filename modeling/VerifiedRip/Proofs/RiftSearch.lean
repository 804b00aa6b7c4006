import VerifiedRip.Match.Rift
import VerifiedRip.Proofs.RootFrame
/-!
# The forward rift search finds the least shift

Two reads that part at a rift are searched for the first shift after which they agree again
for `minWordsRift` samples (`Rift.forward`). At each shift three resyncs are tried in a fixed
order: `b` moved on alone (`Rift.SkipsB`), `a` moved on alone (`Rift.SkipsA`), both moved on
together (`Rift.SkipsBoth`). The first shift at which one holds decides the answer, and a
one-sided shift is then told apart as a gap to fill or a stutter to remove by
`Signal.junction`.

## Main definitions

- `Rift.Resyncs a b oa ob i` — some resync holds at shift `i`.
- `Rift.answerAt a b oa ob i` — the answer the search owes when `i` is the least such shift.

## Main statements

- `Signal.le_runFrom_iff`: a common run reaches `n` exactly when the windows of `n` samples
  agree.
- `Rift.firstShift_go_of_hit`, `Rift.firstShift_go_of_miss`: the search loop answers with the
  first shift at which a probe succeeds, and with nothing if none does.
- `Rift.forward_cases`: the search finds nothing, or answers for the least resyncing shift.
- `Rift.forward_finds_least_shift`: from a rift, the answer has at most one non-zero field, is
  empty exactly when nothing resyncs, and is otherwise the one owed for the least shift.

Signals are taken shorter than `2 ^ 63` samples, as every slice of 16-bit samples is, so that
lengths, offsets and shifts are words that do not wrap.
-/

namespace VerifiedRip

/-! ### Shifts as words -/

section Words

variable {i : Nat}

/-- A shift below `2 ^ 63` indexes itself. -/
theorem Int64.toIndex_ofNat_of_lt (h : i < 2 ^ 63) : Int64.toIndex (Int64.ofNat i) = i := by
  unfold Int64.toIndex
  simp
  omega

/-- Every word is the index it reads as. -/
theorem Int64.ofNat_toIndex (x : Int64) : Int64.ofNat (Int64.toIndex x) = x := by
  unfold Int64.toIndex
  apply Int64.toBitVec_inj.mp
  simp

theorem Int64.not_ofNat_neg (h : i < 2 ^ 63) : ¬ Int64.ofNat i < 0 := by
  rw [Int64.lt_iff_toInt_lt, Int64.toInt_ofNat_of_lt _ h, Int64.toInt_zero]
  omega

theorem Int64.not_neg_ofNat_pos (h : i < 2 ^ 63) : ¬ 0 < -Int64.ofNat i := by
  rw [Int64.lt_iff_toInt_lt, Int64.toInt_neg, Int64.toInt_ofNat_of_lt _ h, Int64.toInt_zero]
  simp only [Int.bmod]
  split <;> omega

end Words

namespace Signal

/-- The samples of `a` at `i + m` and of `b` at `j + m` are both there and equal. -/
def AgreeAt (a b : Signal) (i j m : Nat) : Prop := ∃ x, a[i + m]? = some x ∧ b[j + m]? = some x

/-- The common run counted from `n` agrees at every distance below its length and parts at its
    length. -/
theorem runFrom_go_spec (a b : Signal) (i j n : Nat) (h : ∀ m < n, AgreeAt a b i j m) :
    (∀ m < runFrom.go a b i j n, AgreeAt a b i j m) ∧ ¬ AgreeAt a b i j (runFrom.go a b i j n) := by
  fun_induction runFrom.go a b i j n with
  | case1 n hin heq ih =>
    -- the samples at distance `n` agree: the run goes on
    apply ih
    intro m hm
    rcases Nat.lt_succ_iff_lt_or_eq.mp hm with hm | rfl
    · exact h m hm
    · exact ⟨a[i + m], by simp [hin.1], by simp [hin.2, heq]⟩
  | case2 n hin hne =>
    refine ⟨h, ?_⟩
    rintro ⟨x, hx, hy⟩
    simp only [Array.getElem?_eq_getElem hin.1, Array.getElem?_eq_getElem hin.2,
      Option.some.injEq] at hx hy
    exact hne (hx.trans hy.symm)
  | case3 n hout =>
    refine ⟨h, ?_⟩
    rintro ⟨x, hx, hy⟩
    exact hout ⟨(Array.getElem?_eq_some_iff.mp hx).1, (Array.getElem?_eq_some_iff.mp hy).1⟩

/-- The common run of `a` from `i` and `b` from `j` agrees at every distance below its length
    and parts at its length. -/
theorem runFrom_spec (a b : Signal) (i j : Nat) :
    (∀ m < runFrom a b i j, AgreeAt a b i j m) ∧ ¬ AgreeAt a b i j (runFrom a b i j) :=
  runFrom_go_spec a b i j 0 (by simp)

/-- The common run of `a` from `i` and `b` from `j` reaches `n` exactly when their windows of
    `n` samples agree. -/
theorem le_runFrom_iff {a b : Signal} {i j n : Nat} :
    n ≤ runFrom a b i j ↔ agreesFor a b i j n = true := by
  obtain ⟨hrun, hstop⟩ := runFrom_spec a b i j
  rw [agreesFor_iff]
  constructor
  · intro hn m hm
    exact hrun m (by omega)
  · intro hall
    by_contra hlt
    exact hstop (hall _ (by omega))

/-- The common run stays inside `a`. -/
theorem runFrom_le (a b : Signal) (i j : Nat) : runFrom a b i j ≤ a.size - i := by
  obtain ⟨hrun, -⟩ := runFrom_spec a b i j
  rcases Nat.eq_zero_or_pos (runFrom a b i j) with h0 | hpos
  · omega
  · obtain ⟨x, hx, -⟩ := hrun (runFrom a b i j - 1) (by omega)
    have := (Array.getElem?_eq_some_iff.mp hx).1
    omega

/-- From offsets that are words, the count of agreeing samples is the common run. -/
theorem toInt_agreeForward {a b : Signal} {i j : Nat} (ha : a.size < 2 ^ 63) (hi : i < 2 ^ 63)
    (hj : j < 2 ^ 63) :
    (agreeForward a b (Int64.ofNat i) (Int64.ofNat j)).toInt = runFrom a b i j := by
  have hrun := runFrom_le a b i j
  unfold agreeForward
  rw [if_neg (by rintro (h | h); exacts [Int64.not_ofNat_neg hi h, Int64.not_ofNat_neg hj h]),
    Int64.toIndex_ofNat_of_lt hi, Int64.toIndex_ofNat_of_lt hj,
    Int64.toInt_ofNat_of_lt _ (by omega)]

/-- From offsets that are words, a count of agreeing samples reaches `t` exactly when the
    windows of `t` samples agree. -/
theorem le_agreeForward_iff {a b : Signal} {i j t : Nat} (ha : a.size < 2 ^ 63) (hi : i < 2 ^ 63)
    (hj : j < 2 ^ 63) (ht : t < 2 ^ 63) :
    Int64.ofNat t ≤ agreeForward a b (Int64.ofNat i) (Int64.ofNat j) ↔
      agreesFor a b i j t = true := by
  rw [Int64.le_iff_toInt_le, Int64.toInt_ofNat_of_lt t ht, toInt_agreeForward ha hi hj,
    Int.ofNat_le, le_runFrom_iff]

end Signal

/-- At most one field is non-zero. -/
def RiftShift.Single (m : RiftShift) : Prop :=
  (m.b = 0 ∧ m.c = 0) ∨ (m.a = 0 ∧ m.c = 0) ∨ (m.a = 0 ∧ m.b = 0)

namespace Rift

section Search

variable (alongB alongA both : Int64 → Bool) (aSpan bSpan : Int64)

/-- What the search loop finds at shift `i`: the first probe that succeeds there, each tried
    only below the spans the loop allows it, in the loop's order. -/
def hitAt (i : Nat) : Option RiftShift :=
  if (i : Int) < bSpan.toInt ∧ alongB (Int64.ofNat i) then some ⟨Int64.ofNat i, 0, 0⟩
  else if (i : Int) < aSpan.toInt ∧ alongA (Int64.ofNat i) then some ⟨0, Int64.ofNat i, 0⟩
  else if (i : Int) < aSpan.toInt ∧ (i : Int) < bSpan.toInt ∧ both (Int64.ofNat i) then
    some ⟨0, 0, Int64.ofNat i⟩
  else none

variable {alongB alongA both aSpan bSpan}

/-- A shift at which no probe succeeds finds nothing. -/
theorem hitAt_eq_none {i : Nat} (hB : ¬((i : Int) < bSpan.toInt ∧ alongB (Int64.ofNat i)))
    (hA : ¬((i : Int) < aSpan.toInt ∧ alongA (Int64.ofNat i)))
    (hC : ¬((i : Int) < aSpan.toInt ∧ (i : Int) < bSpan.toInt ∧ both (Int64.ofNat i))) :
    hitAt alongB alongA both aSpan bSpan i = none := by
  rw [hitAt, if_neg hB, if_neg hA, if_neg hC]

/-- Of two shifts that find something with nothing found between them, the first is the
    second. -/
theorem eq_of_hitAt {i j : Nat} (hij : i ≤ j)
    (hmiss : ∀ m, i ≤ m → m < j → hitAt alongB alongA both aSpan bSpan m = none)
    {x r : RiftShift} (hi : hitAt alongB alongA both aSpan bSpan i = some x)
    (hj : hitAt alongB alongA both aSpan bSpan j = some r) : x = r := by
  rcases Nat.lt_or_eq_of_le hij with hlt | rfl
  · rw [hmiss i (Nat.le_refl i) hlt] at hi
    cases hi
  · rw [hi] at hj
    exact Option.some.inj hj

/-- The loop stops at the first shift at which a probe succeeds and answers with it. -/
theorem firstShift_go_of_hit {i j : Nat} (hij : i ≤ j)
    (hmiss : ∀ m, i ≤ m → m < j → hitAt alongB alongA both aSpan bSpan m = none)
    {r : RiftShift} (hj : hitAt alongB alongA both aSpan bSpan j = some r) :
    firstShift.go alongB alongA both aSpan bSpan i = r := by
  fun_induction firstShift.go alongB alongA both aSpan bSpan i with
  | case1 i w hB => exact eq_of_hitAt hij hmiss (by rw [hitAt, if_pos hB]) hj
  | case2 i w hB hA hA' => exact eq_of_hitAt hij hmiss (by rw [hitAt, if_neg hB, if_pos ⟨hA, hA'⟩]) hj
  | case3 i w hB hA hA' hC =>
    exact eq_of_hitAt hij hmiss
      (by rw [hitAt, if_neg hB, if_neg (fun h => hA' h.2), if_pos ⟨hA, hC⟩]) hj
  | case4 i w hB hA hA' hC ih =>
    -- nothing is found at `i`, so `j` lies further on
    have hnone : hitAt alongB alongA both aSpan bSpan i = none :=
      hitAt_eq_none hB (fun h => hA' h.2) (fun h => hC h.2)
    refine ih ?_ (fun m hm hmj => hmiss m (by omega) hmj)
    rcases Nat.lt_or_eq_of_le hij with hlt | rfl
    · exact hlt
    · rw [hnone] at hj
      cases hj
  | case5 i w hB hA hpast =>
    have hnone : hitAt alongB alongA both aSpan bSpan j = none :=
      hitAt_eq_none (fun h => by omega) (fun h => by omega) (fun h => by omega)
    rw [hnone] at hj
    cases hj
  | case6 i w hB hA hpast ih =>
    have hnone : hitAt alongB alongA both aSpan bSpan i = none :=
      hitAt_eq_none hB (fun h => hA h.1) (fun h => hA h.1)
    refine ih ?_ (fun m hm hmj => hmiss m (by omega) hmj)
    rcases Nat.lt_or_eq_of_le hij with hlt | rfl
    · exact hlt
    · rw [hnone] at hj
      cases hj

/-- A loop that finds nothing from `i` on answers with the zero shift. -/
theorem firstShift_go_of_miss {i : Nat}
    (hmiss : ∀ m, i ≤ m → hitAt alongB alongA both aSpan bSpan m = none) :
    firstShift.go alongB alongA both aSpan bSpan i = ⟨0, 0, 0⟩ := by
  have hi := hmiss i (Nat.le_refl i)
  fun_induction firstShift.go alongB alongA both aSpan bSpan i with
  | case1 i w hB => rw [hitAt, if_pos hB] at hi; cases hi
  | case2 i w hB hA hA' => rw [hitAt, if_neg hB, if_pos ⟨hA, hA'⟩] at hi; cases hi
  | case3 i w hB hA hA' hC =>
    rw [hitAt, if_neg hB, if_neg (fun h => hA' h.2), if_pos ⟨hA, hC⟩] at hi
    cases hi
  | case4 i w hB hA hA' hC ih => exact ih (fun m hm => hmiss m (by omega)) (hmiss _ (by omega))
  | case5 i w hB hA hpast => rfl
  | case6 i w hB hA hpast ih => exact ih (fun m hm => hmiss m (by omega)) (hmiss _ (by omega))
end Search

section Classify

variable (sA sB : Int64 → Bool) (w : Int64)

/-- A shift of `b` alone becomes a removal from `b` when the extra samples are a stutter. -/
theorem classify_skipB : classify ⟨w, 0, 0⟩ sA sB = if sA w then ⟨0, -w, 0⟩ else ⟨w, 0, 0⟩ := by
  by_cases hw : w = 0
  · subst hw
    by_cases h : sA 0 <;> simp [classify, RiftShift.isNone, h]
  · simp [classify, RiftShift.isNone, hw]

/-- A shift of `a` alone becomes a removal from `a` when the extra samples are a stutter. -/
theorem classify_skipA : classify ⟨0, w, 0⟩ sA sB = if sB w then ⟨-w, 0, 0⟩ else ⟨0, w, 0⟩ := by
  by_cases hw : w = 0
  · subst hw
    by_cases h : sB 0 <;> simp [classify, RiftShift.isNone, h]
  · simp [classify, RiftShift.isNone, hw]

/-- A shift of both sides is kept as it is. -/
theorem classify_skipBoth : classify ⟨0, 0, w⟩ sA sB = ⟨0, 0, w⟩ := by
  by_cases hw : w = 0 <;> simp [classify, RiftShift.isNone, hw]

end Classify

/-! ### The three resyncs and the answer owed -/

section Spec

variable (a b : Signal) (oa ob i : Nat)

/-- `a` from `oa` agrees with `b` from `ob + i` for `minWordsRift` samples: moving `b` on by
    `i` samples resyncs. -/
def SkipsB : Prop := i < b.size - ob ∧ Signal.agreesFor a b oa (ob + i) minWordsRift = true

/-- `a` from `oa + i` agrees with `b` from `ob`: moving `a` on by `i` samples resyncs. -/
def SkipsA : Prop := i < a.size - oa ∧ Signal.agreesFor a b (oa + i) ob minWordsRift = true

/-- `a` from `oa + i` agrees with `b` from `ob + i`: `i` samples of garbage on both sides. -/
def SkipsBoth : Prop :=
  i < a.size - oa ∧ i < b.size - ob ∧ Signal.agreesFor a b (oa + i) (ob + i) minWordsRift = true

/-- Some resync holds at shift `i`. -/
def Resyncs : Prop := SkipsB a b oa ob i ∨ SkipsA a b oa ob i ∨ SkipsBoth a b oa ob i

instance : Decidable (SkipsB a b oa ob i) := inferInstanceAs (Decidable (_ ∧ _))

instance : Decidable (SkipsA a b oa ob i) := inferInstanceAs (Decidable (_ ∧ _))

instance : Decidable (SkipsBoth a b oa ob i) := inferInstanceAs (Decidable (_ ∧ _ ∧ _))

instance : Decidable (Resyncs a b oa ob i) := inferInstanceAs (Decidable (_ ∨ _ ∨ _))

/-- The answer owed when `i` is the least shift that resyncs: the first resync that holds
    there, in the search's order, a one-sided one turned into a removal when the extra samples
    repeat the other side. -/
def answerAt : RiftShift :=
  let w := Int64.ofNat i
  if SkipsB a b oa ob i then
    if Signal.junction a b (Int64.ofNat oa - w) (Int64.ofNat ob) w = .stutter then ⟨0, -w, 0⟩
    else ⟨w, 0, 0⟩
  else if SkipsA a b oa ob i then
    if Signal.junction b a (Int64.ofNat ob - w) (Int64.ofNat oa) w = .stutter then ⟨-w, 0, 0⟩
    else ⟨0, w, 0⟩
  else ⟨0, 0, w⟩

end Spec

/-! ### The search against the specification -/

section Forward

variable {a b : Signal} {oa ob : Nat}

/-- The distance from an offset to the end of a signal, as a word. -/
theorem toInt_span {s : Signal} {o : Nat} (hs : s.size < 2 ^ 63) (ho : o ≤ s.size) :
    (Int64.ofNat s.size - Int64.ofNat o).toInt = ((s.size - o : Nat) : Int) := by
  rw [← Int64.ofNat_sub _ _ ho, Int64.toInt_ofNat_of_lt _ (by omega)]

/-- A probe of `forward` tried below its span, at offsets that stay words there, tests the
    window of `minWordsRift` samples. -/
theorem span_probe_iff (ha : a.size < 2 ^ 63) {s : Signal} {o x y i : Nat} (hs : s.size < 2 ^ 63)
    (ho : o ≤ s.size) (hxy : i < s.size - o → x < 2 ^ 63 ∧ y < 2 ^ 63) :
    ((i : Int) < (Int64.ofNat s.size - Int64.ofNat o).toInt ∧
        decide (Int64.ofNat minWordsRift ≤ a.agreeForward b (Int64.ofNat x) (Int64.ofNat y)) = true) ↔
      i < s.size - o ∧ Signal.agreesFor a b x y minWordsRift = true := by
  rw [toInt_span hs ho, Int.ofNat_lt]
  refine and_congr_right fun hi => ?_
  rw [decide_eq_true_iff]
  exact Signal.le_agreeForward_iff ha (hxy hi).1 (hxy hi).2 (by decide)

/-- The loop of `forward` finds at each shift what the three resyncs say. -/
theorem hitAt_forward (ha : a.size < 2 ^ 63) (hb : b.size < 2 ^ 63) (hoa : oa ≤ a.size)
    (hob : ob ≤ b.size) (i : Nat) :
    hitAt
      (fun i => decide (Int64.ofNat minWordsRift ≤
        a.agreeForward b (Int64.ofNat oa) (Int64.ofNat ob + i)))
      (fun i => decide (Int64.ofNat minWordsRift ≤
        a.agreeForward b (Int64.ofNat oa + i) (Int64.ofNat ob)))
      (fun i => decide (Int64.ofNat minWordsRift ≤
        a.agreeForward b (Int64.ofNat oa + i) (Int64.ofNat ob + i)))
      (Int64.ofNat a.size - Int64.ofNat oa) (Int64.ofNat b.size - Int64.ofNat ob) i =
      if SkipsB a b oa ob i then some ⟨Int64.ofNat i, 0, 0⟩
      else if SkipsA a b oa ob i then some ⟨0, Int64.ofNat i, 0⟩
      else if SkipsBoth a b oa ob i then some ⟨0, 0, Int64.ofNat i⟩
      else none := by
  -- each probe is only tried below its spans, where the shifted offsets stay words
  have hB := @span_probe_iff a b ha b ob oa (ob + i) i hb hob fun _ => ⟨by omega, by omega⟩
  have hA := @span_probe_iff a b ha a oa (oa + i) ob i ha hoa fun _ => ⟨by omega, by omega⟩
  have hC : ((i : Int) < (Int64.ofNat a.size - Int64.ofNat oa).toInt ∧
      (i : Int) < (Int64.ofNat b.size - Int64.ofNat ob).toInt ∧
      decide (Int64.ofNat minWordsRift ≤
        a.agreeForward b (Int64.ofNat oa + Int64.ofNat i) (Int64.ofNat ob + Int64.ofNat i)) = true) ↔
      SkipsBoth a b oa ob i := by
    rw [toInt_span ha hoa, Int.ofNat_lt, SkipsBoth, ← Int64.ofNat_add, ← Int64.ofNat_add]
    exact and_congr_right fun hia =>
      @span_probe_iff a b ha b ob (oa + i) (ob + i) i hb hob fun _ => ⟨by omega, by omega⟩
  rw [Int64.ofNat_add] at hB hA
  simp only [hitAt]
  rw [if_congr hB rfl rfl, if_congr hA rfl rfl, if_congr hC rfl rfl]
  rfl

/-- `forward` on offsets that are words: its loop, then the classification of what it found. -/
theorem forward_ofNat (oa ob : Nat) :
    forward a b (Int64.ofNat oa) (Int64.ofNat ob) =
      classify
        (firstShift
          (fun i => decide (Int64.ofNat minWordsRift ≤
            a.agreeForward b (Int64.ofNat oa) (Int64.ofNat ob + i)))
          (fun i => decide (Int64.ofNat minWordsRift ≤
            a.agreeForward b (Int64.ofNat oa + i) (Int64.ofNat ob)))
          (fun i => decide (Int64.ofNat minWordsRift ≤
            a.agreeForward b (Int64.ofNat oa + i) (Int64.ofNat ob + i)))
          (Int64.ofNat a.size - Int64.ofNat oa) (Int64.ofNat b.size - Int64.ofNat ob))
        (fun n => a.junction b (Int64.ofNat oa - n) (Int64.ofNat ob) n == .stutter)
        (fun n => b.junction a (Int64.ofNat ob - n) (Int64.ofNat oa) n == .stutter) := rfl

variable (ha : a.size < 2 ^ 63) (hb : b.size < 2 ^ 63) (hoa : oa ≤ a.size) (hob : ob ≤ b.size)
include ha hb hoa hob

/-- When nothing resyncs, the search answers with the zero shift. -/
theorem forward_of_not_resyncs (hnone : ∀ i, ¬ Resyncs a b oa ob i) :
    forward a b (Int64.ofNat oa) (Int64.ofNat ob) = ⟨0, 0, 0⟩ := by
  rw [forward_ofNat, firstShift, firstShift_go_of_miss, classify_skipBoth]
  intro m _
  have h := hnone m
  rw [Resyncs, not_or, not_or] at h
  rw [hitAt_forward ha hb hoa hob, if_neg h.1, if_neg h.2.1, if_neg h.2.2]

/-- When `i` is the least shift that resyncs, the search answers as owed for it. -/
theorem forward_of_least {i : Nat} (hi : Resyncs a b oa ob i)
    (hleast : ∀ j < i, ¬ Resyncs a b oa ob j) :
    forward a b (Int64.ofNat oa) (Int64.ofNat ob) = answerAt a b oa ob i := by
  have hmiss : ∀ m, 0 ≤ m → m < i → hitAt _ _ _ (Int64.ofNat a.size - Int64.ofNat oa)
      (Int64.ofNat b.size - Int64.ofNat ob) m = none := fun m _ hm => by
    have h := hleast m hm
    rw [Resyncs, not_or, not_or] at h
    rw [hitAt_forward ha hb hoa hob, if_neg h.1, if_neg h.2.1, if_neg h.2.2]
  rw [forward_ofNat, firstShift, answerAt]
  by_cases hB : SkipsB a b oa ob i
  · rw [firstShift_go_of_hit (Nat.zero_le i) hmiss
      (by rw [hitAt_forward ha hb hoa hob, if_pos hB]), classify_skipB, if_pos hB]
    simp only [beq_iff_eq]
  by_cases hA : SkipsA a b oa ob i
  · rw [firstShift_go_of_hit (Nat.zero_le i) hmiss
      (by rw [hitAt_forward ha hb hoa hob, if_neg hB, if_pos hA]), classify_skipA, if_neg hB,
      if_pos hA]
    simp only [beq_iff_eq]
  have hC : SkipsBoth a b oa ob i := by
    rcases hi with h | h | h
    exacts [absurd h hB, absurd h hA, h]
  rw [firstShift_go_of_hit (Nat.zero_le i) hmiss
    (by rw [hitAt_forward ha hb hoa hob, if_neg hB, if_neg hA, if_pos hC]), classify_skipBoth,
    if_neg hB, if_neg hA]

/-- The search finds nothing and nothing resyncs, or it answers as owed for the least shift that
    resyncs. -/
theorem forward_cases :
    (forward a b (Int64.ofNat oa) (Int64.ofNat ob) = ⟨0, 0, 0⟩ ∧ ∀ i, ¬ Resyncs a b oa ob i) ∨
      ∃ i, Resyncs a b oa ob i ∧ (∀ j < i, ¬ Resyncs a b oa ob j) ∧
        forward a b (Int64.ofNat oa) (Int64.ofNat ob) = answerAt a b oa ob i := by
  by_cases hex : ∃ i, Resyncs a b oa ob i
  · refine .inr ⟨Nat.find hex, Nat.find_spec hex, fun j hj => Nat.find_min hex hj, ?_⟩
    exact forward_of_least ha hb hoa hob (Nat.find_spec hex) fun j hj => Nat.find_min hex hj
  · have hnone : ∀ i, ¬ Resyncs a b oa ob i := fun i hi => hex ⟨i, hi⟩
    exact .inl ⟨forward_of_not_resyncs ha hb hoa hob hnone, hnone⟩

/-- What the signs of the answer say: a positive `a` or a negative `b` comes from moving `b` on,
    a negative `a` or a positive `b` from moving `a` on, each by the size of the field. -/
theorem forward_signs :
    (0 < (forward a b (Int64.ofNat oa) (Int64.ofNat ob)).a →
      SkipsB a b oa ob (Int64.toIndex (forward a b (Int64.ofNat oa) (Int64.ofNat ob)).a)) ∧
    ((forward a b (Int64.ofNat oa) (Int64.ofNat ob)).a < 0 →
      SkipsA a b oa ob (Int64.toIndex (-(forward a b (Int64.ofNat oa) (Int64.ofNat ob)).a))) ∧
    (0 < (forward a b (Int64.ofNat oa) (Int64.ofNat ob)).b →
      SkipsA a b oa ob (Int64.toIndex (forward a b (Int64.ofNat oa) (Int64.ofNat ob)).b)) ∧
    ((forward a b (Int64.ofNat oa) (Int64.ofNat ob)).b < 0 →
      SkipsB a b oa ob (Int64.toIndex (-(forward a b (Int64.ofNat oa) (Int64.ofNat ob)).b))) := by
  have hz : ¬ (0 : Int64) < 0 := by decide
  rcases forward_cases ha hb hoa hob with ⟨h0, -⟩ | ⟨i, hi, -, heq⟩
  · rw [h0]
    exact ⟨fun h => absurd h hz, fun h => absurd h hz, fun h => absurd h hz, fun h => absurd h hz⟩
  have hlt : i < 2 ^ 63 := by
    rcases hi with ⟨h, -⟩ | ⟨h, -⟩ | ⟨h, -, -⟩ <;> omega
  have hidx := Int64.toIndex_ofNat_of_lt hlt
  have hpos := @Int64.not_ofNat_neg i hlt
  have hneg := @Int64.not_neg_ofNat_pos i hlt
  rw [heq, answerAt]
  -- one case per answer: the field that is set says which resync holds
  split_ifs with hB hJ hA hJ'
  · exact ⟨fun h => absurd h hz, fun h => absurd h hz, fun h => absurd h hneg,
      fun _ => by rwa [Int64.neg_neg, hidx]⟩
  · exact ⟨fun _ => by rwa [hidx], fun h => absurd h hpos, fun h => absurd h hz,
      fun h => absurd h hz⟩
  · exact ⟨fun h => absurd h hneg, fun _ => by rwa [Int64.neg_neg, hidx], fun h => absurd h hz,
      fun h => absurd h hz⟩
  · exact ⟨fun h => absurd h hz, fun h => absurd h hz, fun _ => by rwa [hidx],
      fun h => absurd h hpos⟩
  · exact ⟨fun h => absurd h hz, fun h => absurd h hz, fun h => absurd h hz, fun h => absurd h hz⟩

end Forward

section Answer

variable (a b : Signal) (oa ob i : Nat)

/-- The answer owed for a shift has at most one non-zero field. -/
theorem answerAt_single : (answerAt a b oa ob i).Single := by
  unfold answerAt
  dsimp only
  split_ifs <;> simp [RiftShift.Single]

/-- The answer owed for a shift that is a non-zero word is not empty. -/
theorem answerAt_isNone (h0 : 0 < i) (hi : i < 2 ^ 63) : (answerAt a b oa ob i).isNone = false := by
  have hw : Int64.ofNat i ≠ 0 := fun h => by
    have := congrArg Int64.toInt h
    rw [Int64.toInt_ofNat_of_lt i hi, Int64.toInt_zero] at this
    omega
  unfold answerAt
  dsimp only
  split_ifs <;> simp [RiftShift.isNone, hw]

/-- No resync holds at the zero shift where the two sides differ. -/
theorem not_resyncs_zero {a b : Signal} {oa ob : Nat} (hne : a[oa]? ≠ b[ob]?) :
    ¬ Resyncs a b oa ob 0 := by
  have hfirst : ∀ {x y : Nat}, x = oa → y = ob →
      Signal.agreesFor a b x y minWordsRift = true → False := fun hx hy h => by
    obtain ⟨v, hv, hv'⟩ := Signal.agreesFor_iff.mp h 0 (by decide)
    subst hx hy
    exact hne (hv.trans hv'.symm)
  rintro (⟨-, h⟩ | ⟨-, h⟩ | ⟨-, -, h⟩)
  exacts [hfirst rfl rfl h, hfirst rfl rfl h, hfirst rfl rfl h]

end Answer

/-- From a rift, the forward search answers for the least shift that resyncs: its answer has at
    most one non-zero field; it is empty exactly when no shift resyncs; and otherwise, for the
    least shift `i` that does, it is the one owed (`answerAt`): `b` moved on by `i` first, then
    `a` moved on by `i`, then both, a one-sided shift turned into a removal when
    `Signal.junction` finds a stutter. -/
theorem forward_finds_least_shift {a b : Signal} {oa ob : Nat} (ha : a.size < 2 ^ 63)
    (hb : b.size < 2 ^ 63) (hoa : oa < a.size) (hob : ob < b.size) (hne : a[oa] ≠ b[ob]) :
    (forward a b (Int64.ofNat oa) (Int64.ofNat ob)).Single ∧
      ((forward a b (Int64.ofNat oa) (Int64.ofNat ob)).isNone = true ↔
        ∀ i, ¬ Resyncs a b oa ob i) ∧
      ∀ i, Resyncs a b oa ob i → (∀ j < i, ¬ Resyncs a b oa ob j) →
        forward a b (Int64.ofNat oa) (Int64.ofNat ob) = answerAt a b oa ob i := by
  have hne' : a[oa]? ≠ b[ob]? := by
    rw [Array.getElem?_eq_getElem hoa, Array.getElem?_eq_getElem hob]
    exact fun h => hne (Option.some.inj h)
  refine ⟨?_, ?_, fun i hi hleast => forward_of_least ha hb hoa.le hob.le hi hleast⟩
  · rcases forward_cases ha hb hoa.le hob.le with ⟨h0, -⟩ | ⟨i, -, -, hi⟩
    · rw [h0]
      simp [RiftShift.Single]
    · rw [hi]
      exact answerAt_single a b oa ob i
  · rcases forward_cases ha hb hoa.le hob.le with ⟨h0, hnone⟩ | ⟨i, hi, -, heq⟩
    · simp [h0, RiftShift.isNone, hnone]
    · -- the least shift is not zero, where the two sides differ
      have hpos : 0 < i := Nat.pos_of_ne_zero fun h => not_resyncs_zero hne' (h ▸ hi)
      have hlt : i < 2 ^ 63 := by
        rcases hi with ⟨h, -⟩ | ⟨h, -⟩ | ⟨h, -, -⟩ <;> omega
      rw [heq, answerAt_isNone a b oa ob i hpos hlt]
      simp only [Bool.false_eq_true, false_iff, not_forall, not_not]
      exact ⟨i, hi⟩

/-- Forty rising samples. -/
def risingRun : Signal := ⟨(List.range 40).map Int16.ofNat⟩

/-- The rising run with its three samples from index 20 dropped. -/
def droppedRun : Signal := ⟨(List.range 20 ++ List.range' 23 17).map Int16.ofNat⟩

theorem forward_finds_least_shift_droppedRun :
    risingRun[20]? ≠ droppedRun[20]? ∧
      (forward risingRun droppedRun 20 20).Single ∧
      ((forward risingRun droppedRun 20 20).isNone = true ↔
        ∀ i, ¬ Resyncs risingRun droppedRun 20 20 i) ∧
      ∀ i, Resyncs risingRun droppedRun 20 20 i →
        (∀ j < i, ¬ Resyncs risingRun droppedRun 20 20 j) →
        forward risingRun droppedRun 20 20 = answerAt risingRun droppedRun 20 20 i :=
  ⟨by decide, forward_finds_least_shift (by decide) (by decide) (by decide) (by decide) (by decide)⟩

end Rift

end VerifiedRip
