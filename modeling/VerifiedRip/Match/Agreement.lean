import VerifiedRip.Audio.Signal
/-!
# Agreement between two signals

How far two signals agree from a pair of positions, counted forward (`agreeForward`) or
backward (`agreeBackward`), and whether a stretch of extra samples on one side repeats the
other side (`junction`). Offsets are 64-bit words: a negative offset, or one past the end,
simply finds no agreement. `agreesFor` tests a window of fixed length, and `positionsOf` lists where a
signal holds a value.

## Main statements

* `Signal.agreesFor_iff`: a window test holds exactly when every sample pair in it exists and
  agrees.
* `Signal.mem_positionsOf`: the positions listed are those in range that hold the value.
-/

namespace VerifiedRip

/-- Length of agreement that counts as a resync after a rift; also the stride of run scans. -/
def minWordsRift : Nat := 16

/-- Agreeing samples needed to accept a synchronisation point. -/
def minWordsSearch : Nat := 64

/-- Shortest run that counts as agreement. -/
def minWordsOverlap : Nat := 64

namespace Signal

/-- Length of the common run of `a` from `i` and `b` from `j`, counting upward until the first
    difference or the end of either signal. -/
def runFrom (a b : Signal) (i j : Nat) : Nat :=
  go 0
where
  /-- `n` samples agree already. -/
  go (n : Nat) : Nat :=
    if h : i + n < a.size ∧ j + n < b.size then
      if a[i + n] = b[j + n] then go (n + 1) else n
    else n
  termination_by a.size - (i + n)

/-- Whether `a` from `i` and `b` from `j` agree on `n` consecutive samples, all of them inside
    both signals: `runFrom` reaching `n`, without counting past it. -/
def agreesFor (a b : Signal) (i j n : Nat) : Bool :=
  go 0
where
  /-- The first `k` samples agree already. -/
  go (k : Nat) : Bool :=
    if k < n then
      if h : i + k < a.size ∧ j + k < b.size then a[i + k] == b[j + k] && go (k + 1) else false
    else true
  termination_by n - k

/-- The positions in `[lo, hi)` at which `s` holds `v`, in increasing order. -/
def positionsOf (s : Signal) (v : Int16) (lo hi : Nat) : List Nat :=
  go hi []
where
  /-- The positions from `q` up to `hi` are collected in `acc`. -/
  go : Nat → List Nat → List Nat
    | 0, acc => acc
    | q + 1, acc =>
      if lo ≤ q then
        go q (if h : q < s.size then (if s[q] = v then q :: acc else acc) else acc)
      else acc

/-- `agreesFor.go` from `k` holds when the samples `k` to `n - 1` past `i` and `j` agree. -/
theorem agreesFor_go_iff (a b : Signal) (i j n k : Nat) :
    agreesFor.go a b i j n k = true ↔
      ∀ m, k ≤ m → m < n → ∃ x, a[i + m]? = some x ∧ b[j + m]? = some x := by
  fun_induction agreesFor.go a b i j n k with
  | case1 k hk h ih =>
    simp only [Bool.and_eq_true, beq_iff_eq, ih]
    constructor
    · rintro ⟨he, hr⟩ m hkm hmn
      by_cases hm : m = k
      · subst hm; exact ⟨a[i + m], by simp [h.1], by simp [h.2, he]⟩
      · exact hr m (by omega) hmn
    · intro hall
      obtain ⟨x, hx, hy⟩ := hall k (Nat.le_refl k) hk
      refine ⟨?_, fun m hkm hmn => hall m (by omega) hmn⟩
      simp [h.1] at hx; simp [h.2] at hy; rw [hx, hy]
  | case2 k hk h =>
    simp only [Bool.false_eq_true, false_iff, Classical.not_forall]
    refine ⟨k, Nat.le_refl k, hk, ?_⟩
    rintro ⟨x, hx, hy⟩
    apply h
    exact ⟨(Array.getElem?_eq_some_iff.mp hx).1, (Array.getElem?_eq_some_iff.mp hy).1⟩
  | case3 k hk =>
    simp only [true_iff]
    intro m hkm hmn
    omega

/-- The windows of `n` samples of `a` from `i` and of `b` from `j` agree, all inside both
    signals. -/
theorem agreesFor_iff {a b : Signal} {i j n : Nat} :
    agreesFor a b i j n = true ↔ ∀ m, m < n → ∃ x, a[i + m]? = some x ∧ b[j + m]? = some x := by
  simp [agreesFor, agreesFor_go_iff]

/-- `positionsOf.go` from `q` adds the positions in `[lo, q)` that hold the value to `acc`. -/
theorem mem_positionsOf_go (s : Signal) (v : Int16) (lo x : Nat) (q : Nat) (acc : List Nat) :
    x ∈ positionsOf.go s v lo q acc ↔ (lo ≤ x ∧ x < q ∧ s[x]? = some v) ∨ x ∈ acc := by
  induction q generalizing acc with
  | zero => simp [positionsOf.go]
  | succ q ih =>
    rw [positionsOf.go]
    split
    · rw [ih]
      by_cases hx : x = q
      · subst hx
        by_cases h : x < s.size
        · by_cases hv : s[x] = v <;> simp_all
        · rw [dif_neg h, Array.getElem?_eq_none (by omega)]
          simp only [Nat.lt_irrefl, and_false, false_or, reduceCtorEq]
      · have : x < q + 1 ↔ x < q := by omega
        split <;> (try split) <;> simp_all
    · constructor
      · exact Or.inr
      · rintro (⟨h1, h2, -⟩ | h)
        · omega
        · exact h

/-- A position is listed exactly when it lies in the range and holds the value. -/
@[simp] theorem mem_positionsOf {s : Signal} {v : Int16} {lo hi x : Nat} :
    x ∈ positionsOf s v lo hi ↔ lo ≤ x ∧ x < hi ∧ s[x]? = some v := by
  simp [positionsOf, mem_positionsOf_go]

/-- Length of the common run of `a` ending at `i` and `b` ending at `j`, both included,
    counting downward until the first difference or the start of either signal. -/
def runUntil (a b : Signal) (i j : Nat) : Nat :=
  go 0
where
  /-- `n` samples agree already. -/
  go (n : Nat) : Nat :=
    if h : n ≤ i ∧ n ≤ j ∧ i < a.size ∧ j < b.size then
      if a[i - n] = b[j - n] then go (n + 1) else n
    else n
  termination_by i + 1 - n

/-- Number of consecutive samples on which `a` from `oa` and `b` from `ob` agree, the samples
    at the offsets included; zero for a negative offset. -/
def agreeForward (a b : Signal) (oa ob : Int64) : Int64 :=
  if oa < 0 ∨ ob < 0 then 0 else Int64.ofNat (runFrom a b (Int64.toIndex oa) (Int64.toIndex ob))

/-- Number of agreeing samples strictly before the offsets, walking backward, given that the
    samples at the offsets agree; `-1` if they differ or an offset lies outside its signal. -/
def agreeBackward (a b : Signal) (oa ob : Int64) : Int64 :=
  if oa < 0 ∨ ob < 0 ∨ a.size ≤ Int64.toIndex oa ∨ b.size ≤ Int64.toIndex ob then -1
  else Int64.ofNat (runUntil a b (Int64.toIndex oa) (Int64.toIndex ob)) - 1

/-- What separates two agreeing runs. -/
inductive Junction where
  /-- The extra samples repeat data already present. -/
  | stutter
  /-- The extra samples are genuine: the other side dropped them. -/
  | gap
deriving DecidableEq, Repr

/-- Whether the `len` samples of `a` at `oa` repeat the samples of `b` at `ob`. A negative `oa`
    is moved to zero, shortening the comparison by as much (in wrapping arithmetic); an empty
    comparison is a stutter, and a window that leaves either signal is a gap. -/
def junction (a b : Signal) (oa ob len : Int64) : Junction :=
  let (oa, ob, len) := if oa < 0 then (0, ob - oa, len + oa) else (oa, ob, len)
  if len ≤ 0 then .stutter
  else if agreesFor a b (Int64.toIndex oa) (Int64.toIndex ob) (Int64.toIndex len) then .stutter
  else .gap

end Signal

end VerifiedRip
