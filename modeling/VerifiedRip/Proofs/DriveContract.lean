import VerifiedRip.Drive.Read
import VerifiedRip.Disc.Memory
/-!
# What a drive read delivers

A sector source promises, for every read of `n` sectors, an error or the bytes of at most `n`
whole sectors (`SourceContract`). Through a drive the promise becomes a statement about every
read a session makes, whatever retries, batch shrinking and jitter displacement happen on the
way:

* a read changes only the drive's source, its error log and its jitter stream
  (`Drive.read_sameSetup`), so the drive stays open and keeps its audio range;
* an open drive never answers that it is closed (`Drive.read_ne_deviceNotOpen`);
* under the contract, a read delivers whole sectors, no more than were asked for and than
  there is room for (`Drive.read_delivers`).

The simulated disc keeps the contract, for every disc (`MemoryDisc.sourceContract`).
-/

namespace VerifiedRip

/-- The bytes of at most `n` whole sectors. -/
def WholeSectors (n : Nat) (bytes : ByteArray) : Prop :=
  bytes.size % sectorBytes = 0 ∧ bytes.size / sectorBytes ≤ n

theorem WholeSectors.mono {n m : Nat} {bytes : ByteArray} (h : WholeSectors n bytes)
    (hnm : n ≤ m) : WholeSectors m bytes :=
  ⟨h.1, Nat.le_trans h.2 hnm⟩

theorem WholeSectors.empty (n : Nat) : WholeSectors n ByteArray.empty :=
  ⟨rfl, Nat.zero_le n⟩

/-- The promise of a sector source: a read of `n` sectors fails, or delivers the bytes of at most
    `n` whole sectors. -/
def SourceContract (σ : Type) [SectorSource σ] : Prop :=
  ∀ (src : σ) (begin : Sector) (n : Nat) (bytes : ByteArray),
    (SectorSource.readAudio src begin n).1 = .ok bytes → WholeSectors n bytes

namespace Drive

variable {σ : Type}

/-- `d'` is `d` with at most its source, its error log and its jitter stream changed. -/
def SameSetup (d d' : Drive σ) : Prop :=
  ∃ (source : σ) (errors : String) (jitter : UnitStream), d' = { d with source, errors, jitter }

theorem SameSetup.refl (d : Drive σ) : SameSetup d d := ⟨d.source, d.errors, d.jitter, rfl⟩

theorem SameSetup.trans {d d' d'' : Drive σ} (h : SameSetup d d') (h' : SameSetup d' d'') :
    SameSetup d d'' := by
  obtain ⟨a, b, c, rfl⟩ := h
  obtain ⟨a', b', c', rfl⟩ := h'
  exact ⟨a', b', c', rfl⟩

theorem SameSetup.noteError {d d' : Drive σ} (h : SameSetup d d') (text : String) :
    SameSetup d (d'.noteError text) := by
  obtain ⟨a, b, c, rfl⟩ := h
  unfold Drive.noteError
  split
  · exact ⟨a, _, c, rfl⟩
  · exact ⟨a, b, c, rfl⟩

theorem SameSetup.opened {d d' : Drive σ} (h : SameSetup d d') : d'.opened = d.opened := by
  obtain ⟨a, b, c, rfl⟩ := h
  rfl

theorem SameSetup.firstSector {d d' : Drive σ} (h : SameSetup d d') :
    d'.firstSector = d.firstSector := by
  obtain ⟨a, b, c, rfl⟩ := h
  rfl

theorem SameSetup.lastSector {d d' : Drive σ} (h : SameSetup d d') :
    d'.lastSector = d.lastSector := by
  obtain ⟨a, b, c, rfl⟩ := h
  rfl

theorem sameSetup_withSource (d : Drive σ) (source : σ) : SameSetup d { d with source } :=
  ⟨source, d.errors, d.jitter, rfl⟩

theorem sameSetup_withJitter (d : Drive σ) (jitter : UnitStream) : SameSetup d { d with jitter } :=
  ⟨d.source, d.errors, jitter, rfl⟩

variable [SectorSource σ]

/-! ### Retried batch reads -/

theorem readBlocksFrom_sameSetup (d : Drive σ) (begin : Sector) (count retry : Nat) :
    SameSetup d (d.readBlocksFrom begin count retry).2 := by
  induction hn : maxRetries + 1 - retry using Nat.strongRecOn generalizing d count retry with
  | _ n ih =>
    rw [readBlocksFrom]
    split
    next r src hread =>
    have hsrc := sameSetup_withSource d src
    split
    · exact hsrc
    · dsimp only
      split
      · exact hsrc.noteError _
      · split
        · exact hsrc.noteError _
        · split
          · exact hsrc.noteError _
          · next hlt => exact hsrc.trans (ih _ (by omega) _ _ _ rfl)

theorem readBlocksFrom_ne_deviceNotOpen (d : Drive σ) (begin : Sector) (count retry : Nat) :
    (d.readBlocksFrom begin count retry).1 ≠ .error .deviceNotOpen := by
  induction hn : maxRetries + 1 - retry using Nat.strongRecOn generalizing d count retry with
  | _ n ih =>
    rw [readBlocksFrom]
    split
    next r src hread =>
    split
    · simp
    · dsimp only
      split
      · simp
      · split
        · simp
        · split
          · simp
          · next hlt => exact ih _ (by omega) _ _ _ rfl

/-- Under the contract, a retried read delivers at most the sectors asked for first: a retry
    only ever asks for fewer. -/
theorem readBlocksFrom_delivers (hc : SourceContract σ) (d : Drive σ) (begin : Sector)
    (count retry : Nat) (bytes : ByteArray) (h : (d.readBlocksFrom begin count retry).1 = .ok bytes) :
    WholeSectors count bytes := by
  induction hn : maxRetries + 1 - retry using Nat.strongRecOn generalizing d count retry with
  | _ n ih =>
    rw [readBlocksFrom] at h
    split at h
    next r src hread =>
    split at h
    · next b =>
      cases h
      exact hc d.source begin count _ (by rw [hread])
    · dsimp only at h
      split at h
      · simp at h
      · split at h
        · simp at h
        · split at h
          · simp at h
          · next hlt =>
            refine (ih _ (by omega) _ _ _ h rfl).mono ?_
            split <;> omega

/-! ### Displaced reads and the drive's read -/

/-- The whole sectors after byte `o` of `scratch`, at most `sectors` of them. -/
theorem wholeSectors_extract (scratch : ByteArray) (o sectors : Nat) :
    WholeSectors sectors
      (scratch.extract o (o + min ((scratch.size - o) / sectorBytes) sectors * sectorBytes)) := by
  have e : sectorBytes = 2352 := rfl
  rw [WholeSectors, ByteArray.size_extract, e]
  by_cases ho : o ≤ scratch.size
  · have hle : min ((scratch.size - o) / 2352) sectors * 2352 ≤ scratch.size - o :=
      Nat.le_trans (Nat.mul_le_mul_right _ (Nat.min_le_left _ _)) (Nat.div_mul_le_self _ _)
    rw [Nat.min_eq_left (by omega), Nat.add_sub_cancel_left]
    exact ⟨Nat.mul_mod_left _ _, by rw [Nat.mul_div_cancel _ (by decide)]; exact Nat.min_le_right _ _⟩
  · rw [Nat.sub_eq_zero_of_le (by omega : min (o + _) scratch.size ≤ o)]
    exact ⟨rfl, Nat.zero_le _⟩

theorem readBlocks_sameSetup (d : Drive σ) (begin : Sector) (count : Nat) :
    SameSetup d (d.readBlocks begin count).2 :=
  readBlocksFrom_sameSetup d begin count 0

theorem sameSetup_of_readBlocks {d d' : Drive σ} {begin : Sector} {count : Nat}
    {r : Except RipError ByteArray} (h : d.readBlocks begin count = (r, d')) : SameSetup d d' := by
  have hs := readBlocks_sameSetup d begin count
  rw [h] at hs
  exact hs

theorem readShifted_sameSetup (d : Drive σ) (begin : Sector) (sectors : Nat) (jitter : Int) :
    SameSetup d (d.readShifted begin sectors jitter).2 := by
  unfold readShifted
  dsimp only
  split
  · next heq => exact sameSetup_of_readBlocks heq
  · next heq => exact sameSetup_of_readBlocks heq

theorem readJittered_sameSetup (d : Drive σ) (begin : Sector) (sectors : Nat) :
    SameSetup d (d.readJittered begin sectors).2 := by
  unfold readJittered
  split
  next plain d' htoss =>
  have hd' : SameSetup d d' := by
    split at htoss
    · cases htoss; exact SameSetup.refl d
    · cases htoss; exact sameSetup_withJitter d _
  split
  · exact hd'.trans (readBlocks_sameSetup _ _ _)
  · exact hd'.trans ((sameSetup_withJitter _ _).trans (readShifted_sameSetup _ _ _ _))

/-- The read of `n` sectors that `read` makes once it has capped the count. -/
theorem readCapped_sameSetup (d : Drive σ) (begin : Sector) (n : Nat) :
    SameSetup d (if n = 0 then (.ok ByteArray.empty, d)
      else if d.testFlags.jitter = .none then d.readBlocks begin n
      else d.readJittered begin n).2 := by
  split
  · exact SameSetup.refl d
  · split
    · exact readBlocks_sameSetup _ _ _
    · exact readJittered_sameSetup _ _ _

theorem read_sameSetup (d : Drive σ) (begin : Sector) (sectors room : Nat) :
    SameSetup d (d.read begin sectors room).2 := by
  unfold read
  split
  · exact SameSetup.refl d
  · exact readCapped_sameSetup d begin _

theorem readBlocks_ne_deviceNotOpen {d d' : Drive σ} {begin : Sector} {count : Nat}
    {r : Except RipError ByteArray} (h : d.readBlocks begin count = (r, d')) :
    r ≠ .error .deviceNotOpen := by
  have hne := readBlocksFrom_ne_deviceNotOpen d begin count 0
  rw [← readBlocks, h] at hne
  exact hne

theorem readShifted_ne_deviceNotOpen (d : Drive σ) (begin : Sector) (sectors : Nat) (jitter : Int) :
    (d.readShifted begin sectors jitter).1 ≠ .error .deviceNotOpen := by
  unfold readShifted
  dsimp only
  split
  · simp
  · next heq => exact readBlocks_ne_deviceNotOpen heq

theorem readJittered_ne_deviceNotOpen (d : Drive σ) (begin : Sector) (sectors : Nat) :
    (d.readJittered begin sectors).1 ≠ .error .deviceNotOpen := by
  unfold readJittered
  split
  split
  · exact readBlocksFrom_ne_deviceNotOpen _ _ _ _
  · exact readShifted_ne_deviceNotOpen _ _ _ _

theorem readCapped_ne_deviceNotOpen (d : Drive σ) (begin : Sector) (n : Nat) :
    (if n = 0 then (.ok ByteArray.empty, d)
      else if d.testFlags.jitter = .none then d.readBlocks begin n
      else d.readJittered begin n).1 ≠ .error .deviceNotOpen := by
  split
  · simp
  · split
    · exact readBlocksFrom_ne_deviceNotOpen _ _ _ _
    · exact readJittered_ne_deviceNotOpen _ _ _

/-- An open drive never answers that it is closed. -/
theorem read_ne_deviceNotOpen {d : Drive σ} (hd : d.opened = true) (begin : Sector)
    (sectors room : Nat) : (d.read begin sectors room).1 ≠ .error .deviceNotOpen := by
  unfold read
  rw [if_neg (by simp [hd])]
  exact readCapped_ne_deviceNotOpen d begin _

theorem readShifted_delivers (d : Drive σ) (begin : Sector) (sectors : Nat) (jitter : Int)
    (bytes : ByteArray) (h : (d.readShifted begin sectors jitter).1 = .ok bytes) :
    WholeSectors sectors bytes := by
  unfold readShifted at h
  dsimp only at h
  split at h
  · cases h
    exact wholeSectors_extract _ _ _
  · simp at h

variable (hc : SourceContract σ)
include hc

theorem readJittered_delivers (d : Drive σ) (begin : Sector) (sectors : Nat) (bytes : ByteArray)
    (h : (d.readJittered begin sectors).1 = .ok bytes) : WholeSectors sectors bytes := by
  unfold readJittered at h
  split at h
  split at h
  · exact readBlocksFrom_delivers hc _ _ _ _ _ h
  · exact readShifted_delivers _ _ _ _ _ h

theorem readCapped_delivers (d : Drive σ) (begin : Sector) (n : Nat) (bytes : ByteArray)
    (h : (if n = 0 then (.ok ByteArray.empty, d)
      else if d.testFlags.jitter = .none then d.readBlocks begin n
      else d.readJittered begin n).1 = .ok bytes) : WholeSectors n bytes := by
  split at h
  · cases h; exact WholeSectors.empty n
  · split at h
    · exact readBlocksFrom_delivers hc _ _ _ _ _ h
    · exact readJittered_delivers hc _ _ _ _ h

/-- Under the contract, a read delivers whole sectors, no more than were asked for and than
    there is room for. -/
theorem read_delivers (d : Drive σ) (begin : Sector) (sectors room : Nat) (bytes : ByteArray)
    (h : (d.read begin sectors room).1 = .ok bytes) : WholeSectors (min sectors room) bytes := by
  unfold read at h
  split at h
  · simp at h
  · refine (readCapped_delivers hc d begin _ bytes h).mono ?_
    split <;> omega

end Drive


namespace MemoryDisc

/-- The sectors of a range that lies on the disc are whole. -/
theorem wholeSectors_extract_of_onDisc (d : MemoryDisc) (begin : Sector) (n count : Nat) (hcount : count ≤ n)
    (h0 : 0 ≤ begin.toInt) (hend : begin.toInt + n ≤ d.sectors) :
    WholeSectors n (d.data.extract (begin.toInt.toNat * sectorBytes)
      (begin.toInt.toNat * sectorBytes + count * sectorBytes)) := by
  have e : sectorBytes = 2352 := rfl
  have hfit : begin.toInt.toNat * 2352 + count * 2352 ≤ d.data.size := by
    have hs : d.sectors * 2352 ≤ d.data.size := Nat.div_mul_le_self _ _
    have : begin.toInt.toNat + count ≤ d.sectors := by omega
    calc begin.toInt.toNat * 2352 + count * 2352 = (begin.toInt.toNat + count) * 2352 :=
          (Nat.add_mul _ _ _).symm
      _ ≤ d.sectors * 2352 := Nat.mul_le_mul_right _ this
      _ ≤ d.data.size := hs
  rw [WholeSectors, ByteArray.size_extract, e, Nat.min_eq_left hfit, Nat.add_sub_cancel_left]
  exact ⟨Nat.mul_mod_left _ _, by rw [Nat.mul_div_cancel _ (by decide)]; exact hcount⟩

/-- What a read of the simulated disc delivers: the bytes of a range of sectors on the disc,
    no longer than asked for. -/
theorem read_ok {d : MemoryDisc} {begin : Sector} {n : Nat} {bytes : ByteArray}
    (h : (d.read begin n).1 = .ok bytes) :
    ∃ count ≤ n, 0 ≤ begin.toInt ∧ begin.toInt + n ≤ d.sectors ∧
      bytes = d.data.extract (begin.toInt.toNat * sectorBytes)
        (begin.toInt.toNat * sectorBytes + count * sectorBytes) := by
  -- a transfer cap only lowers the count
  obtain ⟨count, hcount, h⟩ : ∃ count ≤ n,
      (if 0 < d.pendingFailures then (Except.error (RipError.transport .medium) : Except RipError ByteArray)
        else if begin < 0 ∨ d.sectors < begin.toInt + n then .error (.transport .illegalRequest)
        else if d.bad.any fun l => begin.toInt ≤ l.toInt ∧ l.toInt < begin.toInt + count then
          .error (.transport .medium)
        else .ok (d.data.extract (begin.toInt.toNat * sectorBytes)
          (begin.toInt.toNat * sectorBytes + count * sectorBytes))) = .ok bytes := by
    cases hmt : d.maxTransfer with
    | none => exact ⟨n, Nat.le_refl n, by simpa [MemoryDisc.read, MemoryDisc.sectors, hmt, apply_ite Prod.fst] using h⟩
    | some m => exact ⟨min n m, Nat.min_le_left n m, by simpa [MemoryDisc.read, MemoryDisc.sectors, hmt, apply_ite Prod.fst] using h⟩
  split at h
  · simp at h
  · split at h
    · simp at h
    · next hrange =>
      split at h
      · simp at h
      · cases h
        simp only [not_or, Int32.not_lt, Int32.le_iff_toInt_le, Int32.toInt_zero] at hrange
        exact ⟨count, hcount, by omega, by omega, rfl⟩

/-- The simulated disc keeps the contract of a sector source. -/
theorem sourceContract : SourceContract MemoryDisc := by
  intro d begin n bytes h
  obtain ⟨count, hcount, h0, hend, rfl⟩ := read_ok h
  exact wholeSectors_extract_of_onDisc d begin n count hcount h0 hend

end MemoryDisc

end VerifiedRip
