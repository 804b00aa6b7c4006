import VerifiedRip.Proofs.RetryBudget
/-!
# Displaced reads

A jittered read lands a number of bytes off the sector asked for. `Drive.readShifted` splits the
displacement into whole sectors and a byte offset, reads one sector more from the displaced
sector, and keeps the whole sectors that follow the offset. Over a source that reads a disc
exactly, a few sectors at most per call, the read answers with the disc's bytes from the
displaced byte on, as many whole sectors as the transfer holds past the offset; when the
displaced window would leave the disc it reads the undisplaced one.

The disc is a function from byte positions to bytes, and a window of it is described byte by
byte (`DiscWindow`), as a tape's contents are described cell by cell.

## Main definitions

* `DiscWindow`: an array holding whole sectors of the disc from a given byte.
* `ReadsDisc`: a source that reads the disc exactly, at most `c` sectors a call.

## Main statements

* `Drive.splitJitter_spec`: the floor-wise split of a displacement.
* `Drive.readShifted_window`.
-/

namespace VerifiedRip

/-- `bytes` are the `w` whole sectors of `disc` from byte `start` on. -/
structure DiscWindow (disc : Nat → UInt8) (start : Int) (w : Nat) (bytes : ByteArray) : Prop where
  size_eq : bytes.size = w * sectorBytes
  get_eq : ∀ i (h : i < bytes.size), bytes[i] = disc (start + i).toNat

/-- A source that reads `disc`, of `leadout` sectors, exactly and at most `c` sectors a call:
    asked for any window on the disc, it returns the window's first `min c k` sectors. -/
def ReadsDisc {σ : Type} [SectorSource σ] (src : σ) (disc : Nat → UInt8) (leadout : Int)
    (c : Nat) : Prop :=
  ∀ (b : Sector) (k : Nat), 0 ≤ b.toInt → b.toInt + k ≤ leadout →
    ∃ bytes, (SectorSource.readAudio src b k).1 = .ok bytes ∧
      DiscWindow disc (sectorBytes * b.toInt) (min c k) bytes

/-- Whole sectors cut from a window past a byte offset are the disc's sectors from that offset
    on; when the offset lies past the window, no sector is cut. -/
theorem DiscWindow.extract {disc : Nat → UInt8} {start : Int} {w : Nat} {bytes : ByteArray}
    (h : DiscWindow disc start w bytes) (o k : Nat) (hk : k * sectorBytes ≤ bytes.size - o) :
    DiscWindow disc (start + o) k (bytes.extract o (o + k * sectorBytes)) where
  size_eq := by
    rw [ByteArray.size_extract]
    omega
  get_eq i hi := by
    have hi' : o + i < bytes.size := by
      rw [ByteArray.size_extract] at hi
      omega
    rw [ByteArray.getElem_extract, h.get_eq (o + i) hi']
    congr 2
    push_cast
    ring

theorem Sector.toInt_ofInt_of_range {n : Int} (h0 : 0 ≤ n) (h1 : n < 2 ^ 31) :
    (Sector.ofInt n).toInt = n := by
  rw [Sector.ofInt, Int32.toInt_ofInt]
  exact Int.bmod_eq_of_le (by simp [Int32.size]; omega) (by simp [Int32.size]; omega)

namespace Drive

/-- A displacement is split floor-wise into whole sectors and a byte offset in
    `0 … sectorBytes`. The offset is `sectorBytes`, not zero, for a negative multiple of a
    sector: the split truncates the quotient and steps back one sector for any negative
    displacement. -/
theorem splitJitter_spec (j : Int) :
    (splitJitter j).1 * sectorBytes + (splitJitter j).2 = j ∧ 0 ≤ (splitJitter j).2 ∧
      (splitJitter j).2 ≤ sectorBytes := by
  have hsb : (sectorBytes : Int) = 2352 := rfl
  unfold splitJitter
  rw [hsb]
  split
  · next h =>
    rw [Int.tdiv_eq_ediv_of_nonneg h, Int.tmod_eq_emod_of_nonneg h]
    omega
  · next h =>
    -- a negative displacement's quotient truncates towards zero
    have hq : j.tdiv 2352 = -((-j).tdiv 2352) := by rw [Int.neg_tdiv, neg_neg]
    rw [hq, Int.tmod_eq_emod_of_nonneg (by omega), Int.tdiv_eq_ediv_of_nonneg (by omega)]
    omega

variable {σ : Type} [SectorSource σ] {d : Drive σ} {disc : Nat → UInt8} {c : Nat}

/-- Read through `readShifted`, the first `k` sectors answered at `b` are cut past `o` bytes
    into the whole sectors that fit, at most `sectors`. -/
theorem readShifted_cut {k : Nat} {start : Int} {bytes : ByteArray} (o sectors : Nat) (hwin : DiscWindow disc start (min c k) bytes) :
    DiscWindow disc (start + o) (min sectors ((min c k * sectorBytes - o) / sectorBytes))
      (bytes.extract o (o + min ((bytes.size - o) / sectorBytes) sectors * sectorBytes)) := by
  have hcut := hwin.extract o (min ((bytes.size - o) / sectorBytes) sectors)
    (Nat.le_trans (Nat.mul_le_mul_right _ (Nat.min_le_left _ _)) (Nat.div_mul_le_self _ _))
  have hw : min sectors ((min c k * sectorBytes - o) / sectorBytes) =
      min ((bytes.size - o) / sectorBytes) sectors := by
    rw [hwin.size_eq, Nat.min_comm]
  rw [hw]
  exact hcut

/-- A displaced read over a source that reads the disc exactly, at most `c` sectors a call. Split
    the displacement `j` into `jsec` whole sectors and an offset `0 ≤ offset ≤ sectorBytes`.
    When the displaced sector `begin + jsec` is past sector zero and one sector more than asked
    for still ends within the lead-out, the read answers with the disc's bytes from byte
    `sectorBytes * begin + j` on, `min sectors ((min c (sectors + 1) * sectorBytes - offset) /
    sectorBytes)` whole sectors of them. Otherwise, for a window `[begin, begin + sectors)` on the
    disc, it answers with the first `min c sectors` sectors of that window. -/
theorem readShifted_window (hsrc : ReadsDisc d.source disc d.toc.leadout.toInt c)
    (begin : Sector) (sectors : Nat) (j : Int) :
    (0 < begin.toInt + (splitJitter j).1 ∧
        begin.toInt + (splitJitter j).1 + sectors + 1 ≤ d.toc.leadout.toInt →
      ∃ bytes, (d.readShifted begin sectors j).1 = .ok bytes ∧
        DiscWindow disc (sectorBytes * begin.toInt + j)
          (min sectors ((min c (sectors + 1) * sectorBytes - (splitJitter j).2.toNat) /
            sectorBytes)) bytes) ∧
    (¬(0 < begin.toInt + (splitJitter j).1 ∧
        begin.toInt + (splitJitter j).1 + sectors + 1 ≤ d.toc.leadout.toInt) →
      0 ≤ begin.toInt → begin.toInt + sectors ≤ d.toc.leadout.toInt →
      ∃ bytes, (d.readShifted begin sectors j).1 = .ok bytes ∧
        DiscWindow disc (sectorBytes * begin.toInt) (min c sectors) bytes) := by
  obtain ⟨hj, hoff, -⟩ := splitJitter_spec j
  have hlead := Int32.toInt_lt d.toc.leadout
  constructor
  · intro hs
    have hstart : (Sector.ofInt (begin.toInt + (splitJitter j).1)).toInt =
        begin.toInt + (splitJitter j).1 :=
      Sector.toInt_ofInt_of_range (by omega) (by omega)
    obtain ⟨scratch, hread, hwin⟩ := hsrc (Sector.ofInt (begin.toInt + (splitJitter j).1))
      (sectors + 1) (by rw [hstart]; omega) (by rw [hstart]; omega)
    rw [hstart] at hwin
    unfold readShifted
    dsimp only
    rw [if_pos hs, readBlocks_of_readAudio_ok hread]
    refine ⟨_, rfl, ?_⟩
    -- the disc window read starts `offset` bytes before the displaced byte
    have hpos : (sectorBytes : Int) * (begin.toInt + (splitJitter j).1) +
        ((splitJitter j).2.toNat : Int) = sectorBytes * begin.toInt + j := by
      rw [Int.toNat_of_nonneg hoff]
      linear_combination hj
    rw [← hpos]
    exact readShifted_cut _ sectors hwin
  · intro hs hb0 hbl
    obtain ⟨scratch, hread, hwin⟩ := hsrc begin sectors hb0 hbl
    unfold readShifted
    dsimp only
    rw [if_neg hs, readBlocks_of_readAudio_ok hread]
    refine ⟨_, rfl, ?_⟩
    have hw : min sectors ((min c sectors * sectorBytes - 0) / sectorBytes) = min c sectors := by
      rw [Nat.sub_zero, Nat.mul_div_cancel _ (by decide), Nat.min_eq_right (Nat.min_le_right _ _)]
    have hcut := readShifted_cut 0 sectors hwin
    rw [hw, Nat.cast_zero, Int.add_zero] at hcut
    exact hcut

end Drive

/-- A simulated disc with no failure pending and no bad sector reads its bytes exactly, at most
    its transfer cap a call, over every window within its sectors. -/
theorem MemoryDisc.readsDisc (m : MemoryDisc) {c : Nat} {leadout : Int}
    (hf : m.pendingFailures = 0) (hb : m.bad = []) (hc : m.maxTransfer = some c)
    (hl : leadout ≤ m.sectors) : ReadsDisc m (fun p => m.data[p]?.getD 0) leadout c := by
  intro b k hb0 hbk
  have hsb : sectorBytes = 2352 := rfl
  have hsize : b.toInt.toNat * sectorBytes + min k c * sectorBytes ≤ m.data.size := by
    have hfit : (b.toInt.toNat + min k c) * sectorBytes ≤ m.sectors * sectorBytes :=
      Nat.mul_le_mul_right _ (by omega)
    rw [Nat.add_mul] at hfit
    exact hfit.trans (Nat.div_mul_le_self m.data.size sectorBytes)
  have hread : (m.read b k).1 = .ok (m.data.extract (b.toInt.toNat * sectorBytes)
      (b.toInt.toNat * sectorBytes + min k c * sectorBytes)) := by
    unfold MemoryDisc.read
    dsimp only
    rw [if_neg (by simp [hf]), if_neg ?range, hc]
    · dsimp only
      rw [if_neg (by simp [hb])]
    case range =>
      rw [Int32.lt_iff_toInt_lt]
      simp only [MemoryDisc.sectors, Int32.toInt_zero] at hl ⊢
      omega
  refine ⟨_, hread, ⟨?_, fun i hi => ?_⟩⟩
  · rw [ByteArray.size_extract, Nat.min_comm c k]
    omega
  · have hi' : b.toInt.toNat * sectorBytes + i < m.data.size := by
      rw [ByteArray.size_extract] at hi
      omega
    have hpos : (sectorBytes * b.toInt + i).toNat = b.toInt.toNat * sectorBytes + i := by
      rw [hsb] at hi' ⊢
      omega
    rw [ByteArray.getElem_extract, hpos, getElem?_pos m.data _ hi']
    rfl

/-- A disc of forty sectors whose byte `p` is `p` modulo 256, read at most four sectors a call. -/
def rampDisc : MemoryDisc :=
  { data := ⟨Array.ofFn fun p : Fin (40 * sectorBytes) => UInt8.ofNat p⟩,
    toc := ⟨[⟨1, 0, true⟩], 40⟩, maxTransfer := some 4 }

theorem rampDisc_sectors : rampDisc.sectors = 40 := by
  have hsize : rampDisc.data.size = 40 * sectorBytes := by
    simp only [rampDisc, ByteArray.size, Array.size_ofFn]
  rw [MemoryDisc.sectors, hsize, Nat.mul_div_cancel _ (by decide)]

/-- The synthetic drive set on the ramp disc. -/
def rampDrive : Drive MemoryDisc := { syntheticDrive with source := rampDisc, toc := rampDisc.toc }

/-- Four sectors read at sector 10 displaced by 300 bytes on the ramp disc. -/
theorem readShifted_window_rampDrive :
    ReadsDisc rampDrive.source (fun p => rampDisc.data[p]?.getD 0)
        rampDrive.toc.leadout.toInt 4 ∧
      ((0 < (10 : Sector).toInt + (Drive.splitJitter 300).1 ∧
          (10 : Sector).toInt + (Drive.splitJitter 300).1 + 4 + 1 ≤ rampDrive.toc.leadout.toInt →
        ∃ bytes, (rampDrive.readShifted 10 4 300).1 = .ok bytes ∧
          DiscWindow (fun p => rampDisc.data[p]?.getD 0) (sectorBytes * (10 : Sector).toInt + 300)
            (min 4 ((min 4 (4 + 1) * sectorBytes - (Drive.splitJitter 300).2.toNat) /
              sectorBytes)) bytes) ∧
      (¬(0 < (10 : Sector).toInt + (Drive.splitJitter 300).1 ∧
          (10 : Sector).toInt + (Drive.splitJitter 300).1 + 4 + 1 ≤ rampDrive.toc.leadout.toInt) →
        0 ≤ (10 : Sector).toInt → (10 : Sector).toInt + 4 ≤ rampDrive.toc.leadout.toInt →
        ∃ bytes, (rampDrive.readShifted 10 4 300).1 = .ok bytes ∧
          DiscWindow (fun p => rampDisc.data[p]?.getD 0) (sectorBytes * (10 : Sector).toInt)
            (min 4 4) bytes)) :=
  have hsrc : ReadsDisc rampDrive.source (fun p => rampDisc.data[p]?.getD 0)
      rampDrive.toc.leadout.toInt 4 :=
    MemoryDisc.readsDisc rampDisc rfl rfl rfl (by rw [rampDisc_sectors]; decide)
  ⟨hsrc, Drive.readShifted_window hsrc 10 4 300⟩

end VerifiedRip
