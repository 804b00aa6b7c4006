import VerifiedRip.Proofs.SessionRuns
/-!
# The retry budget of a drive read

A drive asks its source for a batch of sectors and, while the attempts fail, asks again, at most
`maxRetries` times more. The first six attempts ask for the whole batch, each later one for three
quarters of the one before, rounded down, never fewer than one sector. The read answers with the
first attempt that succeeds. When every attempt fails it gives the sector up as skipped if the
last attempt asked for one sector, as unrecoverable otherwise. A drive that does not retry, or a
source that refuses retries, fails at the first failed attempt.

The attempts are told by the source alone: attempt `t` asks the source, in the state the earlier
attempts left it in (`Drive.sourceAt`), for `batchSize n t` sectors, and gets `Drive.attempt`.
The source is any state machine, so this covers every way a source can behave.

## Main definitions

* `batchSize`: the sectors attempt `t` asks for.
* `Drive.sourceAt`, `Drive.attempt`, `Drive.atAttempt`: the attempts of a read.
* `Drive.RetriesWithin`: the two outcomes of a retried read.

## Main statements

* `Drive.readBlocksFrom_of_first_ok`, `Drive.readBlocksFrom_of_all_fail`: the run lemmas.
* `Drive.readBlocks_retries_within`.
-/

namespace VerifiedRip

/-- The sectors that attempt `t` at reading `n` sectors asks for: `n` for the first six attempts,
    then three quarters of the attempt before, rounded down, while that asked for more than one
    sector. -/
def batchSize (n : Nat) : Nat → Nat
  | 0 => n
  | t + 1 => if 5 ≤ t ∧ 1 < batchSize n t then batchSize n t * 3 / 4 else batchSize n t

theorem batchSize_succ (n t : Nat) :
    batchSize n (t + 1) =
      if 5 ≤ t ∧ 1 < batchSize n t then batchSize n t * 3 / 4 else batchSize n t := rfl

theorem batchSize_of_le_five (n : Nat) {t : Nat} (ht : t ≤ 5) : batchSize n t = n := by
  induction t with
  | zero => rfl
  | succ t ih => rw [batchSize_succ, if_neg (by omega), ih (by omega)]

/-- Every attempt asks for at least one sector and at most the `n` first asked for. -/
theorem batchSize_mem {n : Nat} (hn : 1 ≤ n) (t : Nat) : 1 ≤ batchSize n t ∧ batchSize n t ≤ n := by
  induction t with
  | zero => exact ⟨hn, Nat.le_refl n⟩
  | succ t ih =>
    rw [batchSize_succ]
    split <;> omega

/-- The last attempt asks for one sector exactly when the read asked for at most five: three
    shrinks take six sectors to two, and five to one. -/
theorem batchSize_maxRetries_eq_one_iff {n : Nat} (hn : 1 ≤ n) :
    batchSize n maxRetries = 1 ↔ n ≤ 5 := by
  show batchSize n 8 = 1 ↔ n ≤ 5
  rw [batchSize_succ, batchSize_succ, batchSize_succ, batchSize_of_le_five n (Nat.le_refl 5)]
  split_ifs <;> omega

namespace Drive

variable {σ : Type} [SectorSource σ] (d : Drive σ) (begin : Sector) (n : Nat)

/-- The source before attempt `t` at reading `n` sectors at `begin`: each earlier attempt asked it
    for its batch. -/
def sourceAt : Nat → σ
  | 0 => d.source
  | t + 1 => (SectorSource.readAudio (sourceAt t) begin (batchSize n t)).2

/-- The answer the source gives attempt `t`. -/
def attempt (t : Nat) : Except RipError ByteArray :=
  (SectorSource.readAudio (d.sourceAt begin n t) begin (batchSize n t)).1

/-- The drive as attempt `t` finds it: its source as the earlier attempts left it. -/
def atAttempt (t : Nat) : Drive σ := { d with source := d.sourceAt begin n t }

omit [SectorSource σ] in
theorem noteError_source (text : String) : (d.noteError text).source = d.source := by
  unfold noteError
  split <;> rfl

variable {d begin n}

theorem readAudio_atAttempt (t : Nat) :
    SectorSource.readAudio (d.atAttempt begin n t).source begin (batchSize n t) =
      (d.attempt begin n t, d.sourceAt begin n (t + 1)) := rfl

/-- An attempt that succeeds ends the read with its answer. -/
theorem readBlocksFrom_of_attempt_ok {t : Nat} {bytes : ByteArray}
    (h : d.attempt begin n t = .ok bytes) :
    (d.atAttempt begin n t).readBlocksFrom begin (batchSize n t) t =
      (.ok bytes, d.atAttempt begin n (t + 1)) := by
  rw [readBlocksFrom, readAudio_atAttempt, h]
  rfl

/-- A read whose first attempt succeeds answers with it. -/
theorem readBlocks_of_readAudio_ok {bytes : ByteArray}
    (h : (SectorSource.readAudio d.source begin n).1 = .ok bytes) :
    d.readBlocks begin n =
      (.ok bytes, { d with source := (SectorSource.readAudio d.source begin n).2 }) := by
  have h0 : d.attempt begin n 0 = .ok bytes := h
  exact readBlocksFrom_of_attempt_ok h0

/-- An attempt that fails on a drive that does not retry, or over a source that refuses
    retries once asked, ends the read at once. -/
theorem readBlocksFrom_of_no_retry {t : Nat} {err : RipError}
    (h : d.attempt begin n t = .error err)
    (hno : d.errorRetry = false ∨ SectorSource.supportsRetry (d.sourceAt begin n (t + 1)) = false) :
    ((d.atAttempt begin n t).readBlocksFrom begin (batchSize n t) t).1 = .error (.noRetry begin) ∧
      ((d.atAttempt begin n t).readBlocksFrom begin (batchSize n t) t).2.source =
        d.sourceAt begin n (t + 1) := by
  rw [readBlocksFrom, readAudio_atAttempt, h]
  dsimp only
  rw [if_pos (by rcases hno with h | h <;> simp [atAttempt, h])]
  exact ⟨rfl, noteError_source _ _⟩

/-- An attempt that fails before the last, on a drive that retries and a source that allows it,
    leads to the next attempt with its batch. -/
theorem readBlocksFrom_of_attempt_error {t : Nat} {err : RipError}
    (h : d.attempt begin n t = .error err) (hr : d.errorRetry = true)
    (hs : SectorSource.supportsRetry (d.sourceAt begin n (t + 1)) = true) (ht : t < maxRetries) :
    (d.atAttempt begin n t).readBlocksFrom begin (batchSize n t) t =
      (d.atAttempt begin n (t + 1)).readBlocksFrom begin (batchSize n (t + 1)) (t + 1) := by
  have hm : maxRetries = 8 := rfl
  rw [readBlocksFrom, readAudio_atAttempt, h]
  dsimp only
  rw [if_neg (by simp [atAttempt, hr, hs]), if_neg (by omega), if_neg (by omega)]
  rfl

/-- When the last attempt fails too, the read gives the sector up: as skipped after `maxRetries`
    retries if that attempt asked for one sector, as unrecoverable otherwise. -/
theorem readBlocksFrom_of_last_error {err : RipError}
    (h : d.attempt begin n maxRetries = .error err) (hr : d.errorRetry = true)
    (hs : SectorSource.supportsRetry (d.sourceAt begin n (maxRetries + 1)) = true) :
    ((d.atAttempt begin n maxRetries).readBlocksFrom begin (batchSize n maxRetries) maxRetries).1 =
        .error (if batchSize n maxRetries = 1 then .sectorSkipped begin (Int32.ofNat maxRetries)
          else .unrecoverable begin) ∧
      ((d.atAttempt begin n maxRetries).readBlocksFrom begin (batchSize n maxRetries)
        maxRetries).2.source = d.sourceAt begin n (maxRetries + 1) := by
  rw [readBlocksFrom, readAudio_atAttempt, h]
  dsimp only
  rw [if_neg (by simp [atAttempt, hr, hs])]
  by_cases h1 : batchSize n maxRetries = 1
  · rw [if_pos ⟨h1, by decide⟩, if_pos h1]
    exact ⟨rfl, noteError_source _ _⟩
  · rw [if_neg (fun h => h1 h.1), if_neg h1, if_pos (by decide)]
    exact ⟨rfl, noteError_source _ _⟩

theorem attempt_error_of_isOk {t : Nat} (h : (d.attempt begin n t).isOk = false) :
    ∃ err, d.attempt begin n t = .error err := by
  cases hat : d.attempt begin n t with
  | ok bytes => simp [hat, Except.isOk, Except.toBool] at h
  | error err => exact ⟨err, rfl⟩

section Retrying

variable (hr : d.errorRetry = true)
  (hs : ∀ t, SectorSource.supportsRetry (d.sourceAt begin n (t + 1)) = true)
include hr hs

/-- Attempts from `t` on that fail up to attempt `k`, which succeeds, end the read with `k`'s
    answer and the source as attempt `k` left it. -/
theorem readBlocksFrom_of_first_ok {k : Nat} (hk : k ≤ maxRetries) {bytes : ByteArray}
    (hok : d.attempt begin n k = .ok bytes) (t : Nat) (htk : t ≤ k)
    (hfail : ∀ u, t ≤ u → u < k → (d.attempt begin n u).isOk = false) :
    (d.atAttempt begin n t).readBlocksFrom begin (batchSize n t) t =
      (.ok bytes, d.atAttempt begin n (k + 1)) := by
  -- induction on the attempts left before `k`
  induction hleft : k - t generalizing t with
  | zero =>
    obtain rfl : t = k := by omega
    exact readBlocksFrom_of_attempt_ok hok
  | succ m ih =>
    obtain ⟨err, herr⟩ := attempt_error_of_isOk (hfail t (Nat.le_refl t) (by omega))
    rw [readBlocksFrom_of_attempt_error herr hr (hs t) (by omega)]
    exact ih (t + 1) (by omega) (fun u hu hk => hfail u (by omega) hk) (by omega)

/-- Attempts from `t` on that all fail give the sector up after the last attempt, with the source
    as that attempt left it. -/
theorem readBlocksFrom_of_all_fail (t : Nat) (ht : t ≤ maxRetries)
    (hfail : ∀ u, t ≤ u → u ≤ maxRetries → (d.attempt begin n u).isOk = false) :
    ((d.atAttempt begin n t).readBlocksFrom begin (batchSize n t) t).1 =
        .error (if batchSize n maxRetries = 1 then .sectorSkipped begin (Int32.ofNat maxRetries)
          else .unrecoverable begin) ∧
      ((d.atAttempt begin n t).readBlocksFrom begin (batchSize n t) t).2.source =
        d.sourceAt begin n (maxRetries + 1) := by
  -- induction on the attempts left before the last
  induction hleft : maxRetries - t generalizing t with
  | zero =>
    obtain rfl : t = maxRetries := by omega
    obtain ⟨err, herr⟩ := attempt_error_of_isOk (hfail maxRetries (Nat.le_refl _) (Nat.le_refl _))
    exact readBlocksFrom_of_last_error herr hr (hs _)
  | succ m ih =>
    obtain ⟨err, herr⟩ := attempt_error_of_isOk (hfail t (Nat.le_refl t) ht)
    rw [readBlocksFrom_of_attempt_error herr hr (hs t) (by omega)]
    exact ih (t + 1) (by omega) (fun u hu hle => hfail u (by omega) hle) (by omega)

end Retrying

variable (d begin n)

/-- What a retried read of `n` sectors at `begin` does. If attempt `k`, within the budget, is the
    first to succeed, the read answers with its bytes, and the source has been asked exactly the
    attempts `0, …, k`, each for its batch. If all `maxRetries + 1` attempts fail, the read gives
    the sector up, as skipped after `maxRetries` retries when the last attempt asked for one
    sector and as unrecoverable otherwise, and the source has been asked exactly those attempts. -/
structure RetriesWithin : Prop where
  first_ok : ∀ k ≤ maxRetries, (∀ t < k, (d.attempt begin n t).isOk = false) → ∀ bytes,
    d.attempt begin n k = .ok bytes → d.readBlocks begin n = (.ok bytes, d.atAttempt begin n (k + 1))
  all_fail : (∀ t ≤ maxRetries, (d.attempt begin n t).isOk = false) →
    (d.readBlocks begin n).1 =
        .error (if batchSize n maxRetries = 1 then .sectorSkipped begin (Int32.ofNat maxRetries)
          else .unrecoverable begin) ∧
      (d.readBlocks begin n).2.source = d.sourceAt begin n (maxRetries + 1)

/-- A read that retries within its budget. For every request of `n ≥ 1` sectors, each attempt
    asks for between one and `n` sectors, and the last asks for one exactly when `n ≤ 5`. On a
    drive that retries, over any source that allows retries in every state the attempts leave it
    in, the read answers with the first attempt that succeeds, or gives the sector up after
    `maxRetries + 1` failed attempts (`RetriesWithin`). On a drive that does not retry, or over a
    source that refuses retries after a first failed attempt, the read fails at once, having asked
    the source once. -/
theorem readBlocks_retries_within (hn : 1 ≤ n) :
    (∀ t, 1 ≤ batchSize n t ∧ batchSize n t ≤ n) ∧ (batchSize n maxRetries = 1 ↔ n ≤ 5) ∧
    (d.errorRetry = true → (∀ t, SectorSource.supportsRetry (d.sourceAt begin n (t + 1)) = true) →
      d.RetriesWithin begin n) ∧
    ((d.errorRetry = false ∨ SectorSource.supportsRetry (d.sourceAt begin n 1) = false) →
      (d.attempt begin n 0).isOk = false →
      (d.readBlocks begin n).1 = .error (.noRetry begin) ∧
        (d.readBlocks begin n).2.source = d.sourceAt begin n 1) := by
  refine ⟨batchSize_mem hn, batchSize_maxRetries_eq_one_iff hn, fun hr hs => ⟨?_, ?_⟩, ?_⟩
  · intro k hk hfail bytes hok
    exact readBlocksFrom_of_first_ok hr hs hk hok 0 (Nat.zero_le k) fun u _ hu => hfail u hu
  · intro hfail
    exact readBlocksFrom_of_all_fail hr hs 0 (Nat.zero_le _) fun u _ hu => hfail u hu
  · intro hno h0
    obtain ⟨err, herr⟩ := attempt_error_of_isOk h0
    exact readBlocksFrom_of_no_retry herr hno

end Drive

/-- The simulated disc keeps allowing or refusing retries, whatever it is asked to read. -/
theorem MemoryDisc.read_retrySupported (disc : MemoryDisc) (b : Sector) (k : Nat) :
    (disc.read b k).2.retrySupported = disc.retrySupported := by
  unfold MemoryDisc.read
  dsimp only
  split_ifs <;> rfl

/-- Over the simulated disc, every attempt finds retries allowed or refused as the drive's disc
    had them. -/
theorem Drive.sourceAt_retrySupported (d : Drive MemoryDisc) (b : Sector) (n t : Nat) :
    (d.sourceAt b n t).retrySupported = d.source.retrySupported := by
  induction t with
  | zero => rfl
  | succ t ih => exact (MemoryDisc.read_retrySupported _ _ _).trans ih

/-- The synthetic drive with its next nine reads made to fail. -/
def failingDrive : Drive MemoryDisc :=
  { syntheticDrive with source := syntheticDrive.source.failNext 9 }

/-- Reading six sectors at sector 10 of the failing drive retries within the budget. -/
theorem readBlocks_retries_within_failingDrive :
    1 ≤ 6 ∧ failingDrive.errorRetry = true ∧
      (∀ t, SectorSource.supportsRetry (failingDrive.sourceAt 10 6 (t + 1)) = true) ∧
      failingDrive.RetriesWithin 10 6 :=
  have hs : ∀ t, SectorSource.supportsRetry (failingDrive.sourceAt 10 6 (t + 1)) = true :=
    fun t => (Drive.sourceAt_retrySupported failingDrive 10 6 (t + 1)).trans rfl
  ⟨by decide, rfl, hs, (failingDrive.readBlocks_retries_within 10 6 (by decide)).2.2.1 rfl hs⟩

end VerifiedRip
