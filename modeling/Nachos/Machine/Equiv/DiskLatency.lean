import Mathlib.Data.Int.ModEq
import Mathlib.Order.Bounds.Basic
import Nachos.Machine.DiskLatency

/-!
# The latency of the disk is right

Sector `k` of a track begins to pass under the head at the times `n * RotationTime` with `n` congruent
to `k`.  A request that does not use the track buffer ends at the first time when its sector has passed,
after the seek; one that does is for a sector that has passed since the buffer was begun.
-/

namespace Nachos.DiskHead

variable {d d' : DiskHead} {newSector : ℤ} {writing : Bool}

/-- The head is over a track, and the buffer was begun at a sector boundary. -/
structure Valid (d : DiskHead) : Prop where
  lastSector : 0 ≤ d.lastSector ∧ d.lastSector < NumSectors
  bufferInit : 0 ≤ d.bufferInit ∧ d.bufferInit % RotationTime = 0
  totalTicks : 0 ≤ d.totalTicks

/-! ### The helpers -/

theorem seek_eq (h : d.Valid) (hsector : 0 ≤ newSector) : (d.timeToSeek newSector).1 =
    (newSector / SectorsPerTrack - d.lastSector / SectorsPerTrack).natAbs * SeekTime := by
  unfold timeToSeek
  dsimp only
  rw [Int.tdiv_eq_ediv_of_nonneg hsector, Int.tdiv_eq_ediv_of_nonneg h.lastSector.1]

theorem seek_nonneg (d : DiskHead) (newSector : ℤ) : 0 ≤ (d.timeToSeek newSector).1 := by
  unfold timeToSeek
  dsimp only
  exact Int.mul_nonneg (Int.natCast_nonneg _) (Int.natCast_nonneg _)

theorem seek_eq_zero_iff (h : d.Valid) (hsector : 0 ≤ newSector) :
    (d.timeToSeek newSector).1 = 0 ↔
      newSector / SectorsPerTrack = d.lastSector / SectorsPerTrack := by
  rw [seek_eq h hsector]
  simp only [SeekTime, Nat.cast_ofNat]
  omega

/-- The end of the seek, rounded up to a sector boundary. -/
theorem timeAfter_spec (h : d.Valid) (newSector : ℤ) :
    d.timeAfter newSector % RotationTime = 0 ∧
      d.totalTicks + (d.timeToSeek newSector).1 ≤ d.timeAfter newSector ∧
      d.timeAfter newSector < d.totalTicks + (d.timeToSeek newSector).1 + RotationTime := by
  have hseek := seek_nonneg d newSector
  have hticks := h.totalTicks
  have hrotation : (d.timeToSeek newSector).2 =
      if (d.totalTicks + (d.timeToSeek newSector).1).tmod RotationTime > 0 then
        RotationTime - (d.totalTicks + (d.timeToSeek newSector).1).tmod RotationTime
      else 0 := rfl
  rw [Int.tmod_eq_emod_of_nonneg (by omega)] at hrotation
  unfold timeAfter
  rw [hrotation]
  simp only [RotationTime, Nat.cast_ofNat]
  split_ifs <;> omega

theorem moduloDiff_spec {toSector fromSector : ℤ} (hto : 0 ≤ toSector) (hfrom : 0 ≤ fromSector) :
    0 ≤ moduloDiff toSector fromSector ∧ moduloDiff toSector fromSector < SectorsPerTrack ∧
      fromSector + moduloDiff toSector fromSector ≡ toSector [ZMOD SectorsPerTrack] := by
  unfold moduloDiff Int.ModEq
  dsimp only
  rw [Int.tmod_eq_emod_of_nonneg hto, Int.tmod_eq_emod_of_nonneg hfrom]
  simp only [SectorsPerTrack, Nat.cast_ofNat]
  rw [Int.tmod_eq_emod_of_nonneg (by omega)]
  omega

/-! ### Histories -/

theorem Valid.updateLast (h : d.Valid) (hsector : 0 ≤ newSector ∧ newSector < NumSectors) :
    (d.updateLast newSector).Valid := by
  obtain ⟨hmod, hle, -⟩ := timeAfter_spec h newSector
  have hseek := seek_nonneg d newSector
  have hticks := h.totalTicks
  refine ⟨hsector, ?_, h.totalTicks⟩
  show 0 ≤ (if (d.timeToSeek newSector).1 ≠ 0 then d.timeAfter newSector else d.bufferInit) ∧
    (if (d.timeToSeek newSector).1 ≠ 0 then d.timeAfter newSector else d.bufferInit) %
      RotationTime = 0
  split_ifs
  · exact ⟨by omega, hmod⟩
  · exact h.bufferInit

theorem valid_of_reachable (h : system.Reachable d) : d.Valid := by
  apply @Transition.System.Reachable.invariant _ _ _ Valid _ h
  · rintro d ⟨hlast, hinit, -, hticks⟩
    refine ⟨?_, ?_, hticks⟩
    · rw [hlast]
      decide
    · rw [hinit]
      decide
  · intro d e d' hd hstep
    cases hstep with
    | tick hnow => exact ⟨hd.lastSector, hd.bufferInit, hd.totalTicks.trans hnow⟩
    | request hactive hrange =>
      obtain ⟨hlast, hinit, hticks⟩ := hd.updateLast hrange
      exact ⟨hlast, hinit, hticks⟩
    | handleInterrupt hactive => exact ⟨hd.lastSector, hd.bufferInit, hd.totalTicks⟩

/-! ### Without the track buffer -/

/-- The times when the head has just passed the sector, a whole sector time after it has moved over the
tracks in between. -/
def passed (d : DiskHead) (newSector : ℤ) : Set ℤ :=
  {t | (RotationTime : ℤ) ∣ t ∧
    d.totalTicks + (newSector / SectorsPerTrack - d.lastSector / SectorsPerTrack).natAbs * SeekTime +
      RotationTime ≤ t ∧
    t / RotationTime ≡ newSector + 1 [ZMOD SectorsPerTrack]}

theorem mem_passed (h : d.Valid) (hsector : 0 ≤ newSector) {t : ℤ} :
    t ∈ d.passed newSector ↔ (500 : ℤ) ∣ t ∧ d.totalTicks + (d.timeToSeek newSector).1 + 500 ≤ t ∧
      t / 500 % 32 = (newSector + 1) % 32 := by
  rw [seek_eq h hsector]
  exact Iff.rfl

theorem latency_of_not_trackBuffer (h : ¬ d.TrackBuffer newSector writing) :
    d.totalTicks + d.computeLatency newSector writing = d.timeAfter newSector +
      (moduloDiff newSector ((d.timeAfter newSector).tdiv RotationTime) + 1) * RotationTime := by
  unfold computeLatency
  dsimp only
  rw [if_neg h]
  unfold timeAfter
  simp only [RotationTime, Nat.cast_ofNat]
  omega

theorem isLeast_latency (h : d.Valid) (hsector : 0 ≤ newSector)
    (hbuffer : ¬ d.TrackBuffer newSector writing) :
    IsLeast (d.passed newSector) (d.totalTicks + d.computeLatency newSector writing) := by
  obtain ⟨hmod, hle, hlt⟩ := timeAfter_spec h newSector
  have hseek := seek_nonneg d newSector
  have hticks := h.totalTicks
  have hafter : 0 ≤ d.timeAfter newSector := by omega
  rw [latency_of_not_trackBuffer hbuffer, Int.tdiv_eq_ediv_of_nonneg hafter]
  simp only [RotationTime, Nat.cast_ofNat] at *
  obtain ⟨n, hn⟩ := Int.dvd_of_emod_eq_zero hmod
  have hdiv : d.timeAfter newSector / 500 = n := by omega
  rw [hdiv]
  obtain ⟨hdiff, hdiff', hcongr⟩ := @moduloDiff_spec newSector n hsector (by omega)
  simp only [SectorsPerTrack, Nat.cast_ofNat, Int.ModEq] at hdiff' hcongr
  generalize moduloDiff newSector n = diff at *
  constructor
  · rw [mem_passed h hsector]
    have hend : (d.timeAfter newSector + (diff + 1) * 500) / 500 = n + diff + 1 := by omega
    rw [hend]
    exact ⟨⟨n + diff + 1, by omega⟩, by omega, by omega⟩
  · intro t ht
    rw [mem_passed h hsector] at ht
    obtain ⟨⟨m, rfl⟩, hlater, hpassed⟩ := ht
    -- at `m` the sector has passed, and it had not begun to before `n`
    have hm : 500 * m / 500 = m := by omega
    rw [hm] at hpassed
    have hnm : n + 1 ≤ m := by omega
    have hround : n + diff + 1 ≤ m := by omega
    omega

/-! ### From the track buffer -/

theorem trackBuffer_spec (h : d.Valid) (hsector : 0 ≤ newSector)
    (hbuffer : d.TrackBuffer newSector writing) :
    writing = false ∧ newSector / SectorsPerTrack = d.lastSector / SectorsPerTrack ∧
      ∃ k : ℤ, k ≡ newSector [ZMOD SectorsPerTrack] ∧ d.bufferInit ≤ k * RotationTime ∧
        ∀ t, (RotationTime : ℤ) ∣ t → d.totalTicks ≤ t → (k + 1) * RotationTime ≤ t := by
  obtain ⟨hread, hseek, hpassed⟩ := hbuffer
  refine ⟨hread, (seek_eq_zero_iff h hsector).1 hseek, ?_⟩
  obtain ⟨hmod, hle, hlt⟩ := timeAfter_spec h newSector
  obtain ⟨hinit, hinit'⟩ := h.bufferInit
  rw [Int.tdiv_eq_ediv_of_nonneg hinit] at hpassed
  simp only [RotationTime, Nat.cast_ofNat] at *
  obtain ⟨n, hn⟩ := Int.dvd_of_emod_eq_zero hinit'
  have hdiv : d.bufferInit / 500 = n := by omega
  rw [hdiv] at hpassed
  obtain ⟨hdiff, -, hcongr⟩ := @moduloDiff_spec newSector n hsector (by omega)
  generalize moduloDiff newSector n = diff at *
  -- a negative quotient would not exceed `diff`
  have hnonneg : 0 ≤ d.timeAfter newSector - d.bufferInit := by
    by_contra hneg
    have hquot := Int.tdiv_nonneg (show 0 ≤ -(d.timeAfter newSector - d.bufferInit) by omega)
      (show (0 : ℤ) ≤ 500 by decide)
    rw [Int.neg_tdiv] at hquot
    omega
  rw [Int.tdiv_eq_ediv_of_nonneg hnonneg] at hpassed
  refine ⟨n + diff, hcongr, by omega, ?_⟩
  rintro t ⟨m, rfl⟩ hlater
  omega

/-! ### The theorem -/

/-- **Disk latency is geometrically right**, in every history and for every sector of the disk.

* It is positive, so that the `ASSERT` of `Schedule` does not fail.
* Without the track buffer, the request ends at the first time, a whole sector after the seek, when the
  rotating head has just passed the sector.
* The track buffer is used, at the cost of one sector, only to read a sector of the current track that
  has passed completely under the head between the start of the buffer and the next sector boundary. -/
theorem latency_right (h : system.Reachable d)
    (hsector : 0 ≤ newSector ∧ newSector < NumSectors) :
    0 < d.computeLatency newSector writing ∧
    (¬ d.TrackBuffer newSector writing →
      IsLeast (d.passed newSector) (d.totalTicks + d.computeLatency newSector writing)) ∧
    (d.TrackBuffer newSector writing →
      d.computeLatency newSector writing = RotationTime ∧ writing = false ∧
      newSector / SectorsPerTrack = d.lastSector / SectorsPerTrack ∧
      ∃ k : ℤ, k ≡ newSector [ZMOD SectorsPerTrack] ∧ d.bufferInit ≤ k * RotationTime ∧
        ∀ t, (RotationTime : ℤ) ∣ t → d.totalTicks ≤ t → (k + 1) * RotationTime ≤ t) := by
  have hvalid := valid_of_reachable h
  by_cases hbuffer : d.TrackBuffer newSector writing
  · have hlatency : d.computeLatency newSector writing = RotationTime := by
      unfold computeLatency
      exact if_pos hbuffer
    refine ⟨?_, fun hnot => absurd hbuffer hnot, ?_⟩
    · rw [hlatency]
      decide
    · exact fun _ => ⟨hlatency, trackBuffer_spec hvalid hsector.1 hbuffer⟩
  · have hleast := isLeast_latency hvalid hsector.1 hbuffer
    refine ⟨?_, fun _ => hleast, fun hyes => absurd hyes hbuffer⟩
    have hlater := ((mem_passed hvalid hsector.1).1 hleast.1).2.1
    have hseek := seek_nonneg d newSector
    omega

/-- Sector 40 was written at time 0, when the head moved by one track.  At time 5000 sector 34 of the same
track is in the buffer, and sector 100 is two tracks away. -/
theorem latency_right_afterSeek :
    system.Reachable ⟨40, 500, false, 5000⟩ ∧
      DiskHead.TrackBuffer ⟨40, 500, false, 5000⟩ 34 false ∧
      DiskHead.computeLatency ⟨40, 500, false, 5000⟩ 34 false = RotationTime ∧
      IsLeast (DiskHead.passed ⟨40, 500, false, 5000⟩ 100)
        (5000 + DiskHead.computeLatency ⟨40, 500, false, 5000⟩ 100 true) ∧
      DiskHead.computeLatency ⟨40, 500, false, 5000⟩ 100 true = 13500 := by
  have hreach : system.Reachable ⟨40, 500, false, 5000⟩ := by
    have hinit : system.Reachable ⟨0, 0, false, 0⟩ := .of_init ⟨rfl, rfl, rfl, le_rfl⟩
    have hrequest := hinit.tail (@Step.request _ 40 true rfl (by decide))
    have hdone := hrequest.tail (@Step.tick _ 4500 (by decide))
    exact (hdone.tail (.handleInterrupt rfl)).tail (@Step.tick _ 5000 (by decide))
  have hbuffer : DiskHead.TrackBuffer ⟨40, 500, false, 5000⟩ 34 false := by decide
  refine ⟨hreach, hbuffer, ((latency_right hreach (by decide)).2.2 hbuffer).1, ?_, by decide⟩
  exact (latency_right hreach (by decide)).2.1 (by decide)

end Nachos.DiskHead
