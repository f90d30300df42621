import Nachos.Filesys.Equiv.GrowthLimits

/-!
## A write that finds no room

`WriteAt` does not look at the result of `ExtendFile`: when there are too few clear sectors it goes on
as if the file had grown, and returns the number of bytes it was given.  So it never leaves the file
`Intact` (`failed_growth_not_intact`).

On a consistent disk it does not even return.  Ten files of at most 57 sectors leave more than 400
clear ones, so a write that needs more than there are goes past block 57, and there is no entry for
that block in a second-level table (`wp_writeAt_far`).
-/

namespace Nachos

open Storage Memory

namespace OpenFile

open FileHeader (sectorsFor)

variable {d : Disk} {f : OpenFile} {data : Buf} {n pos s : ℕ}

/-! ### The count -/

theorem wp_store_count (hn : 0 < n) : (f.store data n pos).wp True (fun r _ => r.1 = (n : ℤ)) d := by
  rw [store_eq hn]
  simp only [Prog.wp_do, wp_newBytes]
  intro buf
  apply Prog.wp_mono Prog.wp_trivial
  intro r₁ d₁ _
  apply Prog.wp_mono Prog.wp_trivial
  intro r₂ d₂ _
  apply Prog.wp_mono Prog.wp_trivial
  intro _ d₃ _
  apply FileHeader.wp_setLastModifyTime
  intro t
  rw [Prog.wp_pure]

/-- Whatever has become of the attempt to extend the file, the write goes on with `store`. -/
theorem wp_writeAt_of_store (hn : 0 < n) {Q : ℤ × OpenFile → Disk → Prop}
    (hQ : ∀ f' d', (store f' data n pos).wp True Q d') : (f.writeAt data n pos).wp True Q d := by
  rw [writeAt, writeAtDepth, if_neg (by omega), Prog.wp_do]
  apply Prog.wp_mono Prog.wp_trivial
  intro f' d' _
  exact hQ f' d'

/-- **A write past the end that finds no room, like any other, claims to have stored all its bytes**,
and so it never leaves the file intact. -/
theorem failed_growth_not_intact (hn : 0 < n) (hend : f.length < (pos + n : ℕ)) :
    ¬ (f.writeAt data n pos).wp False (Intact d f s pos) d := by
  intro hintact
  obtain ⟨r, d', hrun, hr⟩ := Prog.exists_yields_of_wp hintact
  have hcount : r.1 = n := hrun.of_wp (wp_writeAt_of_store hn fun _ _ => wp_store_count hn)
  have hstored := hr.count
  omega

/-- An empty file, on a disk with fewer than 1025 clear sectors. -/
theorem exists_noRoom : ∃ (d : Disk) (o : Ownership Disk.Owner ℕ) (s : ℕ) (f : OpenFile),
    d.Holds o ∧ d.headerSector (.entry 0) = some (s : ℤ) ∧ f.hdr.SameFile (d.header s) ∧
      f.length = 0 ∧ d.freeMap.numClear < sectorsFor (1025 * SectorSize) - sectorsFor 0 := by
  obtain ⟨d, o, s, -, H, hs, -, -⟩ := FileSystem.exists_files
  have A := H.opened_empty hs
  refine ⟨d, o, s, ⟨s, d.header s, 0⟩, H, A.entry, .refl _, A.laid.numBytes_toInt, ?_⟩
  rw [BitMap.numClear, List.countP_eq_length_filter]
  have hle := List.length_filter_le (fun i => !d.freeMap.bit i) (List.range d.freeMap.numBits)
  rw [List.length_range] at hle
  have hmany : NumSectors < sectorsFor (1025 * SectorSize) - sectorsFor 0 := by decide
  exact hle.trans_lt hmany

theorem failed_growth_not_intact_noRoom : ∃ (d : Disk) (s : ℕ) (f : OpenFile),
    d.freeMap.numClear < sectorsFor (1025 * SectorSize) - sectorsFor f.length.toNat ∧
      ¬ (f.writeAt (fun _ => 7) (1025 * SectorSize : ℕ) (0 : ℕ)).wp False (Intact d f s 0) d := by
  obtain ⟨d, -, s, f, -, -, -, hlen, hclear⟩ := exists_noRoom
  refine ⟨d, s, f, by rwa [hlen], failed_growth_not_intact (by decide) ?_⟩
  rw [hlen]
  decide

/-! ### Past block 57 -/

theorem wp_byteToSector_far {h : FileHeader} {i : ℕ} (hi : 57 ≤ i) (hlt : i * SectorSize < 2 ^ 31) :
    (h.byteToSector (i * SectorSize : ℕ)).wp True (fun _ _ => False) d := by
  have hoff : (int (i * SectorSize : ℕ)).toNat = i * SectorSize := toNat_int_natCast (by omega)
  unfold FileHeader.byteToSector
  rw [hoff, if_neg (by simp only [SectorSize, NumDirect]; omega), Prog.wp_do]
  apply wp_readSector_partial
  intro _
  rw [if_neg (by simp only [SectorSize, NumDirect]; omega), Prog.wp_abort]
  trivial

theorem wp_writeSectors_far {hdr : FileHeader} {first count j : ℕ} {buf : Buf}
    (hfar : 57 < first + j + count) (hcount : 0 < count)
    (hlt : (first + j + count) * SectorSize < 2 ^ 31) :
    (writeSectors hdr first buf count j).wp True (fun _ _ => False) d := by
  induction count generalizing j d with
  | zero => omega
  | succ count ih =>
    have hlt' : (first + j) * SectorSize < 2 ^ 31 := by
      simp only [SectorSize] at hlt ⊢
      omega
    rw [writeSectors, Prog.wp_do, natCast_position]
    by_cases hj : 57 ≤ first + j
    · apply Prog.wp_mono (wp_byteToSector_far hj hlt')
      intro _ _ hfalse
      exact hfalse.elim
    · apply FileHeader.wp_byteToSector_partial hlt'
      rw [Prog.wp_do]
      apply wp_writeSector_partial
      intro _
      apply ih
      · omega
      · omega
      · simp only [SectorSize] at hlt ⊢
        omega

/-- A write that goes past block 57 does not return. -/
theorem wp_writeAt_far (hn : 0 < n) (hfar : 57 < sectorsFor (pos + n)) (hlt : pos + n < 2 ^ 30) :
    (f.writeAt data n pos).wp True (fun _ _ => False) d := by
  apply wp_writeAt_of_store hn
  intro f' d'
  rw [store_eq hn]
  simp only [Prog.wp_do, wp_newBytes]
  intro buf
  apply Prog.wp_mono Prog.wp_trivial
  intro r₁ d₁ _
  apply Prog.wp_mono Prog.wp_trivial
  intro r₂ d₂ _
  simp only [sectorsFor, SectorSize] at hfar
  apply Prog.wp_mono (wp_writeSectors_far ?_ ?_ ?_)
  · intro _ _ hfalse
    exact hfalse.elim
  all_goals
    simp only [blockCount, SectorSize]
    omega

/-- 1025 sectors for an empty file: there are not so many, and the write overruns the second-level
table. -/
theorem overrun_on_failed_growth : ∃ (d : Disk) (o : Ownership Disk.Owner ℕ) (s : ℕ) (f : OpenFile),
    d.Holds o ∧ d.headerSector (.entry 0) = some (s : ℤ) ∧ f.hdr.SameFile (d.header s) ∧
      f.length = 0 ∧ d.freeMap.numClear < sectorsFor (1025 * SectorSize) - sectorsFor 0 ∧
      (f.writeAt (fun _ => 7) (1025 * SectorSize : ℕ) (0 : ℕ)).wp True (fun _ _ => False) d ∧
      ¬ (f.writeAt (fun _ => 7) (1025 * SectorSize : ℕ) (0 : ℕ)).wp False (Intact d f s 0) d := by
  obtain ⟨d, o, s, f, H, hs, hf, hlen, hclear⟩ := exists_noRoom
  have hfar : (f.writeAt (fun _ => 7) (1025 * SectorSize : ℕ) (0 : ℕ)).wp True (fun _ _ => False) d :=
    wp_writeAt_far (by decide) (by decide) (by decide)
  refine ⟨d, o, s, f, H, hs, hf, hlen, hclear, hfar, fun hintact => ?_⟩
  obtain ⟨r, d', hrun, -⟩ := Prog.exists_yields_of_wp hintact
  exact hrun.of_wp hfar

end OpenFile

end Nachos
