import Nachos.Filesys.Equiv.FileSystem

/-!
## `Create` and `Remove` touch nothing else

`Created` and `Removed` say which entries, sectors and owners a call has changed.  Everything else
about the two disks follows from the owners before and after: a sector of another file is not one of
the free map, nor of the directory, nor of the new file.
-/

namespace Nachos

open Storage Memory

namespace FileSystem

variable {d d₁ d' : Disk} {o o₁ o' : Ownership Disk.Owner ℕ} {fs fs' : FileSystem} {name : Buf}
  {size sector : ℕ} {i : Fin NumDirEntries} {l : List ℕ}

/-! ### `Create` -/

namespace Created

/-- The sectors of the new file belonged to nobody. -/
theorem not_held (C : Created d o name size i sector l d' o') (hv : fs.Valid d o) {s : ℕ}
    (hs : s ∈ sector :: l) : ¬ o.Held s := by
  rintro ⟨w, hw⟩
  rw [← C.own_self] at hs
  by_cases hwi : w = .entry i
  · rw [hwi, hv.own_entry_of_unused C.unused] at hw
    cases hw
  · rw [← C.own_of_ne w hwi] at hw
    exact hwi (o'.unique hw hs)

theorem sameEntry (C : Created d o name size i sector l d' o') (hv : fs.Valid d o)
    {j : Fin NumDirEntries} (hj : d.InUse j) : d.SameEntry d' j := by
  have hji : j ≠ i := by
    rintro rfl
    exact hj C.unused
  refine ⟨?_, ?_⟩
  · rw [C.table j, Directory.addAt_of_ne fun h => hji (Fin.ext h)]
  · intro s hs
    rw [hv.holds.sectors] at hs
    obtain ⟨x, hx, rfl⟩ := List.mem_map.1 hs
    apply C.frame
    · rintro rfl
      exact C.not_held hv List.mem_cons_self ⟨_, hx⟩
    · intro hmap
      cases o.unique hx hmap
    · intro hdir
      cases o.unique hx hdir

theorem afterCreate (C : Created d o name size i sector l d' o') (hv : fs.Valid d o)
    (hv' : fs'.Valid d' o') (hnone : d.directory.findIndex name = none)
    (hsize : FileHeader.sectorsFor size ≤ NumDirect) : d.AfterCreate name size d' := by
  have hindex := C.findIndex_eq hnone
  have hrange : ∀ s ∈ sector :: l, s < NumSectors := by
    intro s hs
    exact hv'.holds.range s ⟨.entry i, C.own_self.symm ▸ hs⟩
  have hbytes : size < 2 ^ 31 := by
    simp only [FileHeader.sectorsFor, SectorSize, NumDirect] at hsize
    omega
  refine ⟨⟨i, sector, l, hindex, ?_, ?_, ?_, C.length, ?_, ?_, ?_⟩, fun j hj => C.sameEntry hv hj⟩
  · rw [Directory.find, hindex]
    show (d'.directory.table i).sector.toInt = sector
    rw [C.table i, (d.directory.addAt_self i name sector).2]
    exact toInt_int_natCast ((hrange sector List.mem_cons_self).trans (by decide))
  · rw [FileHeader.fileLength, C.lists.numBytes, toInt_int_natCast hbytes]
  · apply C.lists.listed_eq (C.length ▸ hsize)
    intro s hs
    exact hrange s (List.mem_cons_of_mem _ hs)
  · exact C.own_self ▸ o'.nodup (.entry i)
  · intro s hs
    refine ⟨hrange s hs, ?_⟩
    have hnot := C.not_held hv hs
    rw [← hv.holds.marked s (hrange s hs)] at hnot
    simpa using hnot
  · intro s hs
    rw [hv'.holds.marked s hs, C.held_iff hv, hv.holds.marked s hs]

end Created

/-! ### `Remove` -/

namespace Removed

theorem held_iff (R : Removed d o i d' o') (s : ℕ) :
    o'.Held s ↔ o.Held s ∧ s ∉ o.own (.entry i) := by
  constructor
  · rintro ⟨w, hw⟩
    have hwi : w ≠ .entry i := by
      rintro rfl
      rw [R.own_self] at hw
      cases hw
    rw [R.own_of_ne w hwi] at hw
    exact ⟨⟨w, hw⟩, fun hs => hwi (o.unique hw hs)⟩
  · rintro ⟨⟨w, hw⟩, hs⟩
    have hwi : w ≠ .entry i := by
      rintro rfl
      exact hs hw
    exact ⟨w, (R.own_of_ne w hwi).symm ▸ hw⟩

theorem sameEntry (R : Removed d o i d' o') (hv : fs.Valid d o) {j : Fin NumDirEntries}
    (hji : j ≠ i) : d.SameEntry d' j := by
  refine ⟨R.table_of_ne j hji, ?_⟩
  intro s hs
  rw [hv.holds.sectors] at hs
  obtain ⟨x, hx, rfl⟩ := List.mem_map.1 hs
  apply R.frame
  · intro hmap
    cases o.unique hx hmap
  · intro hdir
    cases o.unique hx hdir

theorem afterRemove (R : Removed d o i d' o') (hv : fs.Valid d o) (hv' : fs'.Valid d' o')
    (hindex : d.directory.findIndex name = some (i : ℕ)) : d.AfterRemove name d' := by
  refine ⟨i, hindex, not_not.2 R.table_self, ?_, fun j hji _ => R.sameEntry hv hji⟩
  intro s hs
  rw [hv'.holds.marked s hs, R.held_iff, hv.holds.marked s hs, hv.holds.sectors, List.mem_map]
  constructor
  · rintro ⟨hheld, hnot⟩
    refine ⟨hheld, ?_⟩
    rintro ⟨x, hx, hxs⟩
    exact hnot (Int.ofNat.inj hxs ▸ hx)
  · rintro ⟨hheld, hnot⟩
    exact ⟨hheld, fun hmem => hnot ⟨s, hmem, rfl⟩⟩

/-- Removing the file that has just been created. -/
theorem restored (R : Removed d₁ o₁ i d' o') (C : Created d o name size i sector l d₁ o₁)
    (hv : fs.Valid d o) (hv₁ : fs'.Valid d₁ o₁) {fs₂ : FileSystem} (hv' : fs₂.Valid d' o') :
    d.Restored d' := by
  have hfiles : ∀ j, d.InUse j → d.SameEntry d' j := by
    intro j hj
    have hji : j ≠ i := by
      rintro rfl
      exact hj C.unused
    obtain ⟨htable, hsectors⟩ := C.sameEntry hv hj
    obtain ⟨htable', hsectors'⟩ := R.sameEntry hv₁ hji
    refine ⟨htable'.trans htable, ?_⟩
    intro s hs
    have hs₁ : s ∈ d₁.sectorsOf (.entry j) := by
      rw [hv.holds.sectors] at hs
      rwa [hv₁.holds.sectors, C.own_of_ne _ fun h => hji (Disk.Owner.entry.inj h)]
    rw [hsectors' s hs₁, hsectors s hs]
  refine ⟨?_, ?_, hfiles⟩
  · intro s hs
    have hheld : o'.Held s ↔ o.Held s := by
      rw [R.held_iff, C.held_iff hv, C.own_self]
      constructor
      · rintro ⟨hheld | hmem, hnot⟩
        · exact hheld
        · exact absurd hmem hnot
      · intro hheld
        exact ⟨Or.inl hheld, fun hmem => C.not_held hv hmem hheld⟩
    rw [Bool.eq_iff_iff, hv'.holds.marked s hs, hheld, hv.holds.marked s hs]
  · intro j
    by_cases hji : j = i
    · subst hji
      exact iff_of_false (not_not.2 R.table_self) (not_not.2 C.unused)
    · unfold Disk.InUse
      rw [R.table_of_ne j hji, C.table j, Directory.addAt_of_ne fun h => hji (Fin.ext h)]

end Removed

/-- **`Create` and `Remove` do what they say and touch nothing else.**  A `Create` that returns TRUE
has added the file, and removing it restores what was there; one that returns FALSE has changed no
sector.  `Remove` returns TRUE exactly when the name is there, and then has removed that file. -/
theorem create_remove_contract (hv : fs.Valid d o) (name : Buf) (hsize : size ≤ NumDirect * SectorSize) :
    (fs.create name size).wp True (fun r d₁ =>
        (r.1 = true → d.AfterCreate name size d₁ ∧
          (r.2.remove name).wp False (fun r' d' => r'.1 = true ∧ d.Restored d') d₁) ∧
        (r.1 = false → d₁ = d)) d ∧
      (fs.remove name).wp False (fun r d' =>
        (r.1 = true ↔ (d.directory.findIndex name).isSome) ∧
          (r.1 = true → d.AfterRemove name d')) d := by
  have hsectors : FileHeader.sectorsFor size ≤ NumDirect := by
    simp only [FileHeader.sectorsFor, SectorSize, NumDirect] at hsize ⊢
    omega
  constructor
  · apply wp_create_cases hv hsectors
    · intro fs' _ _
      exact ⟨by simp, fun _ => rfl⟩
    · exact fun _ => trivial
    · intro fs' d₁ o₁ i sector l hnone hv₁ C
      refine ⟨fun _ => ⟨C.afterCreate hv hv₁ hnone hsectors, ?_⟩, by simp⟩
      apply wp_remove_cases hv₁
      · intro _ hnone₁
        rw [C.findIndex_eq hnone] at hnone₁
        cases hnone₁
      · intro fs₂ d' o' j hj hv' R
        rw [C.findIndex_eq hnone, Option.some.injEq] at hj
        obtain rfl : i = j := Fin.ext hj
        exact ⟨rfl, R.restored C hv hv₁ hv'⟩
  · apply wp_remove_cases hv
    · intro fs' hnone _
      rw [hnone]
      exact ⟨by simp, by simp⟩
    · intro fs' d' o' i hi hv' R
      rw [hi]
      exact ⟨by simp, fun _ => R.afterRemove hv hv' hi⟩

/-- Beside two other files, a file of three sectors is created, and removed again. -/
theorem create_remove_contract_twoFiles : ∃ (fs fs₁ fs₂ : FileSystem) (d d₁ d₂ : Disk), d.InUse 0 ∧
    d.InUse 1 ∧ (fs.create (fun _ => 67) (300 : ℕ)).Yields d (true, fs₁) d₁ ∧
    d.AfterCreate (fun _ => 67) 300 d₁ ∧ (fs₁.remove fun _ => 67).Yields d₁ (true, fs₂) d₂ ∧
    d₁.AfterRemove (fun _ => 67) d₂ ∧ d.Restored d₂ := by
  obtain ⟨fs, d, o, s, t, -, hfilled, -⟩ := exists_twoFiles
  obtain ⟨fs₁, d₁, o₁, sector, l, hrun₁, hfilled₁, -⟩ := hfilled.create (fun _ => 67) 300
    (by decide) (by decide) (by decide) (by decide) (by decide)
  obtain ⟨hafter, hremove⟩ :=
    (hrun₁.of_wp (create_remove_contract hfilled.valid (fun _ => 67) (by decide)).1).1 rfl
  have hhalf := (create_remove_contract hfilled₁.valid (fun _ => 67) (Nat.zero_le _)).2
  obtain ⟨⟨_, fs₂⟩, d₂, hrun₂, ⟨rfl, hrestored⟩, -, hafter₂⟩ :=
    Prog.exists_yields_of_wp (Prog.wp_and hremove hhalf)
  exact ⟨fs, fs₁, fs₂, d, d₁, d₂, (hfilled.inUse 0).2 (by decide), (hfilled.inUse 1).2 (by decide), hrun₁,
    hafter, hrun₂, hafter₂ rfl, hrestored⟩

end FileSystem

end Nachos
