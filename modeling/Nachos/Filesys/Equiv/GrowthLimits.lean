import Nachos.Filesys.Equiv.Growth

/-!
## When a write past the end of a file goes wrong

The second half of a `WriteAt` writes only to sectors that `ByteToSector` returns
(`wp_store_frame`).  When these are not the sectors the header lists, the data do not get where they
belong; free sectors and data sectors of ones make `ByteToSector` return `-1`.
-/

namespace Nachos

open Storage Memory

variable {d : Disk} {h : FileHeader} {f : OpenFile}

/-! ### What a write leaves alone -/

namespace FileHeader

/-- `ByteToSector` returns what `lookup` says, or fails. -/
theorem wp_byteToSector_partial {j : ℕ} (hj : j * SectorSize < 2 ^ 31) {Q : ℤ → Disk → Prop}
    (hQ : Q (h.lookup d j) d) : (h.byteToSector (j * SectorSize : ℕ)).wp True Q d := by
  have hoff : (int (j * SectorSize : ℕ)).toNat = j * SectorSize := toNat_int_natCast (by omega)
  unfold byteToSector
  unfold lookup at hQ
  rw [hoff]
  by_cases hdirect : j < NumDirect - 1
  · rw [if_pos hdirect] at hQ
    rw [if_pos (by simp only [SectorSize, NumDirect] at *; omega), Prog.wp_pure,
      Nat.mul_div_cancel j (by decide)]
    exact hQ
  · rw [if_neg hdirect] at hQ
    rw [if_neg (by simp only [SectorSize, NumDirect] at *; omega), Prog.wp_do]
    have hpos : (j * SectorSize - SectorSize * (NumDirect - 1)) / SectorSize = j - (NumDirect - 1) := by
      simp only [SectorSize, NumDirect]
      omega
    apply wp_readSector_partial
    intro _
    rw [hpos]
    split_ifs
    · rw [Prog.wp_pure]
      exact hQ
    · exact Prog.wp_abort.mpr trivial

/-- It only reads. -/
theorem wp_byteToSector_reads {offset : ℤ} :
    (h.byteToSector offset).wp True (fun _ d' => d' = d) d := by
  unfold byteToSector
  by_cases hdirect : (int offset).toNat < SectorSize * (NumDirect - 1)
  · rw [if_pos hdirect, Prog.wp_pure]
  · rw [if_neg hdirect, Prog.wp_do]
    apply wp_readSector_partial
    intro _
    split_ifs
    · rw [Prog.wp_pure]
    · exact Prog.wp_abort.mpr trivial

end FileHeader

namespace OpenFile

theorem wp_readSectors_reads {hdr : FileHeader} {first : ℤ} {n j : ℕ} {buf : Buf} :
    (readSectors hdr first n j buf).wp True (fun _ d' => d' = d) d := by
  induction n generalizing j buf with
  | zero =>
    rw [readSectors, Prog.wp_pure]
  | succ n ih =>
    rw [readSectors, Prog.wp_do]
    apply Prog.wp_mono FileHeader.wp_byteToSector_reads
    rintro t _ rfl
    rw [Prog.wp_do]
    apply wp_readSector_partial
    intro _
    exact ih

theorem wp_readAt_reads {into : Buf} {n pos : ℤ} :
    (f.readAt into n pos).wp True (fun r d' => d' = d ∧ r.2.2.hdr.SameFile f.hdr) d := by
  unfold readAt
  by_cases hnone : n ≤ 0 ∨ pos ≥ f.hdr.fileLength
  · rw [if_pos hnone, Prog.wp_pure]
    exact ⟨rfl, .refl _⟩
  · rw [if_neg hnone]
    simp only [Prog.wp_do, wp_newBytes]
    intro buf
    apply Prog.wp_mono wp_readSectors_reads
    rintro buf' _ rfl
    by_cases hneg : pos - divRoundDown pos SectorSize * SectorSize < 0
    · rw [if_pos hneg]
      exact Prog.wp_abort.mpr trivial
    · rw [if_neg hneg, Prog.wp_do]
      apply FileHeader.wp_setLastVisitTime
      intro t
      rw [Prog.wp_pure]
      exact ⟨rfl, rfl, rfl, rfl, rfl⟩

theorem wp_readInto_reads {c : Prop} {_ : Decidable c} {buf : Buf} {at_ : ℕ} {pos : ℤ} :
    (if c then f.readInto buf at_ pos else pure (buf, f)).wp True
      (fun r d' => d' = d ∧ r.2.hdr.SameFile f.hdr) d := by
  split_ifs
  · rw [readInto, Prog.wp_do]
    apply Prog.wp_mono wp_readAt_reads
    rintro r _ ⟨rfl, hs⟩
    rw [Prog.wp_pure]
    exact ⟨rfl, hs⟩
  · rw [Prog.wp_pure]
    exact ⟨rfl, .refl _⟩

variable {P : ℕ → Prop}

/-- The sectors that `ByteToSector` does not return are not written. -/
theorem wp_writeSectors_frame {d₀ : Disk} {hdr : FileHeader} {first n j : ℕ} {buf : Buf}
    (hd : ∀ x, P x → d x = d₀ x) (hlt : (first + j + n) * SectorSize < 2 ^ 31)
    (hP : ∀ d' : Disk, (∀ x, P x → d' x = d₀ x) → ∀ i, first + j ≤ i → i < first + j + n →
      ∀ x : ℕ, P x → hdr.lookup d' i ≠ x) :
    (writeSectors hdr first buf n j).wp True (fun _ d' => ∀ x, P x → d' x = d₀ x) d := by
  induction n generalizing j d with
  | zero =>
    rw [writeSectors, Prog.wp_pure]
    exact hd
  | succ n ih =>
    rw [writeSectors, Prog.wp_do, natCast_position]
    apply FileHeader.wp_byteToSector_partial (by simp only [SectorSize] at *; omega)
    rw [Prog.wp_do]
    apply wp_writeSector_partial
    intro hr
    apply ih
    · intro x hx
      rw [Function.update_of_ne, hd x hx]
      rintro rfl
      refine hP d hd (first + j) le_rfl (by omega) _ hx ?_
      rw [Int.toNat_of_nonneg hr.1]
    · simp only [SectorSize] at *
      omega
    · intro d' hd' i h1 h2
      exact hP d' hd' i (by omega) (by omega)

/-- As long as the sectors `P` do not change, `ByteToSector` returns none of them for the blocks of a
write of `n` bytes at `pos`. -/
def Avoids (h : FileHeader) (d : Disk) (pos n : ℕ) (P : ℕ → Prop) : Prop :=
  ∀ d' : Disk, (∀ x, P x → d' x = d x) → ∀ i, pos / SectorSize ≤ i → i * SectorSize < pos + n →
    ∀ x : ℕ, P x → h.lookup d' i ≠ x

/-- The second half of `WriteAt` writes no sector that `ByteToSector` does not return. -/
theorem wp_store_frame {data : Buf} {n pos : ℕ} (hn : 0 < n) (hlt : pos + n < 2 ^ 30)
    (hP : Avoids f.hdr d pos n P) :
    (f.store data n pos).wp True
      (fun r d' => (∀ x, P x → d' x = d x) ∧ r.2.hdr.SameFile f.hdr) d := by
  rw [store_eq hn]
  simp only [Prog.wp_do, wp_newBytes]
  intro buf
  apply Prog.wp_mono wp_readInto_reads
  rintro ⟨buf₁, f₁⟩ d₁ ⟨hd₁, hs₁⟩
  rw [hd₁]
  apply Prog.wp_mono wp_readInto_reads
  rintro ⟨buf₂, f₂⟩ d₂ ⟨hd₂, hs₂⟩
  rw [hd₂]
  have hsame : f₂.hdr.SameFile f.hdr := hs₂.trans hs₁
  have hlookup : ∀ d' i, f₂.hdr.lookup d' i = f.hdr.lookup d' i := by
    intro d' i
    rw [FileHeader.lookup, FileHeader.lookup, hsame.dataSectors]
  apply Prog.wp_mono (wp_writeSectors_frame (P := P) (fun _ _ => rfl) ?_ ?_)
  · intro _ d' hd'
    apply FileHeader.wp_setLastModifyTime
    intro t
    rw [Prog.wp_pure]
    exact ⟨hd', hsame.hdrSector, hsame.numBytes, hsame.numSectors, hsame.dataSectors⟩
  · simp only [blockCount, SectorSize]
    omega
  · intro d' hd' i h1 h2
    rw [hlookup]
    refine hP d' hd' i (by omega) ?_
    simp only [blockCount, SectorSize] at *
    omega

end OpenFile

/-! ### Disks of the same structure -/

namespace Disk

open FileHeader (sectorsFor slot Laid newSectors)
open OpenFile (Extended Grown GrowsWell)

variable {d₂ : Disk} {o : Ownership Owner ℕ} {x : ℕ}

theorem structural_of_mem (H : d.Arranged o) (hx : x ∈ o.own .freeMap ∨ x ∈ o.own .directory) :
    d.Structural x := by
  rcases hx with hx | hx
  · refine Or.inl ?_
    rw [H.sectors]
    exact List.mem_map.mpr ⟨x, hx, rfl⟩
  · refine Or.inr (Or.inl ?_)
    rw [H.sectors]
    exact List.mem_map.mpr ⟨x, hx, rfl⟩

/-- What a structural sector is used for. -/
theorem Structural.cases (H : d.Arranged o) (hx : d.Structural x) :
    x ∈ o.own .freeMap ∨ x ∈ o.own .directory ∨ ∃ (w : Owner) (t : ℕ) (l : List ℕ),
      d.headerSector w = some (t : ℤ) ∧ o.own w = t :: l ∧ (x = t ∨
        NumDirect < (d.header t).numSectors.toNat ∧ x ∈ l ∧
          ((d.header t).dataSectors 25).toInt = x) := by
  rcases hx with hx | hx | ⟨w, t, ht, hx⟩
  · rw [H.sectors] at hx
    obtain ⟨y, hy, heq⟩ := List.mem_map.mp hx
    exact Or.inl (Int.ofNat.inj heq ▸ hy)
  · rw [H.sectors] at hx
    obtain ⟨y, hy, heq⟩ := List.mem_map.mp hx
    exact Or.inr (Or.inl (Int.ofNat.inj heq ▸ hy))
  · obtain ⟨t, l, rfl, hown, -, hl⟩ := H.own_eq ht
    refine Or.inr (Or.inr ⟨w, t, l, ht, hown, ?_⟩)
    rcases hx with hx | ⟨hn, hx⟩
    · exact Or.inl (Int.ofNat.inj hx)
    · obtain ⟨y, hy, heq⟩ := exists_index hn hl
      obtain rfl : x = y := Int.ofNat.inj (hx.trans heq)
      exact Or.inr ⟨hn, hy, heq⟩

theorem not_structural_of_free (H : d.Arranged o) (hx : ¬ o.Held x) : ¬ d.Structural x := by
  intro hs
  rcases hs.cases H with h | h | ⟨w, t, l, -, hown, h⟩
  · exact hx ⟨_, h⟩
  · exact hx ⟨_, h⟩
  · refine hx ⟨w, ?_⟩
    rw [hown, List.mem_cons]
    exact h.imp id fun h => h.2.1

/-- The data sectors of a file are not structural. -/
theorem Arranged.not_structural (H : d.Arranged o) {i : Fin NumDirEntries} {s : ℕ} {l : List ℕ}
    (hown : o.own (.entry i) = s :: l) (hx : x ∈ l)
    (hdata : NumDirect < (d.header s).numSectors.toNat → ((d.header s).dataSectors 25).toInt ≠ x) :
    ¬ d.Structural x := by
  have hmem : x ∈ o.own (.entry i) := by
    rw [hown]
    exact List.mem_cons_of_mem _ hx
  have hnd := o.nodup (.entry i)
  rw [hown, List.nodup_cons] at hnd
  intro hs
  rcases hs.cases H with h | h | ⟨w, t, l', ht, hown', h⟩
  · cases o.unique hmem h
  · cases o.unique hmem h
  · have hmem' : x ∈ o.own w := by
      rw [hown', List.mem_cons]
      exact h.imp id fun h => h.2.1
    obtain rfl := o.unique hmem hmem'
    obtain rfl : t = s := (List.cons.inj (hown'.symm.trans hown)).1
    rcases h with rfl | ⟨hn, -, hindex⟩
    · exact hnd.1 hx
    · exact hdata hn hindex

theorem Opened.not_structural {i : Fin NumDirEntries} {s len : ℕ} {l : List ℕ}
    (A : d.Opened o i s l len f) (hx : x ∈ l)
    (hdata : NumDirect < sectorsFor len → ((d.header s).dataSectors 25).toInt ≠ x) :
    ¬ d.Structural x := by
  apply A.holds.not_structural A.own hx
  rw [A.laid.numSectors_toNat]
  exact hdata

/-- Disks of the same structure hold the same files. -/
theorem Arranged.sameStructure (H : d.Arranged o) (hS : d.SameStructure d₂) :
    d₂.Arranged o ∧ (∀ w, d₂.headerSector w = d.headerSector w) ∧
      (∀ w t, d.headerSector w = some t → d₂.header t = d.header t) ∧
      ∀ x < NumSectors, d₂.freeMap.bit x = d.freeMap.bit x := by
  obtain ⟨hmapHdr, hbits⟩ := H.bit_congr fun x hx => hS x (structural_of_mem H (Or.inl hx))
  obtain ⟨hdirHdr, htable⟩ := H.table_congr fun x hx => hS x (structural_of_mem H (Or.inr hx))
  have hsame : ∀ w, d₂.headerSector w = d.headerSector w := by
    intro w
    cases w with
    | freeMap => rfl
    | directory => rfl
    | entry j => rw [headerSector, headerSector, htable j j.isLt]
  have hkeep := fun w => sectorsOf_congr (hsame w)
    (fun t ht => by
      obtain ⟨t, l, rfl, -⟩ := H.own_eq ht
      exact hS t (Or.inr (Or.inr ⟨w, t, ht, Or.inl rfl⟩)))
    (fun t ht hn => by
      obtain ⟨t, l, rfl, -, -, hl⟩ := H.own_eq ht
      obtain ⟨y, -, heq⟩ := exists_index hn hl
      rw [heq, Int.toNat_natCast]
      exact hS y (Or.inr (Or.inr ⟨w, t, ht, Or.inr ⟨hn, heq.symm⟩⟩)))
  refine ⟨⟨fun w => (hkeep w).1.trans (H.sectors w), H.range, fun w t ht => ?_, ?_, ?_⟩,
    hsame, fun w => (hkeep w).2, hbits⟩
  · rw [hsame w] at ht
    rw [(hkeep w).2 t ht]
    exact H.wellFormed w t ht
  · rw [hmapHdr]
    exact H.mapSize
  · rw [hdirHdr]
    exact H.dirSize

/-! ### The cases that go wrong -/

/-- A sector of ones. -/
def ones : Sector := fun _ => 255

open Classical in
/-- The disk `d` with ones in every sector that holds no structure. -/
noncomputable def fillOnes (d : Disk) : Disk := fun x => if d.Structural x then d x else ones

theorem sameStructure_fillOnes (d : Disk) : d.SameStructure d.fillOnes := fun _ hs => if_pos hs

theorem fillOnes_of_not (h : ¬ d.Structural x) : d.fillOnes x = ones := if_neg h

namespace Opened

variable {i : Fin NumDirEntries} {s len pos n : ℕ} {l ml : List ℕ} {data : Buf}

theorem sameStructure (A : d.Opened o i s l len f) (hS : d.SameStructure d₂) :
    d₂.Opened o i s l len f ∧ d₂.header s = d.header s ∧
      d₂.freeMap.clears = d.freeMap.clears := by
  obtain ⟨H, hsame, hhead, hbits⟩ := A.holds.sameStructure hS
  have hheader := hhead _ _ A.entry
  have H' : d₂.Holds o := ⟨H, fun x hx => by rw [hbits x hx, A.holds.marked x hx]⟩
  refine ⟨⟨H', (hsame _).trans A.entry, A.own, by rw [hheader]; exact A.same, ?_⟩, hheader,
    BitMap.clears_congr rfl hbits⟩
  rw [hheader]
  refine A.laid.congr (.refl _) fun hn => hS _ (Or.inr (Or.inr ⟨_, _, A.entry, Or.inr ⟨?_, ?_⟩⟩))
  · rw [A.laid.numSectors_toNat]
    exact hn
  · exact (FileHeader.index_eq A.laid.numSectors_toNat A.laid.listed
      (lt_trans (by decide) hn)).symm

/-- A run of a write that does what it should. -/
theorem exists_run (A : d.Opened o i s l len f) (hml : o.own .freeMap = 0 :: ml) (hn : 0 < n)
    (hgrow : len < pos + n) (hcap : sectorsFor (pos + n) ≤ 57)
    (hroom : sectorsFor (pos + n) - sectorsFor len ≤ d.freeMap.clears.length)
    (hgrown : (f.writeAt data n pos).wp False (Grown d f s data n pos) d) :
    ∃ f₁ d₁ d', (NumDirect ≤ sectorsFor len → sectorsFor (pos + n) = sectorsFor len) ∧
      Extended f d s ml (pos + n) (newSectors d.freeMap len (pos + n)) f₁ d₁ ∧
      (d'.header s).SameFile f₁.hdr ∧ (∃ r, Grown d f s data n pos r d') ∧
      ∀ P, OpenFile.Avoids f₁.hdr d₁ pos n P → ∀ x, P x → d' x = d₁ x := by
  have hlt : pos + n < 2 ^ 30 := by
    simp only [sectorsFor, SectorSize] at hcap
    omega
  have hpart : (f.writeAt data n pos).wp True (fun r d' => ∃ f₁ d₁,
      (NumDirect ≤ sectorsFor len → sectorsFor (pos + n) = sectorsFor len) ∧
      Extended f d s ml (pos + n) (newSectors d.freeMap len (pos + n)) f₁ d₁ ∧
      r.2.hdr.SameFile f₁.hdr ∧
      ∀ P, OpenFile.Avoids f₁.hdr d₁ pos n P → ∀ x, P x → d' x = d₁ x) d := by
    apply A.wp_writeAt hml hn hgrow hcap hroom (fun _ _ => trivial)
    intro f₁ d₁ hfits E
    have hsame : (f₁.store data n pos).wp True (fun r _ => r.2.hdr.SameFile f₁.hdr) d₁ := by
      apply Prog.wp_mono (OpenFile.wp_store_frame (P := fun _ => False) hn hlt ?_)
      · exact fun r _ h => h.2
      · exact fun _ _ _ _ _ _ h => h.elim
    have hframe : (f₁.store data n pos).wp True (fun _ d' => ∀ P,
        OpenFile.Avoids f₁.hdr d₁ pos n P → ∀ x, P x → d' x = d₁ x) d₁ :=
      Prog.wp_forall fun P => Prog.wp_forall fun hP =>
        Prog.wp_mono (OpenFile.wp_store_frame hn hlt hP) fun _ _ h => h.1
    exact Prog.wp_mono (Prog.wp_and hsame hframe) fun r d' h => ⟨f₁, d₁, hfits, E, h.1, h.2⟩
  obtain ⟨r, d', hy, hg⟩ := Prog.exists_yields_of_wp hgrown
  obtain ⟨f₁, d₁, hfits, E, hsame, hframe⟩ := hy.of_wp hpart
  exact ⟨f₁, d₁, d', hfits, E, hg.stored.trans hsame, ⟨r, hg⟩, hframe⟩

/-- In a sector of ones `ByteToSector` finds the sector `-1`. -/
theorem lookup_ones {d' : Disk} {t j : ℕ} (hindex : (h.dataSectors 25).toInt = t) (ht : d' t = ones)
    (hj : 25 ≤ j) (x : ℕ) : h.lookup d' j ≠ x := by
  rw [FileHeader.lookup, if_neg (by simp only [NumDirect]; omega), hindex, Int.toNat_natCast, ht]
  have hneg : (Sector.bytes ones ((j - (NumDirect - 1)) * 4)).toInt = -1 := by
    show (255#8).toInt = -1
    decide
  rw [hneg]
  omega

/-- A sector of ones that is taken for the second-level table is not written. -/
theorem avoids_index {t : ℕ} (hindex : (h.dataSectors 25).toInt = t) (hones : d t = ones)
    (hdirect : ∀ j < 25, (h.dataSectors (Fin.ofNat NumDirect j)).toInt ≠ t) :
    OpenFile.Avoids h d pos n (· = t) := by
  rintro d' hd' j - - x rfl
  by_cases h25 : j < 25
  · rw [FileHeader.lookup, if_pos (by simp only [NumDirect]; omega)]
    exact hdirect j h25
  · exact lookup_ones hindex ((hd' _ rfl).trans hones) (by omega) _

/-- The last byte of a write past the end is in the last block. -/
theorem last_block (pos : ℕ) (hn : 0 < n) : pos ≤ pos + n - 1 ∧ pos + n - 1 < pos + n ∧
    (pos + n - 1) / SectorSize + 1 = sectorsFor (pos + n) := by
  simp only [sectorsFor, SectorSize]
  omega

/-- The data of block 25 have not got into the last sector of a file of 26. -/
theorem not_written_of_26 {d' : Disk} {r : ℤ × OpenFile} (hn : 0 < n)
    (hnew : sectorsFor (pos + n) = NumDirect) (hg : Grown d f s (fun _ => 0) n pos r d')
    (hns : (d'.header s).numSectors.toNat = NumDirect) {t : ℕ}
    (hindex : ((d'.header s).dataSectors 25).toInt = t) (hones : d' t = ones) : False := by
  obtain ⟨h1, h2, h3⟩ := last_block pos hn
  have hblock : (pos + n - 1) / SectorSize = 25 := by
    rw [hnew] at h3
    simp only [NumDirect] at h3
    omega
  have hw := hg.written _ h1 h2
  rw [FileHeader.content, hns, hblock, FileHeader.block, if_pos (Or.inl le_rfl),
    show Fin.ofNat NumDirect 25 = 25 from rfl, hindex, Int.toNat_natCast, hones] at hw
  exact absurd hw (show (255#8) ≠ 0 by decide)

/-- A file that keeps its 26 sectors. -/
theorem not_grown_of_26 (A : d.Opened o i s l len f) (hn : 0 < n) (hgrow : len < pos + n)
    (hroom : sectorsFor (pos + n) - sectorsFor len ≤ d.freeMap.clears.length)
    (hold : sectorsFor len = NumDirect) (hnew : sectorsFor (pos + n) = NumDirect) :
    ¬ (f.writeAt (fun _ => 0) n pos).wp False (Grown d.fillOnes f s (fun _ => 0) n pos)
      d.fillOnes := by
  intro hgrown
  obtain ⟨ml, hml, -⟩ := A.holds.mapFile
  obtain ⟨A₂, hheader, hclears⟩ := A.sameStructure (sameStructure_fillOnes d)
  rw [← hclears] at hroom
  obtain ⟨f₁, d₁, d', -, E, hsame, ⟨r, hg⟩, hframe⟩ :=
    A₂.exists_run hml hn hgrow (hnew.le.trans (by decide)) hroom hgrown
  rw [newSectors, if_pos (by omega)] at E
  have hL := A₂.extended_same hml E (by omega)
  have hlen : l.length = 26 := by
    rw [hL.length_direct hnew.le, hnew]
  -- block 25, which is looked up as a second-level table
  have hindex : (f₁.hdr.dataSectors 25).toInt = (l.getD 25 0 : ℕ) :=
    FileHeader.index_eq hL.numSectors_toNat hL.listed (by rw [hnew]; decide)
  have hmem : l.getD 25 0 ∈ l := List.getD_mem_of_lt (by omega)
  have hones : d₁ (l.getD 25 0) = ones := by
    rw [A₂.extended_index hml E hmem]
    exact fillOnes_of_not (A.not_structural hmem fun h => absurd h (by omega))
  have hdirect : ∀ j < 25, (f₁.hdr.dataSectors (Fin.ofNat NumDirect j)).toInt ≠ (l.getD 25 0 : ℕ) := by
    intro j hj heq
    have hj' : j < sectorsFor (pos + n) := by rw [hnew]; exact hj.trans (by decide)
    have hblock := hL.block_eq hj'
    rw [FileHeader.block, if_pos (Or.inl hnew.le), heq, slot, if_pos (Or.inl hnew.le)] at hblock
    have := List.getD_inj_of_nodup hL.nodup (by omega) (by omega) (Int.ofNat.inj hblock)
    omega
  refine not_written_of_26 hn hnew hg ?_ (t := l.getD 25 0) ?_ ?_
  · rw [hsame.numSectors, hL.numSectors_toNat, hnew]
  · rw [hsame.dataSectors, hindex]
  · rw [hframe _ (avoids_index hindex hones hdirect) _ rfl, hones]

/-- The header of a file extended by the sector `x`. -/
theorem extended_entry (A : d.Opened o i s l len f) {x len' : ℕ} {f₁ : OpenFile} {d₁ : Disk}
    (E : Extended f d s ml len' [x] f₁ d₁) (hold : sectorsFor len < NumDirect)
    (hx : x < NumSectors) {j : ℕ} (hj : j < NumDirect) :
    (f₁.hdr.dataSectors (Fin.ofNat NumDirect j)).toInt
      = if j = sectorsFor len then (x : ℤ) else (f.hdr.dataSectors (Fin.ofNat NumDirect j)).toInt := by
  have hnat : f.hdr.numSectors.toNat = sectorsFor len := by
    rw [A.same.numSectors, A.laid.numSectors_toNat]
  rw [E.hdr.dataSectors, FileHeader.dataSectors_grown_cons, hnat]
  split_ifs with h
  · rw [h, Function.update_self, toInt_int_natCast (hx.trans (by decide))]
  · rw [Function.update_of_ne]
    intro heq
    have := congrArg Fin.val heq
    simp only [Fin.val_ofNat, NumDirect] at *
    omega

theorem entry_eq (A : d.Opened o i s l len f) {j : ℕ} (hj : j < sectorsFor len)
    (h26 : j < NumDirect) :
    j < l.length ∧ (f.hdr.dataSectors (Fin.ofNat NumDirect j)).toInt = (l.getD j 0 : ℕ) := by
  rw [A.same.dataSectors]
  exact FileHeader.entry_eq A.laid.numSectors_toNat A.laid.listed hj h26

/-- The first clear sector belongs to nobody. -/
theorem free_of_clears (A : d.Opened o i s l len f) {rest : List ℕ}
    (hclears : d.freeMap.clears = x :: rest) :
    x < NumSectors ∧ d.freeMap.bit x = false ∧ ¬ o.Held x := by
  obtain ⟨hlt, hbit⟩ := BitMap.mem_clears.mp (hclears ▸ List.mem_cons_self (a := x))
  refine ⟨hlt, hbit, fun hheld => ?_⟩
  rw [← A.holds.marked x hlt, hbit] at hheld
  cases hheld

/-- A run of a write for which the file needs new sectors: its header gets the first clear one, and
only that. -/
theorem exists_run_new (A : d.Opened o i s l len f) (hml : o.own .freeMap = 0 :: ml) (hn : 0 < n)
    (hgrow : len < pos + n) (hcap : sectorsFor (pos + n) ≤ 57)
    (hroom : sectorsFor (pos + n) - sectorsFor len ≤ d.freeMap.clears.length)
    (hmore : sectorsFor len < sectorsFor (pos + n))
    (hgrown : (f.writeAt data n pos).wp False (Grown d f s data n pos) d) :
    ∃ x f₁ d₁ d', (x < NumSectors ∧ d.freeMap.bit x = false ∧ ¬ o.Held x) ∧
      Extended f d s ml (pos + n) [x] f₁ d₁ ∧ (d'.header s).SameFile f₁.hdr ∧
      (d'.header s).numSectors.toNat = sectorsFor (pos + n) ∧
      (∃ r, Grown d f s data n pos r d') ∧
      ∀ P, OpenFile.Avoids f₁.hdr d₁ pos n P → ∀ x, P x → d' x = d₁ x := by
  obtain ⟨f₁, d₁, d', -, E, hsame, hg, hframe⟩ := A.exists_run hml hn hgrow hcap hroom hgrown
  cases hcl : d.freeMap.clears with
  | nil =>
    rw [hcl, List.length_nil] at hroom
    omega
  | cons x rest =>
    rw [newSectors, if_neg (by omega), hcl, List.take_succ_cons, List.take_zero] at E
    refine ⟨x, f₁, d₁, d', A.free_of_clears hcl, E, hsame, ?_, hg, hframe⟩
    rw [hsame.numSectors, E.hdr.numSectors]
    exact toNat_int_natCast (by omega)

/-- A file of 25 sectors that gets a new one, which is then taken for a second-level table. -/
theorem not_grown_of_25 (A : d.Opened o i s l len f) (hn : 0 < n) (hgrow : len < pos + n)
    (hcap : sectorsFor (pos + n) ≤ 57)
    (hroom : sectorsFor (pos + n) - sectorsFor len ≤ d.freeMap.clears.length)
    (hold : sectorsFor len = 25) (hnew : NumDirect ≤ sectorsFor (pos + n)) :
    ¬ (f.writeAt (fun _ => 0) n pos).wp False (Grown d.fillOnes f s (fun _ => 0) n pos)
      d.fillOnes := by
  intro hgrown
  have hnew' : 26 ≤ sectorsFor (pos + n) := hnew
  obtain ⟨ml, hml, -⟩ := A.holds.mapFile
  obtain ⟨A₂, hheader, hclears⟩ := A.sameStructure (sameStructure_fillOnes d)
  rw [← hclears] at hroom
  obtain ⟨x, f₁, d₁, d', ⟨hx, hbit, hfree⟩, E, hsame, hns, ⟨r, hg⟩, hframe⟩ :=
    A₂.exists_run_new hml hn hgrow hcap hroom (by omega) hgrown
  have hlt : sectorsFor len < NumDirect := by rw [hold]; decide
  have hindex : (f₁.hdr.dataSectors 25).toInt = x := by
    have h := A₂.extended_entry E hlt hx (j := 25) (by decide)
    rwa [if_pos hold.symm] at h
  have hadd : ∀ y ∈ [x], y < NumSectors ∧ d.fillOnes.freeMap.bit y = false := by
    intro y hy
    rw [List.mem_singleton.mp hy]
    exact ⟨hx, hbit⟩
  obtain ⟨hxs, hxm⟩ := A₂.notMem_extended hml hadd
    (List.mem_append_right l (List.mem_singleton_self x))
  have hones : d₁ x = ones := by
    rw [E.frame x hxs (List.not_mem_of_not_mem_cons hxm)]
    exact fillOnes_of_not (not_structural_of_free A.holds.toArranged hfree)
  have hdirect : ∀ j < 25, (f₁.hdr.dataSectors (Fin.ofNat NumDirect j)).toInt ≠ x := by
    intro j hj heq
    have h26 : j < NumDirect := hj.trans (by decide)
    obtain ⟨hjl, hjeq⟩ := A₂.entry_eq (j := j) (by omega) h26
    rw [A₂.extended_entry E hlt hx h26, if_neg (by omega), hjeq] at heq
    refine hfree ⟨_, A₂.held (List.mem_cons_of_mem _ ?_)⟩
    rw [← Int.ofNat.inj heq]
    exact List.getD_mem_of_lt hjl
  have hones' : d' x = ones := by
    rw [hframe _ (avoids_index hindex hones hdirect) _ rfl, hones]
  have hindex' : ((d'.header s).dataSectors 25).toInt = x := by rw [hsame.dataSectors, hindex]
  by_cases h26 : sectorsFor (pos + n) = NumDirect
  · exact not_written_of_26 hn h26 hg (hns.trans h26) hindex' hones'
  · -- the table is said to hold the sector `-1`
    obtain ⟨added, hlisted, -⟩ := hg.gained
    have hneg : (-1 : ℤ) ∈ (d'.header s).listed d' := by
      rw [FileHeader.listed, hns, if_neg (by omega), hindex', Int.toNat_natCast, hones']
      refine List.mem_append_right _ (List.mem_map.mpr ⟨0, ?_, ?_⟩)
      · rw [List.mem_range]
        simp only [NumDirect]
        omega
      · show (Layout.decodeArray (Sector.bytes ones) 0 : CInt).toInt = -1
        decide
    rw [hlisted, A₂.laid.listed, ← List.map_append] at hneg
    obtain ⟨y, -, hy⟩ := List.mem_map.mp hneg
    cases hy

/-- Neither the free map nor the sector of ones that is taken for a second-level table is written by a
file that lists the sectors `L`. -/
theorem avoids_freeMap {L : List ℕ} (hnd : L.Nodup)
    (hentry : ∀ j < sectorsFor (pos + n), j < NumDirect → j < L.length ∧
      (h.dataSectors (Fin.ofNat NumDirect j)).toInt = (L.getD j 0 : ℕ)) (hout : ∀ x ∈ L, x ∉ 0 :: ml)
    (hones : 26 ≤ sectorsFor (pos + n) → d (L.getD 25 0) = ones) :
    OpenFile.Avoids h d pos n fun x =>
      x ∈ 0 :: ml ∨ 26 ≤ sectorsFor (pos + n) ∧ x = L.getD 25 0 := by
  intro d' hd' j _ hj x hx
  have hjn : j < sectorsFor (pos + n) := by
    simp only [sectorsFor, SectorSize] at *
    omega
  by_cases h25 : j < 25
  · obtain ⟨hjl, hjeq⟩ := hentry j hjn (h25.trans (by decide))
    rw [FileHeader.lookup, if_pos (by simp only [NumDirect]; omega), hjeq]
    intro heq
    rcases hx with hx | ⟨h26, rfl⟩
    · refine hout (L.getD j 0) (List.getD_mem_of_lt hjl) ?_
      rw [Int.ofNat.inj heq]
      exact hx
    · have hl25 := (hentry 25 h26 (by decide)).1
      have := List.getD_inj_of_nodup hnd hjl hl25 (Int.ofNat.inj heq)
      omega
  · -- the blocks behind are looked up in the sector of ones
    have h26 : 26 ≤ sectorsFor (pos + n) := by omega
    refine lookup_ones (hentry 25 h26 (by decide)).2 ?_ (by omega) x
    rw [hd' _ (Or.inr ⟨h26, rfl⟩), hones h26]

/-- A file that would need two more sectors: the table then lists a sector that is not marked. -/
theorem not_grown_of_two (A : d.Opened o i s l len f) (hn : 0 < n) (hgrow : len < pos + n)
    (hcap : sectorsFor (pos + n) ≤ 57)
    (hroom : sectorsFor (pos + n) - sectorsFor len ≤ d.freeMap.clears.length)
    (hold : sectorsFor len ≤ 24) (hnew : sectorsFor len + 2 ≤ sectorsFor (pos + n)) :
    ¬ (f.writeAt (fun _ => 0) n pos).wp False (Grown d.fillOnes f s (fun _ => 0) n pos)
      d.fillOnes := by
  intro hgrown
  obtain ⟨A₂, hheader, hclears⟩ := A.sameStructure (sameStructure_fillOnes d)
  obtain ⟨ml, hml, -⟩ := A₂.holds.mapFile
  rw [← hclears] at hroom
  obtain ⟨x, f₁, d₁, d', ⟨hx, -, -⟩, E, hsame, hns, ⟨r, hg⟩, hframe⟩ :=
    A₂.exists_run_new hml hn hgrow hcap hroom (by omega) hgrown
  have hlt : sectorsFor len < NumDirect := lt_of_le_of_lt hold (by decide)
  have hlen : l.length = sectorsFor len := A₂.laid.length_direct hlt.le
  -- the sectors the new header lists are those of the file and free ones
  obtain ⟨added, hlisted, hnd, hadd, hmarked⟩ := hg.gained
  rw [A₂.laid.listed, ← List.map_append] at hlisted
  have hndL := A₂.nodup_extended hnd hadd
  have hentry : ∀ j < sectorsFor (pos + n), j < NumDirect → j < (l ++ added).length ∧
      (f₁.hdr.dataSectors (Fin.ofNat NumDirect j)).toInt = ((l ++ added).getD j 0 : ℕ) := by
    intro j hj h26
    have h := FileHeader.entry_eq hns hlisted hj h26
    rwa [hsame.dataSectors] at h
  have hmem : ∀ j, sectorsFor len ≤ j → j < (l ++ added).length →
      (l ++ added).getD j 0 ∈ added := by
    intro j h1 h2
    rw [List.length_append] at h2
    rw [List.getD_append_right _ _ _ _ (by omega)]
    exact List.getD_mem_of_lt (by omega)
  -- the second new entry is one of the free ones, but not the one that has been marked
  obtain ⟨h1, hfst⟩ := hentry (sectorsFor len) (by omega) hlt
  obtain ⟨h2, -⟩ := hentry (sectorsFor len + 1) (by omega) (by simp only [NumDirect]; omega)
  rw [A₂.extended_entry E hlt hx hlt, if_pos rfl] at hfst
  have hy := hmem _ (by omega) h2
  obtain ⟨hylt, hybit⟩ := hadd _ hy
  have hyx : (l ++ added).getD (sectorsFor len + 1) 0 ≠ x := by
    intro heq
    have := List.getD_inj_of_nodup hndL h2 h1 (heq.trans (Int.ofNat.inj hfst))
    omega
  have hP : OpenFile.Avoids f₁.hdr d₁ pos n fun y =>
      y ∈ 0 :: ml ∨ 26 ≤ sectorsFor (pos + n) ∧ y = (l ++ added).getD 25 0 := by
    apply avoids_freeMap hndL hentry
    · intro y hy
      exact (A₂.notMem_extended hml hadd hy).2
    · intro h26
      have ht := hmem 25 (by omega) (hentry 25 h26 (by decide)).1
      obtain ⟨hts, htm⟩ := A₂.notMem_extended hml hadd (List.mem_append_right l ht)
      obtain ⟨htlt, htbit⟩ := hadd _ ht
      rw [E.frame _ hts (List.not_mem_of_not_mem_cons htm)]
      refine fillOnes_of_not (not_structural_of_free A.holds.toArranged fun hheld => ?_)
      rw [← A₂.holds.marked _ htlt, htbit] at hheld
      cases hheld
  have hmarks := (hmarked _ hylt).mpr (Or.inr hy)
  rw [A₂.extended_bits hml E (fun z hz => hframe _ hP z (Or.inl hz)) hylt, hybit,
    Bool.or_false, decide_eq_true_eq, List.mem_singleton] at hmarks
  exact hyx hmarks

/-- A block whose sector does not fit in a signed byte is not written. -/
theorem not_grown_of_128 (A : d.Opened o i s l len f) (hn : 0 < n) (hgrow : len < pos + n)
    (hcap : sectorsFor (pos + n) ≤ 57)
    (hroom : sectorsFor (pos + n) - sectorsFor len ≤ d.freeMap.clears.length)
    (hold : NumDirect < sectorsFor len) (hsame : sectorsFor (pos + n) = sectorsFor len) {j : ℕ}
    (h25 : 25 ≤ j) (h1 : pos / SectorSize ≤ j) (h2 : j * SectorSize < pos + n)
    (h128 : 128 ≤ (d.header s).block d (sectorsFor len) j) :
    ∃ data, ¬ (f.writeAt data n pos).wp False (Grown d f s data n pos) d := by
  obtain ⟨ml, hml, -⟩ := A.holds.mapFile
  have hj : j < sectorsFor (pos + n) := by
    simp only [sectorsFor, SectorSize] at *
    omega
  -- a byte of the write that is in block `j`, and data that differ from it
  obtain ⟨p, hp1, hp2, hpj⟩ : ∃ p, pos ≤ p ∧ p < pos + n ∧ p / SectorSize = j := by
    refine ⟨max pos (j * SectorSize), by omega, by omega, ?_⟩
    simp only [SectorSize] at *
    omega
  have hblock := A.laid.block_eq (i := j) (by omega)
  rw [hblock] at h128
  refine ⟨fun _ => (d (l.getD (slot (sectorsFor len) j) 0)).bytes (p % SectorSize) + 1, ?_⟩
  intro hgrown
  obtain ⟨f₁, d₁, d', -, E, hstored, ⟨r, hg⟩, hframe⟩ :=
    A.exists_run hml hn hgrow hcap hroom hgrown
  rw [newSectors, if_pos hsame] at E
  have hL := A.extended_same hml E hsame
  rw [← hsame] at h128 hg
  have hP : OpenFile.Avoids f₁.hdr d₁ pos n (· = l.getD (slot (sectorsFor (pos + n)) j) 0) := by
    rintro d₃ - k - hk x rfl
    have hk' : k < sectorsFor (pos + n) := by
      simp only [sectorsFor, SectorSize] at *
      omega
    by_cases hk25 : k < 25
    · have hblockk := hL.block_eq hk'
      rw [FileHeader.block, if_pos (Or.inr (by simp only [NumDirect]; omega))] at hblockk
      rw [FileHeader.lookup, if_pos (by simp only [NumDirect]; omega), hblockk]
      intro heq
      have := hL.getD_inj hk' hj (Int.ofNat.inj heq)
      omega
    · rw [FileHeader.lookup, if_neg (by simp only [NumDirect]; omega)]
      have hbyte := BitVec.toInt_lt (x := (d₃ (f₁.hdr.dataSectors 25).toInt.toNat).bytes
        ((k - (NumDirect - 1)) * 4))
      omega
  have hkeep : d' (l.getD (slot (sectorsFor (pos + n)) j) 0)
      = d (l.getD (slot (sectorsFor (pos + n)) j) 0) := by
    rw [hframe _ hP _ rfl]
    exact A.extended_index hml E (hL.getD_mem hj)
  have hns : (d'.header s).numSectors.toNat = sectorsFor (pos + n) := by
    rw [hstored.numSectors, hL.numSectors_toNat]
  -- no sector has been gained, so the block is where it was
  obtain ⟨added, hlisted, -⟩ := hg.gained
  rw [A.laid.listed, ← List.map_append] at hlisted
  have hlen := FileHeader.length_of_listed hns hlisted
  have hlen' := FileHeader.length_of_listed hL.numSectors_toNat hL.listed
  obtain rfl : added = [] := by
    rw [List.length_append] at hlen
    exact List.length_eq_zero_iff.mp (by omega)
  rw [List.append_nil] at hlisted
  have hw := hg.written p hp1 hp2
  rw [FileHeader.content, hns, hpj, FileHeader.block_eq hns hlisted hj, Int.toNat_natCast,
    hkeep] at hw
  simp at hw

end Opened

end Disk

namespace OpenFile

open FileHeader (sectorsFor sectorsNeeded)

variable {o : Ownership Disk.Owner ℕ} {i : Fin NumDirEntries} {s len pos n : ℕ}

/-- **On every disk of the same structure, and for all data, a `WriteAt` past the end of a file of a
consistent disk does what it should exactly if it grows the file well.** -/
theorem writeAt_grown_iff (H : d.Holds o) (hs : d.headerSector (.entry i) = some (s : ℤ))
    (hf : f.hdr.SameFile (d.header s)) (hlen : f.length = len) (hn : 0 < n)
    (hgrow : len < pos + n) (hcap : sectorsFor (pos + n) ≤ 57)
    (hroom : sectorsNeeded (pos + n) - sectorsNeeded len ≤ d.freeMap.numClear) :
    (∀ d₂, d.SameStructure d₂ → ∀ data,
        (f.writeAt data n pos).wp False (Grown d₂ f s data n pos) d₂)
      ↔ GrowsWell d (d.header s) len pos n := by
  obtain ⟨l, A⟩ := H.opened hs hf hlen
  have hle : sectorsFor len ≤ sectorsFor (pos + n) := Nat.div_le_div_right (by omega)
  have hroom' : sectorsFor (pos + n) - sectorsFor len ≤ d.freeMap.clears.length := by
    rw [BitMap.numClear_eq, sectorsNeeded, sectorsNeeded] at hroom
    split_ifs at hroom <;> omega
  constructor
  · intro hall
    have hself := fun data => hall d (fun _ _ => rfl) data
    have hones := hall _ (Disk.sameStructure_fillOnes d) (fun _ => 0)
    by_contra hnot
    rcases hle.eq_or_lt with hsame | hmore
    · rcases lt_trichotomy (sectorsFor len) NumDirect with hlt | heq | hgt
      · exact hnot (Or.inl ⟨hsame.symm, Or.inl hlt⟩)
      · exact A.not_grown_of_26 hn hgrow hroom' heq (hsame.symm.trans heq) hones
      · -- some block of the write is in a high sector
        obtain ⟨j, h25, h1, h2, h128⟩ : ∃ j, 25 ≤ j ∧ pos / SectorSize ≤ j ∧
            j * SectorSize < pos + n ∧ 128 ≤ (d.header s).block d (sectorsFor len) j := by
          by_contra hall128
          apply hnot
          refine Or.inl ⟨hsame.symm, Or.inr ⟨hgt, fun j h25 h1 h2 => ?_⟩⟩
          by_contra hge
          exact hall128 ⟨j, h25, h1, h2, not_lt.mp hge⟩
        obtain ⟨data, hbad⟩ := A.not_grown_of_128 hn hgrow hcap hroom' hgt hsame.symm h25 h1 h2 h128
        exact hbad (hself data)
    · rcases (show 26 ≤ sectorsFor len ∨ sectorsFor len = 25 ∨ sectorsFor len ≤ 24 by omega)
        with hfull | h25 | h24
      · -- the table is full, and `ExtendFile` fails
        obtain ⟨ml, hml, -⟩ := H.mapFile
        obtain ⟨-, -, -, hguard, -⟩ :=
          A.exists_run hml hn hgrow hcap hroom' (hself fun _ => 0)
        exact hmore.ne' (hguard hfull)
      · exact A.not_grown_of_25 hn hgrow hcap hroom' h25 (by simp only [NumDirect]; omega) hones
      · by_cases hone : sectorsFor (pos + n) = sectorsFor len + 1
        · exact hnot (Or.inr ⟨hone, by simp only [NumDirect]; omega⟩)
        · exact A.not_grown_of_two hn hgrow hcap hroom' h24 (by omega) hones
  · intro hwell d₂ hS data
    obtain ⟨A₂, hheader, hclears⟩ := A.sameStructure hS
    rw [← hclears] at hroom'
    apply A₂.wp_writeAt_grown hn hgrow hcap hroom'
    rcases hwell with ⟨hsame, hcase⟩ | hone
    · refine Or.inl ⟨hsame, hcase.imp_right fun hfar => ⟨hfar.1, fun j h25 h1 h2 => ?_⟩⟩
      have hj : j < sectorsFor len := by
        rw [← hsame]
        simp only [sectorsFor, SectorSize] at *
        omega
      rw [A₂.laid.block_eq hj, ← A.laid.block_eq hj]
      exact hfar.2 j h25 h1 h2
    · exact Or.inr hone

/-- The first block of an empty file. -/
theorem writeAt_grown_iff_first_block : ∃ (d : Disk) (o : Ownership Disk.Owner ℕ) (s : ℕ)
    (f : OpenFile), d.Holds o ∧ d.headerSector (.entry 0) = some (s : ℤ) ∧
      f.hdr.SameFile (d.header s) ∧ f.length = 0 ∧
      sectorsNeeded (0 + 100) - sectorsNeeded 0 ≤ d.freeMap.numClear ∧
      ∀ d₂, d.SameStructure d₂ → ∀ data,
        (f.writeAt data (100 : ℕ) (0 : ℕ)).wp False (Grown d₂ f s data 100 0) d₂ := by
  obtain ⟨d, o, s, -, H, hs, -, hclears⟩ := FileSystem.exists_files
  have A := H.opened_empty hs
  have hlen : (⟨s, d.header s, 0⟩ : OpenFile).length = ((0 : ℕ) : ℤ) := A.laid.numBytes_toInt
  have hroom : sectorsNeeded (0 + 100) - sectorsNeeded 0 ≤ d.freeMap.numClear := by
    rw [BitMap.numClear_eq]
    exact le_trans (by decide) hclears
  refine ⟨d, o, s, ⟨s, d.header s, 0⟩, H, A.entry, .refl _, hlen, hroom, ?_⟩
  exact (writeAt_grown_iff H A.entry (.refl _) hlen (by decide) (by decide) (by decide) hroom).mpr
    (Or.inr (by decide))

/-- Two blocks at once: the second entry of the table is whatever was in it, so a write of 256 zeros
to an empty file does not grow it as it should. -/
theorem two_blocks_not_grown : ∃ (d : Disk) (o : Ownership Disk.Owner ℕ) (s : ℕ) (f : OpenFile),
    d.Holds o ∧ d.headerSector (.entry 0) = some (s : ℤ) ∧ f.hdr.SameFile (d.header s) ∧
      f.length = 0 ∧ sectorsNeeded (0 + 256) - sectorsNeeded 0 ≤ d.freeMap.numClear ∧
      ¬ (f.writeAt (fun _ => 0) (256 : ℕ) (0 : ℕ)).wp False (Grown d f s (fun _ => 0) 256 0) d := by
  obtain ⟨d, o, s, -, H, hs, -, hclears⟩ := FileSystem.exists_files
  have A := H.opened_empty hs
  have hroom : sectorsFor (0 + 256) - sectorsFor 0 ≤ d.freeMap.clears.length :=
    le_trans (by decide) hclears
  obtain ⟨A₂, hheader, hclears₂⟩ := A.sameStructure (Disk.sameStructure_fillOnes d)
  refine ⟨d.fillOnes, o, s, ⟨s, d.header s, 0⟩, A₂.holds, A₂.entry, A₂.same,
    A.laid.numBytes_toInt, ?_, ?_⟩
  · rw [BitMap.numClear_eq, hclears₂]
    exact le_trans (by decide) hclears
  · exact A.not_grown_of_two (by decide) (by decide) (by decide) hroom (by decide) (by decide)

end OpenFile

end Nachos
