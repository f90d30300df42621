import Nachos.Filesys.Equiv.OpenFile
import Nachos.Filesys.Volume

/-!
## The free map and the directory as files

Both are read and written as a whole, through a handle whose header lists the sectors `l` of a short
file.  The specifications of `FetchFrom` and `WriteBack` of the bitmap and of the directory are
instances of `wp_readWhole` and `wp_writeWhole`.
-/

namespace Nachos

open Storage Memory

variable {ab : Prop} {d : Disk}

namespace FileHeader

/-- The two headers differ in their times only. -/
structure SameFile (h h' : FileHeader) : Prop where
  hdrSector : h.hdrSector = h'.hdrSector
  numBytes : h.numBytes = h'.numBytes
  numSectors : h.numSectors = h'.numSectors
  dataSectors : h.dataSectors = h'.dataSectors

theorem SameFile.refl (h : FileHeader) : h.SameFile h := ⟨rfl, rfl, rfl, rfl⟩

theorem SameFile.trans {h h' h'' : FileHeader} (h1 : h.SameFile h') (h2 : h'.SameFile h'') :
    h.SameFile h'' :=
  ⟨h1.1.trans h2.1, h1.2.trans h2.2, h1.3.trans h2.3, h1.4.trans h2.4⟩

theorem SameFile.symm {h h' : FileHeader} (h1 : h.SameFile h') : h'.SameFile h :=
  ⟨h1.1.symm, h1.2.symm, h1.3.symm, h1.4.symm⟩

theorem Lists.congr {h h' : FileHeader} {size : ℕ} {l : List ℕ} (hl : h.Lists size l)
    (hs : h.SameFile h') : h'.Lists size l :=
  ⟨hs.numBytes ▸ hl.numBytes, hs.numSectors ▸ hl.numSectors, hs.dataSectors ▸ hl.sectors⟩

/-- A short file: its blocks are in the sectors `l`, in this order. -/
structure Short (h : FileHeader) (size : ℕ) (l : List ℕ) : Prop extends Lists h size l where
  length : l.length = sectorsFor size
  short : l.length ≤ 25
  inRange : ∀ s ∈ l, s < NumSectors
  nodup : l.Nodup

variable {h h' : FileHeader} {size i : ℕ} {l : List ℕ}

theorem Short.congr (hl : h.Short size l) (hs : h.SameFile h') : h'.Short size l :=
  { hl with toLists := hl.toLists.congr hs }

/-- A file of at most 25 sectors that has just been allocated. -/
theorem Lists.short_of_takes {m m' : BitMap} (hl : h.Lists size l) (ht : Takes m l m')
    (hbits : m.numBits = NumSectors) (hlen : l.length = sectorsFor size)
    (hsize : sectorsFor size ≤ 25) : h.Short size l :=
  ⟨hl, hlen, by omega, fun s hs => hbits ▸ (ht.free s hs).1, ht.nodup⟩

theorem Short.numBytes_toInt (hl : h.Short size l) : h.numBytes.toInt = size := by
  have h1 := hl.length
  have h2 := hl.short
  rw [hl.numBytes, toInt_int_natCast]
  simp only [sectorsFor, SectorSize] at h1
  omega

theorem Short.numSectors_toNat (hl : h.Short size l) : h.numSectors.toNat = l.length := by
  rw [hl.numSectors, toNat_int_natCast (by have := hl.short; omega)]

theorem Short.numSectors_le (hl : h.Short size l) : h.numSectors.toNat ≤ NumDirect := by
  rw [hl.numSectors_toNat]
  exact hl.short.trans (by decide)

theorem Short.maps (hl : h.Short size l) (hi : i < l.length) : h.Maps d i (l.getD i 0) := by
  have hmem : l[i] ∈ l := l.getElem_mem hi
  have hlt := hl.inRange _ hmem
  rw [List.getD_eq_getElem _ _ hi]
  refine ⟨hlt, Or.inl ⟨by have := hl.short; omega, ?_⟩⟩
  rw [hl.sectors i hi]
  exact toInt_int_natCast (hlt.trans (by decide))

theorem Short.lt_length (hl : h.Short size l) (hi : i * SectorSize < size) : i < l.length := by
  rw [hl.length]
  simp only [sectorsFor, SectorSize] at hi ⊢
  omega

theorem Short.getD_inj (hl : h.Short size l) {j : ℕ} (hi : i < l.length) (hj : j < l.length)
    (heq : l.getD i 0 = l.getD j 0) : i = j := by
  rw [List.getD_eq_getElem _ _ hi, List.getD_eq_getElem _ _ hj] at heq
  exact (hl.nodup.getElem_inj_iff).mp heq

theorem Short.content_eq (hl : h.Short size l) {p : ℕ} (hp : p < size) :
    h.content d p = flat d (l.getD · 0) p := by
  have hi : p / SectorSize < l.length :=
    hl.lt_length (lt_of_le_of_lt (Nat.div_mul_le_self p SectorSize) hp)
  have hs := (hl.maps (d := d) hi).2
  rw [content, flat, block, if_pos (Or.inl hl.numSectors_le)]
  rcases hs with ⟨-, hs⟩ | ⟨h25, -⟩
  · rw [hs, Int.toNat_natCast]
  · have := hl.short
    omega

end FileHeader

namespace OpenFile

variable {f : OpenFile} {size : ℕ} {l : List ℕ}

theorem sameFile_touch (f : OpenFile) (visit modify : CInt) :
    (f.touch visit modify).hdr.SameFile f.hdr :=
  ⟨rfl, rfl, rfl, rfl⟩

/-- A read of the whole file. -/
theorem wp_readWhole (hl : f.hdr.Short size l) {into : Buf} {Q : ℤ × Buf × OpenFile → Disk → Prop}
    (hQ : ∀ visit into', (∀ k < size, into' k = flat d (l.getD · 0) k) →
      Q (size, into', f.touch visit f.hdr.lastModifyTime) d) :
    (f.readAt into size (0 : ℕ)).wp ab Q d := by
  have hsize : size < 2 ^ 31 := by
    have h1 := hl.length
    have h2 := hl.short
    simp only [FileHeader.sectorsFor, SectorSize] at h1
    omega
  refine wp_readAt (fun i => l.getD i 0) hl.numBytes_toInt (by omega) ?_ fun visit => ?_
  · intro _ i _ hi
    exact hl.maps (hl.lt_length (by omega))
  · have hmin : min (size : ℤ).toNat (size - 0) = size := by omega
    simp only [hmin]
    refine hQ visit _ fun k hk => ?_
    rw [if_pos hk, Nat.zero_add]

/-- A write of the whole file. -/
theorem wp_writeWhole (hl : f.hdr.Short size l) (hpos : 0 < size) {depth : ℕ} {data : Buf}
    {Q : ℤ × OpenFile → Disk → Prop}
    (hQ : ∀ visit modify d', (∀ s, s ∉ l → d' s = d s) →
      (∀ k < size, flat d' (l.getD · 0) k = data k) → Q (size, f.touch visit modify) d') :
    (writeAtDepth (depth + 1) f data size (0 : ℕ)).wp ab Q d := by
  rw [writeAtDepth_eq_store hpos hl.numBytes_toInt (by omega)]
  refine wp_store (fun i => l.getD i 0) hpos hl.numBytes_toInt ?_ ?_ ?_
  · intro i _ hi
    exact hl.maps (hl.lt_length (by omega))
  · intro i i' _ _ h25 hi
    have := hl.lt_length (i := i') (by omega)
    have := hl.short
    omega
  · intro visit modify blk hst
    have hlast : (0 + size - 1) / SectorSize < l.length :=
      hl.lt_length (by simp only [SectorSize]; omega)
    refine hQ visit modify _ ?_ ?_
    · intro s hs
      refine writeBlocks_of_notMem fun i _ hi heq => hs ?_
      have hi' : i < l.length := by
        simp only [blockCount, SectorSize] at hi hlast
        omega
      rw [← heq, List.getD_eq_getElem _ _ hi']
      exact l.getElem_mem hi'
    · intro k hk
      have hk' : k / SectorSize < l.length :=
        hl.lt_length (lt_of_le_of_lt (Nat.div_mul_le_self k SectorSize) hk)
      rw [hst.flat_eq hpos (fun _ _ => hl.getD_inj) hlast hk' (fun _ _ => Or.inl hk), if_pos (by omega),
        Nat.sub_zero]

end OpenFile

/-! ### The bitmap -/

namespace BitMap

theorem bit_decodeArray (n : ℕ) (b : Buf) (s : ℕ) :
    (⟨n, Layout.decodeArray b⟩ : BitMap).bit s = (b (s / 8)).getLsbD (s % 8) := by
  rw [bit_eq]
  exact getLsbD_decodeArray b s

theorem bit_bytes (m : BitMap) (s : ℕ) : m.bit s = (m.bytes (s / 8)).getLsbD (s % 8) := by
  rw [← bit_decodeArray m.numBits, bytes, funext (Layout.decodeArray_encodeArray m.map)]

variable {m : BitMap} {f : OpenFile} {l : List ℕ}

theorem numWords_mul (hm : m.numBits = NumSectors) : m.numWords * 4 = (FreeMapFileSize : ℕ) := by
  rw [numWords, hm]
  rfl

theorem wp_newMap {Q : BitMap → Disk → Prop} {n : ℕ}
    (hQ : ∀ m : BitMap, m.numBits = n → (∀ s < n, m.bit s = false) → Q m d) :
    (newMap n).wp ab Q d := by
  rw [newMap, Prog.wp_do, wp_newBytes]
  intro garbage
  rw [Prog.wp_pure]
  exact hQ _ (numBits_new _ _) fun s hs => bit_new _ hs

/-- Fetch the bits that the sectors `l` hold. -/
theorem wp_fetchFrom (hm : m.numBits = NumSectors) (hl : f.hdr.Short FreeMapFileSize l)
    {Q : BitMap × OpenFile → Disk → Prop}
    (hQ : ∀ visit m', m'.numBits = NumSectors →
      (∀ s < NumSectors, m'.bit s = (flat d (l.getD · 0) (s / 8)).getLsbD (s % 8)) →
      Q (m', f.touch visit f.hdr.lastModifyTime) d) :
    (m.fetchFrom f).wp ab Q d := by
  rw [fetchFrom, Prog.wp_do, numWords_mul hm]
  refine OpenFile.wp_readWhole hl fun visit into hinto => ?_
  rw [Prog.wp_pure]
  refine hQ visit _ hm fun s hs => ?_
  have hs8 : s / 8 < FreeMapFileSize := by
    simp only [FreeMapFileSize, NumSectors, SectorsPerTrack, NumTracks, BitsInByte] at *
    omega
  rw [bit_decodeArray, hinto _ hs8]

/-- Store the bits in the sectors `l`. -/
theorem wp_writeMap (hm : m.numBits = NumSectors) (hl : f.hdr.Short FreeMapFileSize l) {depth : ℕ}
    {Q : ℤ × OpenFile → Disk → Prop}
    (hQ : ∀ visit modify n d', (∀ s, s ∉ l → d' s = d s) →
      (∀ s < NumSectors, (flat d' (l.getD · 0) (s / 8)).getLsbD (s % 8) = m.bit s) →
      Q (n, f.touch visit modify) d') :
    (OpenFile.writeAtDepth (depth + 1) f m.bytes (m.numWords * 4) 0).wp ab Q d := by
  rw [numWords_mul hm]
  refine OpenFile.wp_writeWhole hl (by decide) fun visit modify d' hframe hdata => ?_
  refine hQ visit modify _ d' hframe fun s hs => ?_
  have hs8 : s / 8 < FreeMapFileSize := by
    simp only [FreeMapFileSize, NumSectors, SectorsPerTrack, NumTracks, BitsInByte] at *
    omega
  rw [hdata _ hs8, ← bit_bytes]

theorem wp_writeBack (hm : m.numBits = NumSectors) (hl : f.hdr.Short FreeMapFileSize l)
    {Q : OpenFile → Disk → Prop}
    (hQ : ∀ visit modify d', (∀ s, s ∉ l → d' s = d s) →
      (∀ s < NumSectors, (flat d' (l.getD · 0) (s / 8)).getLsbD (s % 8) = m.bit s) →
      Q (f.touch visit modify) d') :
    (m.writeBack f).wp ab Q d := by
  simp only [writeBack, Prog.wp_do, Prog.wp_pure]
  exact wp_writeMap hm hl fun visit modify _ d' => hQ visit modify d'

end BitMap

/-! ### The directory -/

namespace Directory

variable {dir : Directory} {f : OpenFile} {l : List ℕ}

theorem wp_newDirectory {Q : Directory → Disk → Prop} {n : ℕ}
    (hQ : ∀ dir : Directory, dir.tableSize = n → (∀ i, (dir.table i).inUse = 0) → Q dir d) :
    (newDirectory n).wp ab Q d := by
  rw [newDirectory, Prog.wp_do, wp_newBytes]
  intro garbage
  rw [Prog.wp_pure]
  exact hQ _ rfl fun _ => rfl

theorem tableSize_mul (hdir : dir.tableSize = NumDirEntries) :
    (dir.tableSize : ℤ) * 20 = (DirectoryFileSize : ℕ) := by
  rw [hdir]
  rfl

/-- Two memories with the same table have the same entries. -/
theorem decodeArray_congr_table {b b' : Buf} (h : ∀ k < DirectoryFileSize, b k = b' k) {i : ℕ}
    (hi : i < NumDirEntries) : (Layout.decodeArray b i : DirectoryEntry) = Layout.decodeArray b' i := by
  refine Layout.decodeArray_congr fun j hj => h _ ?_
  have hj' : j < 20 := hj
  have hi' : i < 10 := hi
  show 20 * i + j < 200
  omega

theorem wp_fetchFrom (hdir : dir.tableSize = NumDirEntries) (hl : f.hdr.Short DirectoryFileSize l)
    {Q : Directory × OpenFile → Disk → Prop}
    (hQ : ∀ visit dir', dir'.tableSize = NumDirEntries →
      (∀ i < NumDirEntries, dir'.table i = Layout.decodeArray (flat d (l.getD · 0)) i) →
      Q (dir', f.touch visit f.hdr.lastModifyTime) d) :
    (dir.fetchFrom f).wp ab Q d := by
  rw [fetchFrom, Prog.wp_do, tableSize_mul hdir]
  refine OpenFile.wp_readWhole hl fun visit into hinto => ?_
  rw [Prog.wp_pure]
  exact hQ visit _ hdir fun i hi => decodeArray_congr_table hinto hi

theorem wp_writeBack (hdir : dir.tableSize = NumDirEntries) (hl : f.hdr.Short DirectoryFileSize l)
    {Q : OpenFile → Disk → Prop}
    (hQ : ∀ visit modify d', (∀ s, s ∉ l → d' s = d s) →
      (∀ i < NumDirEntries, Layout.decodeArray (flat d' (l.getD · 0)) i = dir.table i) →
      Q (f.touch visit modify) d') :
    (dir.writeBack f).wp ab Q d := by
  rw [writeBack, Prog.wp_do, tableSize_mul hdir]
  refine OpenFile.wp_writeWhole hl (by decide) fun visit modify d' hframe hdata => ?_
  rw [Prog.wp_pure]
  refine hQ visit modify d' hframe fun i hi => ?_
  rw [decodeArray_congr_table hdata hi, bytes, Layout.decodeArray_encodeArray]

end Directory

end Nachos
