import Nachos.Filesys.Equiv.Directory
import Nachos.Filesys.Equiv.Volume

/-!
## Creating and removing files

`Create` takes sectors that the stored free map does not mark, gives them to an unused entry of the
directory, and stores both; `Remove` gives the sectors of an entry back.  Everything else on the disk
stays as it is, so the disk stays consistent over any sequence of calls.
-/

namespace Nachos

open Storage Memory

variable {Q : FileHeader → Disk → Prop} {s : ℕ} {h : FileHeader}

namespace FileHeader

variable {ab : Prop} {d : Disk}

theorem wp_fetchFrom (hs : s < NumSectors) (hQ : ∀ h, h.SameFile (d.header s) → Q h d) :
    (fetchFrom s).wp ab Q d := by
  rw [fetchFrom, Prog.wp_do, wp_readSector hs]
  exact wp_setLastVisitTime fun t => hQ _ ⟨rfl, rfl, rfl, rfl⟩

theorem wp_writeBack (hs : s < NumSectors)
    (hQ : ∀ t, Q { h with lastModifyTime := t, hdrSector := int s }
      (Function.update d s
        (FileHeader.toSector { h with lastModifyTime := t, hdrSector := int s }))) :
    (h.writeBack s).wp ab Q d := by
  rw [writeBack, Prog.wp_do]
  refine wp_setLastModifyTime fun t => ?_
  rw [Prog.wp_do, wp_writeSector hs, Prog.wp_pure]
  exact hQ t

/-- The sectors of a file are unmarked one by one. -/
theorem clearMarked_spec {m : BitMap} {l : List ℕ} (hnd : l.Nodup)
    (hl : ∀ s ∈ l, s < m.numBits ∧ m.bit s = true) :
    ∃ m', clearMarked m (l.map Int.ofNat) = some m' ∧ m'.numBits = m.numBits ∧
      ∀ s, m'.bit s = (decide (s ∉ l) && m.bit s) := by
  induction l generalizing m with
  | nil => exact ⟨m, rfl, rfl, fun s => by simp⟩
  | cons a l ih =>
    obtain ⟨hal, hnd'⟩ := List.nodup_cons.mp hnd
    obtain ⟨ha, hbit⟩ := hl a List.mem_cons_self
    obtain ⟨m', h1, h2, h3⟩ := ih (m := m.clearBit a) hnd' fun s hs => by
      have hne : s ≠ a := fun h => hal (h ▸ hs)
      obtain ⟨h1, h2⟩ := hl s (List.mem_cons_of_mem _ hs)
      refine ⟨h1, ?_⟩
      rw [BitMap.bit_clearBit, h2]
      simpa using hne
    refine ⟨m', ?_, h2, fun s => ?_⟩
    · rw [List.map_cons, clearMarked]
      rw [show (Int.ofNat a) = (a : ℤ) from rfl, m.test_natCast ha, m.clear_natCast ha, hbit]
      exact h1
    · rw [h3, BitMap.bit_clearBit]
      by_cases hs : s = a <;> by_cases hs' : s ∈ l <;> simp [hs, hs']

theorem wp_deallocate_direct {m : BitMap} {l : List ℕ} (hn : h.numSectors.toNat ≤ NumDirect)
    (hl : h.listed d = l.map Int.ofNat) (hnd : l.Nodup)
    (hmarked : ∀ s ∈ l, s < m.numBits ∧ m.bit s = true) {Q : BitMap → Disk → Prop}
    (hQ : ∀ m', m'.numBits = m.numBits → (∀ s, m'.bit s = (decide (s ∉ l) && m.bit s)) → Q m' d) :
    (h.deallocate m).wp ab Q d := by
  rw [listed, if_pos hn] at hl
  obtain ⟨m', h1, h2, h3⟩ := clearMarked_spec hnd hmarked
  rw [deallocate, if_pos hn, hl, h1, Prog.wp_ofOption_some]
  exact hQ m' h2 h3

end FileHeader

namespace FileSystem

variable {d d₁ d' : Disk} {o o' : Ownership Disk.Owner ℕ} {ml dl : List ℕ} {m : BitMap}
  {dir : Directory} {fs : FileSystem} {fs' : FileSystem} {i : Fin NumDirEntries}

/-- The directory and the free map have been written to their sectors `dl` and `ml`. -/
structure Stores (d d' : Disk) (ml dl : List ℕ) (m : BitMap) (dir : Directory) : Prop where
  frame : ∀ s, s ∉ ml → s ∉ dl → d' s = d s
  bits : ∀ s < NumSectors, (flat d' (ml.getD · 0) (s / 8)).getLsbD (s % 8) = m.bit s
  table : ∀ i < NumDirEntries, Layout.decodeArray (flat d' (dl.getD · 0)) i = dir.table i

/-- The sectors of the free map and of the directory hold no header and no second-level table. -/
theorem notMem_system (hml : o.own .freeMap = 0 :: ml) (hdl : o.own .directory = 1 :: dl)
    {w : Disk.Owner} (hs : s ∈ o.own w) (hmap : w = .freeMap → s = 0) (hdir : w = .directory → s = 1) :
    s ∉ ml ∧ s ∉ dl := by
  constructor
  · intro hm
    have hw : w = .freeMap := o.unique hs (by rw [hml]; exact List.mem_cons_of_mem _ hm)
    have hnd := o.nodup .freeMap
    rw [hml, List.nodup_cons] at hnd
    exact hnd.1 (hmap hw ▸ hm)
  · intro hm
    have hw : w = .directory := o.unique hs (by rw [hdl]; exact List.mem_cons_of_mem _ hm)
    have hnd := o.nodup .directory
    rw [hdl, List.nodup_cons] at hnd
    exact hnd.1 (hdir hw ▸ hm)

/-- The headers of the free map and of the directory are where they were. -/
theorem Stores.header_eq (S : Stores d₁ d' ml dl m dir) (hml : o.own .freeMap = 0 :: ml)
    (hdl : o.own .directory = 1 :: dl) (h0 : d₁ 0 = d 0) (h1 : d₁ 1 = d 1) :
    d'.header FreeMapSector = d.header FreeMapSector ∧
      d'.header DirectorySector = d.header DirectorySector := by
  have h0' := notMem_system hml hdl (w := .freeMap) (s := 0) (by rw [hml]; exact List.mem_cons_self)
    (fun _ => rfl) (by simp)
  have h1' := notMem_system hml hdl (w := .directory) (s := 1)
    (by rw [hdl]; exact List.mem_cons_self) (by simp) (fun _ => rfl)
  constructor
  · show FileHeader.ofSector (d' 0) = FileHeader.ofSector (d 0)
    rw [S.frame 0 h0'.1 h0'.2, h0]
  · show FileHeader.ofSector (d' 1) = FileHeader.ofSector (d 1)
    rw [S.frame 1 h1'.1 h1'.2, h1]

theorem Stores.bit_freeMap (S : Stores d₁ d' ml dl m dir)
    (hl : (d'.header FreeMapSector).Short FreeMapFileSize ml) (hs : s < NumSectors) :
    d'.freeMap.bit s = m.bit s := by
  rw [Disk.bit_freeMap hl hs, S.bits s hs]

theorem Stores.table_directory (S : Stores d₁ d' ml dl m dir)
    (hl : (d'.header DirectorySector).Short DirectoryFileSize dl) (i : Fin NumDirEntries) :
    d'.directory.table i = dir.table i := by
  rw [Disk.table_directory hl i.isLt, S.table i i.isLt]

section WriteBoth

variable {ab : Prop} {fm fd : OpenFile} {Q : OpenFile → OpenFile → Disk → Prop}
  (hm : m.numBits = NumSectors) (hdir : dir.tableSize = NumDirEntries)
  (hmf : fm.hdr.Short FreeMapFileSize ml) (hdf : fd.hdr.Short DirectoryFileSize dl)
  (hQ : ∀ fm' fd' d', fm'.hdr.SameFile fm.hdr → fd'.hdr.SameFile fd.hdr →
    Stores d d' ml dl m dir → Q fm' fd' d')

include hm hdir hmf hdf hQ

/-- `Create` stores the directory first, -/
theorem wp_writeBack_directory_freeMap (hdisj : ∀ s ∈ dl, s ∉ ml) :
    (dir.writeBack fd).wp ab (fun fd' d₁ => (m.writeBack fm).wp ab (fun fm' => Q fm' fd') d₁) d := by
  refine Directory.wp_writeBack hdir hdf fun v₁ t₁ d₁ hframe₁ htable => ?_
  refine BitMap.wp_writeBack hm hmf fun v₂ t₂ d₂ hframe₂ hbits => ?_
  refine hQ _ _ d₂ ⟨rfl, rfl, rfl, rfl⟩ ⟨rfl, rfl, rfl, rfl⟩ ⟨fun s h1 h2 => ?_, hbits, ?_⟩
  · rw [hframe₂ s h1, hframe₁ s h2]
  · intro i hi
    rw [← htable i hi]
    refine Directory.decodeArray_congr_table (fun k hk => ?_) hi
    refine flat_congr (fun s hs => hframe₂ s (hdisj s hs)) (hdf.lt_length ?_)
    exact lt_of_le_of_lt (Nat.div_mul_le_self k SectorSize) hk

/-- and `Remove` the free map. -/
theorem wp_writeBack_freeMap_directory (hdisj : ∀ s ∈ ml, s ∉ dl) :
    (m.writeBack fm).wp ab (fun fm' d₁ => (dir.writeBack fd).wp ab (fun fd' => Q fm' fd') d₁) d := by
  refine BitMap.wp_writeBack hm hmf fun v₁ t₁ d₁ hframe₁ hbits => ?_
  refine Directory.wp_writeBack hdir hdf fun v₂ t₂ d₂ hframe₂ htable => ?_
  refine hQ _ _ d₂ ⟨rfl, rfl, rfl, rfl⟩ ⟨rfl, rfl, rfl, rfl⟩ ⟨fun s h1 h2 => ?_, ?_, htable⟩
  · rw [hframe₂ s h2, hframe₁ s h1]
  · intro s hs
    rw [← hbits s hs]
    have hs8 : s / 8 < FreeMapFileSize := by
      simp only [FreeMapFileSize, NumSectors, SectorsPerTrack, NumTracks, BitsInByte] at *
      omega
    rw [flat_congr (fun t ht => hframe₂ t (hdisj t ht)) (hmf.lt_length ?_)]
    exact lt_of_le_of_lt (Nat.div_mul_le_self _ SectorSize) hs8

end WriteBoth

/-- Between two calls: the handles of the free map and of the directory know their sectors, and no
file has a second-level table. -/
structure Valid (fs : FileSystem) (d : Disk) (o : Ownership Disk.Owner ℕ) : Prop where
  holds : d.Holds o
  direct : ∀ w s, d.headerSector w = some s → (d.header s).numSectors.toNat ≤ NumDirect
  freeMapFile : fs.freeMapFile.hdr.SameFile (d.header FreeMapSector)
  directoryFile : fs.directoryFile.hdr.SameFile (d.header DirectorySector)

theorem Valid.touch (hv : fs.Valid d o) (hm : fs'.freeMapFile.hdr.SameFile fs.freeMapFile.hdr)
    (hd : fs'.directoryFile.hdr.SameFile fs.directoryFile.hdr) : fs'.Valid d o :=
  ⟨hv.holds, hv.direct, hm.trans hv.freeMapFile, hd.trans hv.directoryFile⟩

/-- The entry `i` has been given to a new file, or taken away. -/
theorem Valid.change (hv : fs.Valid d o) (S : Stores d₁ d' ml dl m dir)
    (hml : o.own .freeMap = 0 :: ml) (hdl : o.own .directory = 1 :: dl)
    (hown : ∀ w, w ≠ .entry i → o'.own w = o.own w) (hframe : ∀ s, o.Held s → d₁ s = d s)
    (htable : ∀ j : Fin NumDirEntries, j ≠ i → dir.table j = d.directory.table j)
    (hsec : (∀ j : Fin NumDirEntries, d'.directory.table j = dir.table j) →
      d'.sectorsOf (.entry i) = (o'.own (.entry i)).map Int.ofNat ∧
      ∀ s, d'.headerSector (.entry i) = some s →
        (d'.header s).WellFormed s ∧ (d'.header s).numSectors.toNat ≤ NumDirect)
    (hrange : ∀ s ∈ o'.own (.entry i), s < NumSectors)
    (hmarked : ∀ s < NumSectors, m.bit s = true ↔ o'.Held s)
    (hm : fs'.freeMapFile.hdr.SameFile fs.freeMapFile.hdr)
    (hd : fs'.directoryFile.hdr.SameFile fs.directoryFile.hdr) : fs'.Valid d' o' := by
  have H := hv.holds
  have h0 : d₁ 0 = d 0 := hframe 0 ⟨.freeMap, by rw [hml]; exact List.mem_cons_self⟩
  have h1 : d₁ 1 = d 1 := hframe 1 ⟨.directory, by rw [hdl]; exact List.mem_cons_self⟩
  obtain ⟨hhm, hhd⟩ := S.header_eq hml hdl h0 h1
  obtain ⟨ml', hml', hms⟩ := H.mapFile
  obtain ⟨dl', hdl', hds⟩ := H.dirFile
  obtain rfl : ml' = ml := (List.cons.inj (hml'.symm.trans hml)).2
  obtain rfl : dl' = dl := (List.cons.inj (hdl'.symm.trans hdl)).2
  rw [← hhm] at hms
  rw [← hhd] at hds
  have htab := S.table_directory hds
  have hkeep : ∀ w s, w ≠ .entry i → s ∈ o.own w → (w = .freeMap → s = 0) →
      (w = .directory → s = 1) → d' s = d s := by
    intro w s _ hs hmap hdir
    obtain ⟨h2, h3⟩ := notMem_system hml hdl hs hmap hdir
    rw [S.frame s h2 h3, hframe s ⟨w, hs⟩]
  have htable' : ∀ j : Fin NumDirEntries, j ≠ i → d'.directory.table j = d.directory.table j :=
    fun j hj => (htab j).trans (htable j hj)
  have hholds : d'.Holds o' := by
    refine ⟨H.change hown hkeep htable' (hsec htab).1 (fun s hs => ((hsec htab).2 s hs).1) hrange,
      fun s hs => ?_⟩
    rw [S.bit_freeMap hms hs, hmarked s hs]
  refine ⟨hholds, fun w s hs => ?_, by rw [hhm]; exact hm.trans hv.freeMapFile,
    by rw [hhd]; exact hd.trans hv.directoryFile⟩
  by_cases hw : w = .entry i
  · exact ((hsec htab).2 s (hw ▸ hs)).2
  · have hsame : d'.headerSector w = d.headerSector w := by
      cases w with
      | freeMap => rfl
      | directory => rfl
      | entry j => rw [Disk.headerSector, Disk.headerSector, htable' j fun h => hw (by rw [h])]
    rw [hsame] at hs
    rw [(H.sectorsOf_eq (hkeep w · hw) hsame).2 s hs]
    exact hv.direct w s hs

/-- What the calls read: the stored free map and directory. -/
theorem Valid.fetched (hv : fs.Valid d o) (hms : (d.header FreeMapSector).Short FreeMapFileSize ml)
    (hbits : ∀ s < NumSectors, m.bit s = (flat d (ml.getD · 0) (s / 8)).getLsbD (s % 8))
    (hs : s < NumSectors) : m.bit s = true ↔ o.Held s := by
  rw [hbits s hs, ← Disk.bit_freeMap hms hs, hv.holds.marked s hs]

theorem Valid.own_entry_of_unused (hv : fs.Valid d o) (h : (d.directory.table i).inUse = 0) :
    o.own (.entry i) = [] := by
  have hsec := hv.holds.sectors (.entry i)
  rw [Disk.sectorsOf, Disk.headerSector, if_neg (by simpa using h), Option.elim_none] at hsec
  exact List.map_eq_nil_iff.mp hsec.symm

/-! ### `Create` -/

/-- The file `name` of `size` bytes has been created: the unused entry `i` names it, its header is in
`sector` and its data are in the sectors `l`. -/
structure Created (d : Disk) (o : Ownership Disk.Owner ℕ) (name : Buf) (size : ℕ)
    (i : Fin NumDirEntries) (sector : ℕ) (l : List ℕ) (d' : Disk) (o' : Ownership Disk.Owner ℕ) :
    Prop where
  own_self : o'.own (.entry i) = sector :: l
  own_of_ne : ∀ w, w ≠ .entry i → o'.own w = o.own w
  unused : (d.directory.table i).inUse = 0
  first : ∀ j < i, d.InUse j
  table : ∀ j : Fin NumDirEntries, d'.directory.table j = (d.directory.addAt i name sector).table j
  frame : ∀ s, s ≠ sector → s ∉ o.own .freeMap → s ∉ o.own .directory → d' s = d s
  lists : (d'.header sector).Lists size l
  length : l.length = FileHeader.sectorsFor size

/-- The sectors of the directory are still the same. -/
theorem Valid.short_directory (hv : fs'.Valid d' o') (hdl : o'.own .directory = 1 :: dl) :
    (d'.header DirectorySector).Short DirectoryFileSize dl := by
  obtain ⟨dl', hdl', hds⟩ := hv.holds.dirFile
  obtain rfl : dl' = dl := (List.cons.inj (hdl'.symm.trans hdl)).2
  exact hds

/-- The unused entry `i` has been given the header `h` in `sector` and the data sectors `l`. -/
theorem Valid.created (hv : fs.Valid d o) (fs' : FileSystem) (hml : o.own .freeMap = 0 :: ml)
    (hdl : o.own .directory = 1 :: dl) (hunused : (d.directory.table i).inUse = 0)
    (hfirst : ∀ j < i, d.InUse j) (htable : ∀ j < NumDirEntries, dir.table j = d.directory.table j)
    {sector size : ℕ} {name : Buf} (hbits : m.numBits = NumSectors)
    (hheld : ∀ s < NumSectors, m.bit s = true ↔ o.Held s) (hsector : sector < NumSectors)
    (hfree : m.bit sector = false) {l : List ℕ} {m' : BitMap}
    (htakes : FileHeader.Takes (m.setBit sector) l m') (hlists : h.Lists size l)
    (hlen : l.length = FileHeader.sectorsFor size) (hsize : FileHeader.sectorsFor size ≤ NumDirect)
    (hhdr : h.hdrSector = int sector)
    (S : Stores (Function.update d sector h.toSector) d' ml dl m' (dir.addAt i name sector))
    (hm : fs'.freeMapFile.hdr.SameFile fs.freeMapFile.hdr)
    (hd : fs'.directoryFile.hdr.SameFile fs.directoryFile.hdr) :
    ∃ o', fs'.Valid d' o' ∧ Created d o name size i sector l d' o' := by
  have hnot : ¬ o.Held sector := by
    rw [← hheld sector hsector, hfree]
    exact Bool.false_ne_true
  -- the sectors taken are free in the map that marks `sector`
  have hl : ∀ s ∈ l, s < NumSectors ∧ s ≠ sector ∧ ¬ o.Held s := by
    intro s hs
    obtain ⟨h1, h2⟩ := htakes.free s hs
    rw [BitMap.numBits_setBit, hbits] at h1
    rw [BitMap.bit_setBit, Bool.or_eq_false_iff] at h2
    refine ⟨h1, of_decide_eq_false h2.1, ?_⟩
    rw [← hheld s h1, h2.2]
    exact Bool.false_ne_true
  have hnd : (sector :: l).Nodup :=
    List.nodup_cons.mpr ⟨fun hs => (hl sector hs).2.1 rfl, htakes.nodup⟩
  have hnew : ∀ s ∈ sector :: l, ¬ o.Held s := by
    intro s hs
    rcases List.mem_cons.mp hs with rfl | hs
    · exact hnot
    · exact (hl s hs).2.2
  have hown : (o.give (.entry i) (sector :: l) hnd hnew).own (.entry i) = sector :: l := by
    rw [Ownership.own_give_self, hv.own_entry_of_unused hunused, List.nil_append]
  have hrange : ∀ s ∈ l, s < NumSectors := fun s hs => (hl s hs).1
  have hlen26 : l.length ≤ NumDirect := by omega
  -- the new header is not in a sector of the free map or of the directory
  have hout : sector ∉ ml ∧ sector ∉ dl :=
    ⟨fun h => hnot ⟨.freeMap, by rw [hml]; exact List.mem_cons_of_mem _ h⟩,
      fun h => hnot ⟨.directory, by rw [hdl]; exact List.mem_cons_of_mem _ h⟩⟩
  have hheader : d'.header (sector : ℤ) = h := by
    rw [Disk.header, Int.toNat_natCast, S.frame sector hout.1 hout.2, Function.update_self,
      FileHeader.ofSector_toSector]
  obtain ⟨huse, hentry⟩ := dir.addAt_self i name sector
  have hsec31 : (int sector).toInt = sector := toInt_int_natCast (hsector.trans (by decide))
  have hvalid : fs'.Valid d' (o.give (.entry i) (sector :: l) hnd hnew) := by
    refine hv.change (i := i) S hml hdl (fun w hw => Ownership.own_give_of_ne hw) ?_ ?_
      (fun htab => ?_) ?_ ?_ hm hd
    · intro s hs
      rw [Function.update_of_ne]
      rintro rfl
      exact hnot hs
    · intro j hj
      rw [Directory.addAt_of_ne fun h => hj (Fin.ext h)]
      exact htable j j.isLt
    · have hhs : d'.headerSector (.entry i) = some (sector : ℤ) := by
        rw [Disk.headerSector, htab i, huse, if_pos (by decide), hentry, hsec31]
      constructor
      · rw [Disk.sectorsOf, hhs, Option.elim_some, hheader, hown, List.map_cons,
          hlists.listed_eq hlen26 hrange]
        rfl
      · intro s hs
        obtain rfl := Option.some.inj (hhs.symm.trans hs)
        rw [hheader]
        refine ⟨hlists.wellFormed hlen (hsize.trans (by decide)) hhdr, ?_⟩
        rw [hlists.numSectors, toNat_int_natCast (hlen26.trans_lt (by decide))]
        exact hlen26
    · rw [hown]
      intro s hs
      rcases List.mem_cons.mp hs with rfl | hs
      · exact hsector
      · exact hrange s hs
    · intro s hs
      rw [Ownership.held_give, htakes.bit s, BitMap.bit_setBit, ← hheld s hs, List.mem_cons]
      simp only [Bool.or_eq_true, decide_eq_true_eq]
      rw [or_assoc, or_left_comm]
  have hdir : (o.give (.entry i) (sector :: l) hnd hnew).own .directory = 1 :: dl := by
    rw [Ownership.own_give_of_ne (by simp), hdl]
  refine ⟨_, hvalid, hown, fun w hw => Ownership.own_give_of_ne hw, hunused, hfirst, ?_, ?_,
    hheader.symm ▸ hlists, hlen⟩
  · intro j
    rw [S.table_directory (hvalid.short_directory hdir) j]
    exact Directory.addAt_congr (htable i i.isLt) (htable j j.isLt)
  · intro s hs hmap hdirectory
    rw [hml] at hmap
    rw [hdl] at hdirectory
    rw [S.frame s (fun h => hmap (List.mem_cons_of_mem _ h))
      (fun h => hdirectory (List.mem_cons_of_mem _ h)), Function.update_of_ne hs]

theorem disjoint_system (hml : o.own .freeMap = 0 :: ml) (hdl : o.own .directory = 1 :: dl)
    (hm : s ∈ ml) (hd : s ∈ dl) : False := by
  have : Disk.Owner.freeMap = .directory :=
    o.unique (s := s) (by rw [hml]; exact List.mem_cons_of_mem _ hm)
      (by rw [hdl]; exact List.mem_cons_of_mem _ hd)
  cases this

theorem wp_newHeader {ab : Prop} (hQ : ∀ h, Q h d) : newHeader.wp ab Q d := by
  simp only [newHeader, Prog.wp_do, wp_newBytes, Prog.wp_pure]
  exact fun garbage => hQ _

/-- What `Find` returns is the sector of a header. -/
theorem headerSector_of_findIndex (hsz : dir.tableSize = NumDirEntries)
    (htable : ∀ j < NumDirEntries, dir.table j = d.directory.table j) {name : Buf} {i : ℕ}
    (hindex : dir.findIndex name = some i) :
    ∃ hi, d.headerSector (.entry ⟨i, hi⟩) = some (dir.find name) := by
  obtain ⟨hi, huse, -⟩ := Directory.findIndex_some hindex
  rw [hsz] at hi
  refine ⟨hi, ?_⟩
  rw [Disk.headerSector, ← htable i hi, if_pos huse, Directory.find_of_findIndex hindex]

/-- `Find` returns `-1` only for a name that is not there. -/
theorem Valid.findIndex_of_find (hv : fs.Valid d o) (hsz : dir.tableSize = NumDirEntries)
    (htable : ∀ j < NumDirEntries, dir.table j = d.directory.table j) {name : Buf}
    (hfind : dir.find name = -1) : dir.findIndex name = none := by
  cases hindex : dir.findIndex name with
  | none => rfl
  | some i =>
    obtain ⟨hi, hhs⟩ := headerSector_of_findIndex hsz htable hindex
    obtain ⟨t, l, ht, -⟩ := hv.holds.own_eq hhs
    omega

/-- There is room for a file: the name is new, an entry is unused, and so few sectors are in use that
there is a run of clear ones. -/
structure Room (d : Disk) (o : Ownership Disk.Owner ℕ) (name : Buf) (size : ℕ) : Prop where
  name : d.directory.findIndex name = none
  entry : ∃ i, ¬ d.InUse i
  sectors : ∃ l : List ℕ, (∀ s, o.Held s → s ∈ l) ∧ l.length < NumSectors ∧
    (l.length + 2) * FileHeader.sectorsFor size ≤ NumSectors

/-- `Create` creates the file, or there is no room and it fails and leaves the disk alone. -/
theorem wp_create_cases {ab : Prop} (hv : fs.Valid d o) {name : Buf} {size : ℕ}
    (hsize : FileHeader.sectorsFor size ≤ NumDirect) {Q : Bool × FileSystem → Disk → Prop}
    (hfail : ∀ fs' : FileSystem, ¬ Room d o name size → fs'.Valid d o → Q (false, fs') d)
    (hab : ¬ Room d o name size → ab)
    (hok : ∀ (fs' : FileSystem) d' o' i sector l, d.directory.findIndex name = none →
      fs'.Valid d' o' → Created d o name size i sector l d' o' → Q (true, fs') d') :
    (fs.create name size).wp ab Q d := by
  obtain ⟨ml, hml, hms⟩ := hv.holds.mapFile
  obtain ⟨dl, hdl, hds⟩ := hv.holds.dirFile
  have hmf := hms.congr hv.freeMapFile.symm
  have hdf := hds.congr hv.directoryFile.symm
  unfold create
  simp only [Prog.wp_do]
  refine Directory.wp_newDirectory fun dir₀ h0 _ => ?_
  refine Directory.wp_fetchFrom h0 hdf fun v₁ dir hsz htab => ?_
  have htable : ∀ j < NumDirEntries, dir.table j = d.directory.table j := fun j hj => by
    rw [htab j hj, Disk.table_directory hds hj]
  simp only
  have hindex : dir.findIndex name = d.directory.findIndex name := Directory.findIndex_congr hsz htable
  split_ifs with hfind
  · rw [Prog.wp_pure]
    refine hfail _ (fun room => hfind ?_) (hv.touch (.refl _) (OpenFile.sameFile_touch _ _ _))
    exact Directory.find_of_findIndex_none (hindex.trans room.name)
  simp only [Prog.wp_do]
  refine BitMap.wp_newMap fun m₀ hm₀ _ => ?_
  refine BitMap.wp_fetchFrom hm₀ hmf fun v₂ m hm hbits => ?_
  have hheld := fun s hs => hv.fetched hms hbits (s := s) hs
  have hnone : d.directory.findIndex name = none :=
    hindex.symm.trans (hv.findIndex_of_find hsz htable (not_not.1 hfind))
  -- a sector for the header
  cases hclears : m.clears with
  | nil =>
    simp only [BitMap.find_of_full hclears, if_pos, Prog.wp_pure]
    refine hfail _ (fun room => ?_)
      (hv.touch (OpenFile.sameFile_touch _ _ _) (OpenFile.sameFile_touch _ _ _))
    obtain ⟨used, hused, hlt, -⟩ := room.sectors
    have hle := hv.holds.le_length_clears hused
    have hsame : m.clears = d.freeMap.clears := BitMap.clears_congr hm fun s hs => by
      rw [hbits s hs, Disk.bit_freeMap hms hs]
    rw [← hsame, hclears, List.length_nil] at hle
    omega
  | cons sector rest =>
    obtain ⟨hsector, hfree⟩ := BitMap.mem_clears.mp (hclears ▸ List.mem_cons_self (a := sector))
    rw [hm] at hsector
    simp only [BitMap.find_of_clears hclears]
    rw [if_neg (by omega)]
    have hrun : Room d o name size → ∃ i < (m.setBit sector).numBits,
        (m.setBit sector).ClearRun i (FileHeader.sectorsFor size) := by
      intro room
      obtain ⟨used, hused, -, hlen⟩ := room.sectors
      have hset : ∀ s < (m.setBit sector).numBits, (m.setBit sector).bit s = true →
          s ∈ sector :: used := by
        intro s hs hbit
        rw [BitMap.bit_setBit, Bool.or_eq_true, decide_eq_true_eq, hheld s (hm ▸ hs)] at hbit
        exact List.mem_cons.2 (hbit.imp_right (hused s))
      obtain ⟨i, hi⟩ := BitMap.exists_clearRun hset (hlen.trans hm.ge)
      exact hi.exists_lt (hm ▸ Nat.zero_lt_of_lt hsector)
    -- an entry of the directory
    rcases dir.add_cases name sector with ⟨hadd, hwhy⟩ | ⟨i, hi, -, hunused, hfirst, hadd⟩
    · simp only [hadd, Bool.false_eq_true, not_false_eq_true, if_true, Prog.wp_pure]
      refine hfail _ (fun room => ?_)
        (hv.touch (OpenFile.sameFile_touch _ _ _) (OpenFile.sameFile_touch _ _ _))
      obtain ⟨i, hi⟩ := room.entry
      rcases hwhy with hfound | hfull
      · exact hfound (hindex.trans hnone)
      · refine hi ?_
        rw [Disk.InUse, ← htable i i.isLt]
        exact hfull i (i.isLt.trans_eq hsz.symm)
    · simp only [hadd, not_true_eq_false, if_false, Prog.wp_do]
      rw [hsz] at hi
      refine wp_newHeader fun h => ?_
      -- and the data sectors
      refine FileHeader.wp_allocate_direct hsize ?_ ?_ fun hnoRun => hab fun room => ?_
      · intro hfull h'
        simp only [Bool.false_eq_true, not_false_eq_true, if_true, Prog.wp_pure]
        refine hfail _ (fun room => ?_)
          (hv.touch (OpenFile.sameFile_touch _ _ _) (OpenFile.sameFile_touch _ _ _))
        obtain ⟨i, -, hclear⟩ := hrun room
        exact absurd hclear.le_length_clears (not_le.2 hfull)
      · intro h' m' l hlen hlists htakes _
        simp only [not_true_eq_false, if_false, Prog.wp_do]
        refine FileHeader.wp_writeBack hsector fun t => ?_
        have hm' : m'.numBits = NumSectors := by rw [htakes.numBits, BitMap.numBits_setBit, hm]
        have hsz' : (dir.addAt i name sector).tableSize = NumDirEntries := hsz
        simp only [Prog.wp_pure]
        refine wp_writeBack_directory_freeMap hm' hsz' ?_ ?_ ?_
          fun s hd hm => disjoint_system hml hdl hm hd
        · exact hmf.congr (OpenFile.sameFile_touch _ _ _).symm
        · exact hdf.congr (OpenFile.sameFile_touch _ _ _).symm
        · intro fm' fd' d' hsm hsd S
          have hlists' : FileHeader.Lists { h' with lastModifyTime := t, hdrSector := int sector }
              size l := ⟨hlists.numBytes, hlists.numSectors, hlists.sectors⟩
          have hunused' : (d.directory.table i).inUse = 0 := by
            rw [← htable i hi]
            exact hunused
          have hfirst' : ∀ j < (⟨i, hi⟩ : Fin NumDirEntries), d.InUse j := by
            intro j hj
            rw [Disk.InUse, ← htable j j.isLt]
            exact hfirst j hj
          obtain ⟨o', hv', hcreated⟩ := hv.created (i := ⟨i, hi⟩) ⟨fm', fd'⟩ hml hdl hunused' hfirst' htable
            hm hheld hsector hfree htakes hlists' hlen hsize rfl S
            (hsm.trans (OpenFile.sameFile_touch _ _ _)) (hsd.trans (OpenFile.sameFile_touch _ _ _))
          exact hok _ _ o' _ _ _ hnone hv' hcreated
      · obtain ⟨i, hi, hclear⟩ := hrun room
        have hsome : ∃ r, (m.setBit sector).firstFind (FileHeader.sectorsFor size : ℕ) = some r :=
          BitMap.exists_firstFind hi hclear
        rw [hnoRun] at hsome
        obtain ⟨r, hr⟩ := hsome
        cases hr

namespace Created

variable {name : Buf} {size sector : ℕ} {l : List ℕ}

theorem findIndex_eq (C : Created d o name size i sector l d' o')
    (hnone : d.directory.findIndex name = none) : d'.directory.findIndex name = some (i : ℕ) := by
  have hcongr : d'.directory.findIndex name = (d.directory.addAt i name sector).findIndex name :=
    Directory.findIndex_congr rfl fun j hj => C.table ⟨j, hj⟩
  rw [hcongr]
  exact Directory.findIndex_addAt hnone i.isLt _

theorem held_iff (C : Created d o name size i sector l d' o') (hv : fs.Valid d o) (s : ℕ) :
    o'.Held s ↔ o.Held s ∨ s ∈ sector :: l := by
  constructor
  · rintro ⟨w, hw⟩
    by_cases hwi : w = .entry i
    · rw [hwi, C.own_self] at hw
      exact Or.inr hw
    · rw [C.own_of_ne w hwi] at hw
      exact Or.inl ⟨w, hw⟩
  · rintro (⟨w, hw⟩ | hs)
    · have hwi : w ≠ .entry i := by
        rintro rfl
        rw [hv.own_entry_of_unused C.unused] at hw
        cases hw
      exact ⟨w, (C.own_of_ne w hwi).symm ▸ hw⟩
    · exact ⟨.entry i, C.own_self.symm ▸ hs⟩

end Created

/-! ### `Remove` -/

/-- The file of entry `i` has been removed. -/
structure Removed (d : Disk) (o : Ownership Disk.Owner ℕ) (i : Fin NumDirEntries) (d' : Disk)
    (o' : Ownership Disk.Owner ℕ) : Prop where
  own_self : o'.own (.entry i) = []
  own_of_ne : ∀ w, w ≠ .entry i → o'.own w = o.own w
  table_self : (d'.directory.table i).inUse = 0
  table_of_ne : ∀ j : Fin NumDirEntries, j ≠ i → d'.directory.table j = d.directory.table j
  frame : ∀ s, s ∉ o.own .freeMap → s ∉ o.own .directory → d' s = d s

/-- The entry `i`, with the sectors `t :: l`, has been taken away. -/
theorem Valid.removed (hv : fs.Valid d o) (hml : o.own .freeMap = 0 :: ml)
    (hdl : o.own .directory = 1 :: dl) (hheld : ∀ s < NumSectors, m.bit s = true ↔ o.Held s)
    {m' : BitMap} (hbit : ∀ s, m'.bit s = (decide (s ∉ o.own (.entry i)) && m.bit s))
    (hunused : (dir.table i).inUse = 0)
    (htable : ∀ j : Fin NumDirEntries, j ≠ i → dir.table j = d.directory.table j)
    (S : Stores d d' ml dl m' dir) (hm : fs'.freeMapFile.hdr.SameFile fs.freeMapFile.hdr)
    (hd : fs'.directoryFile.hdr.SameFile fs.directoryFile.hdr) :
    ∃ o', fs'.Valid d' o' ∧ Removed d o i d' o' := by
  have hvalid : fs'.Valid d' (o.release (.entry i)) := by
    refine hv.change (i := i) S hml hdl (fun w hw => Ownership.own_release_of_ne hw)
      (fun _ _ => rfl) htable (fun htab => ?_) ?_ ?_ hm hd
    · have hnone : d'.headerSector (.entry i) = none := by
        rw [Disk.headerSector, htab i, if_neg (by simpa using hunused)]
      refine ⟨?_, fun s hs => ?_⟩
      · rw [Disk.sectorsOf, hnone, Ownership.own_release_self]
        rfl
      · rw [hnone] at hs
        cases hs
    · rw [Ownership.own_release_self]
      exact fun s hs => absurd hs List.not_mem_nil
    · intro s hs
      rw [Ownership.held_release, hbit, ← hheld s hs, Bool.and_eq_true, decide_eq_true_eq]
      exact and_comm
  have hdir : (o.release (.entry i)).own .directory = 1 :: dl := by
    rw [Ownership.own_release_of_ne (by simp), hdl]
  have htab := S.table_directory (hvalid.short_directory hdir)
  refine ⟨_, hvalid, Ownership.own_release_self, fun w hw => Ownership.own_release_of_ne hw, ?_, ?_, ?_⟩
  · rw [htab i, hunused]
  · intro j hj
    rw [htab j, htable j hj]
  · intro s hmap hdirectory
    rw [hml] at hmap
    rw [hdl] at hdirectory
    exact S.frame s (fun h => hmap (List.mem_cons_of_mem _ h))
      (fun h => hdirectory (List.mem_cons_of_mem _ h))

/-- `Remove` removes the file with the name, or fails and leaves the disk alone if there is none. -/
theorem wp_remove_cases {ab : Prop} (hv : fs.Valid d o) {name : Buf}
    {Q : Bool × FileSystem → Disk → Prop}
    (hnone : ∀ fs' : FileSystem, d.directory.findIndex name = none → fs'.Valid d o → Q (false, fs') d)
    (hsome : ∀ (fs' : FileSystem) d' o' (i : Fin NumDirEntries),
      d.directory.findIndex name = some (i : ℕ) →
      fs'.Valid d' o' → Removed d o i d' o' → Q (true, fs') d') :
    (fs.remove name).wp ab Q d := by
  obtain ⟨ml, hml, hms⟩ := hv.holds.mapFile
  obtain ⟨dl, hdl, hds⟩ := hv.holds.dirFile
  have hmf := hms.congr hv.freeMapFile.symm
  have hdf := hds.congr hv.directoryFile.symm
  unfold remove
  simp only [Prog.wp_do]
  refine Directory.wp_newDirectory fun dir₀ h0 _ => ?_
  refine Directory.wp_fetchFrom h0 hdf fun v₁ dir hsz htab => ?_
  have htable : ∀ j < NumDirEntries, dir.table j = d.directory.table j := fun j hj => by
    rw [htab j hj, Disk.table_directory hds hj]
  have hcongr : d.directory.findIndex name = dir.findIndex name :=
    (Directory.findIndex_congr hsz htable).symm
  cases hindex : dir.findIndex name with
  | none =>
    simp only [Directory.find_of_findIndex_none hindex, if_true, Prog.wp_pure]
    exact hnone _ (hcongr.trans hindex) (hv.touch (.refl _) (OpenFile.sameFile_touch _ _ _))
  | some i =>
    obtain ⟨hi, hhs⟩ := headerSector_of_findIndex hsz htable hindex
    obtain ⟨t, l, ht, hown, htlt, hlisted⟩ := hv.holds.own_eq hhs
    rw [ht] at hhs
    have hdirect := hv.direct _ _ hhs
    simp only [ht]
    rw [if_neg (by omega), Prog.wp_do]
    refine FileHeader.wp_fetchFrom htlt fun h hsame => ?_
    rw [Prog.wp_do]
    refine BitMap.wp_newMap fun m₀ hm₀ _ => ?_
    rw [Prog.wp_do]
    refine BitMap.wp_fetchFrom hm₀ hmf fun v₂ m hm hbits => ?_
    -- the sectors of the file are marked, as `Deallocate` asserts
    have hheld := fun s hs => hv.fetched hms hbits (s := s) hs
    have hmarked : ∀ s ∈ t :: l, s < m.numBits ∧ m.bit s = true := by
      intro s hs
      have hmem : o.Held s := ⟨.entry ⟨i, hi⟩, by rw [hown]; exact hs⟩
      have hlt := hv.holds.range s hmem
      exact ⟨by rw [hm]; exact hlt, (hheld s hlt).mpr hmem⟩
    have hnd : (t :: l).Nodup := hown ▸ o.nodup (.entry ⟨i, hi⟩)
    have hlisted' : h.listed d = l.map Int.ofNat :=
      (FileHeader.listed_congr hsame.numSectors hsame.dataSectors fun _ => rfl).trans hlisted
    simp only [Prog.wp_do]
    refine FileHeader.wp_deallocate_direct (hsame.numSectors ▸ hdirect) hlisted'
      (List.nodup_cons.mp hnd).2 (fun s hs => hmarked s (List.mem_cons_of_mem _ hs)) ?_
    intro m₁ hm₁ hbit₁
    rw [m₁.clear_natCast (by rw [hm₁, hm]; exact htlt), Prog.wp_ofOption_some]
    simp only [Directory.remove_of_findIndex hindex, Prog.wp_pure]
    have hm' : (m₁.clearBit t).numBits = NumSectors := by rw [BitMap.numBits_clearBit, hm₁, hm]
    have hsz' : ({ dir with table := Function.update dir.table i { dir.table i with inUse := 0 } }
        : Directory).tableSize = NumDirEntries := hsz
    refine wp_writeBack_freeMap_directory hm' hsz' ?_ ?_ ?_
      fun s hm hd => disjoint_system hml hdl hm hd
    · exact hmf.congr (OpenFile.sameFile_touch _ _ _).symm
    · exact hdf.congr (OpenFile.sameFile_touch _ _ _).symm
    · intro fm' fd' d' hsm hsd S
      have hremoved : ∃ o', FileSystem.Valid ⟨fm', fd'⟩ d' o' ∧ Removed d o ⟨i, hi⟩ d' o' := by
        refine hv.removed (i := ⟨i, hi⟩) hml hdl hheld ?_ ?_ ?_ S
          (hsm.trans (OpenFile.sameFile_touch _ _ _)) (hsd.trans (OpenFile.sameFile_touch _ _ _))
        · intro s
          rw [BitMap.bit_clearBit, hbit₁, hown, ← Bool.and_assoc, ← Bool.decide_and]
          congr 2
          simp [not_or]
        · simp
        · intro j hj
          rw [← htable j j.isLt]
          exact Function.update_of_ne (fun h => hj (Fin.ext h)) _ _
      obtain ⟨o', hv', hr⟩ := hremoved
      exact hsome _ _ o' ⟨i, hi⟩ (hcongr.trans hindex) hv' hr

/-! ### Formatting -/

/-- Sectors that are given to the free map and to the directory, and no others. -/
theorem exists_ownership (hnd₀ : (0 :: ml).Nodup) (hnd₁ : (1 :: dl).Nodup)
    (hdisj : ∀ s ∈ 1 :: dl, s ∉ 0 :: ml) :
    ∃ o : Ownership Disk.Owner ℕ, o.own .freeMap = 0 :: ml ∧ o.own .directory = 1 :: dl ∧
      (∀ i, o.own (.entry i) = []) ∧ ∀ s, o.Held s ↔ s ∈ 1 :: dl ∨ s ∈ 0 :: ml := by
  let o₀ : Ownership Disk.Owner ℕ := Ownership.empty.give .freeMap (0 :: ml) hnd₀
    fun _ _ => Ownership.not_held_empty
  have hheld₀ : ∀ s, o₀.Held s ↔ s ∈ 0 :: ml := by
    intro s
    rw [Ownership.held_give, or_iff_left Ownership.not_held_empty]
  have hfree₁ : ∀ s ∈ 1 :: dl, ¬ o₀.Held s := by
    intro s hs
    rw [hheld₀]
    exact hdisj s hs
  refine ⟨o₀.give .directory (1 :: dl) hnd₁ hfree₁, ?_, ?_, ?_, ?_⟩
  · rw [Ownership.own_give_of_ne (by simp), Ownership.own_give_self]
    rfl
  · rw [Ownership.own_give_self, Ownership.own_give_of_ne (by simp)]
    rfl
  · intro i
    rw [Ownership.own_give_of_ne (by simp), Ownership.own_give_of_ne (by simp)]
    rfl
  · intro s
    rw [Ownership.held_give, hheld₀]

/-- A disk with the free map in `ml` and an empty directory in `dl`. -/
theorem Valid.formatted {mapHdr dirHdr : FileHeader} {m₂ m₃ m₄ : BitMap}
    (hbits : m₂.numBits = NumSectors) (hm₂ : ∀ s < NumSectors, m₂.bit s = true ↔ s = 0 ∨ s = 1)
    (ht₀ : FileHeader.Takes m₂ ml m₃) (ht₁ : FileHeader.Takes m₃ dl m₄)
    (hs₀ : mapHdr.Short FreeMapFileSize ml) (hs₁ : dirHdr.Short DirectoryFileSize dl)
    (hh₀ : mapHdr.hdrSector = int 0) (hh₁ : dirHdr.hdrSector = int 1) (hempty : ∀ i, (dir.table i).inUse = 0)
    (S : Stores (Function.update (Function.update d 0 mapHdr.toSector) 1 dirHdr.toSector) d' ml dl
      m₄ dir)
    (hm : fs.freeMapFile.hdr.SameFile mapHdr) (hd : fs.directoryFile.hdr.SameFile dirHdr) :
    ∃ o, fs.Valid d' o ∧ ∀ i, o.own (.entry i) = [] := by
  -- the sectors of the two files have been free, so they are neither 0 nor 1, nor in both files
  have hml : ∀ s ∈ ml, s < NumSectors ∧ s ≠ 0 ∧ s ≠ 1 := by
    intro s hs
    obtain ⟨h1, h2⟩ := ht₀.free s hs
    rw [hbits] at h1
    have h3 := mt (hm₂ s h1).mpr (by rw [h2]; exact Bool.false_ne_true)
    exact ⟨h1, fun h => h3 (Or.inl h), fun h => h3 (Or.inr h)⟩
  have hdl : ∀ s ∈ dl, s < NumSectors ∧ s ≠ 0 ∧ s ≠ 1 ∧ s ∉ ml := by
    intro s hs
    obtain ⟨h1, h2⟩ := ht₁.free s hs
    rw [ht₀.numBits, hbits] at h1
    rw [ht₀.bit, Bool.or_eq_false_iff] at h2
    have h3 := mt (hm₂ s h1).mpr (by rw [h2.2]; exact Bool.false_ne_true)
    exact ⟨h1, fun h => h3 (Or.inl h), fun h => h3 (Or.inr h), of_decide_eq_false h2.1⟩
  have hnd₀ : (0 :: ml).Nodup := List.nodup_cons.mpr ⟨fun h => (hml 0 h).2.1 rfl, ht₀.nodup⟩
  have hnd₁ : (1 :: dl).Nodup := List.nodup_cons.mpr ⟨fun h => (hdl 1 h).2.2.1 rfl, ht₁.nodup⟩
  have hdisj : ∀ s ∈ 1 :: dl, s ∉ 0 :: ml := by
    intro s hs
    rw [List.mem_cons]
    rcases List.mem_cons.mp hs with rfl | hs
    · rintro (h | h)
      · cases h
      · exact (hml 1 h).2.2 rfl
    · rintro (h | h)
      · exact (hdl s hs).2.1 h
      · exact (hdl s hs).2.2.2 h
  obtain ⟨o, hown₀, hown₁, hown, hheld⟩ := exists_ownership hnd₀ hnd₁ hdisj
  -- no entry is in use: the headers on the disk are those of the two files
  obtain ⟨hhm, hhd⟩ := S.header_eq hown₀ hown₁ rfl rfl
  have hhm' : d'.header FreeMapSector = mapHdr := hhm.trans (FileHeader.ofSector_toSector mapHdr)
  have hhd' : d'.header DirectorySector = dirHdr := hhd.trans (FileHeader.ofSector_toSector dirHdr)
  have hnone : ∀ i, d'.headerSector (.entry i) = none := by
    intro i
    rw [Disk.headerSector, S.table_directory (hhd' ▸ hs₁), if_neg (by simpa using hempty i)]
  have hwf : ∀ w s, d'.headerSector w = some s →
      (d'.header s).WellFormed s ∧ (d'.header s).numSectors.toNat ≤ NumDirect := by
    intro w s hs
    cases w with
    | freeMap =>
      obtain rfl := Option.some.inj hs
      rw [hhm']
      exact ⟨hs₀.wellFormed hh₀, hs₀.numSectors_le⟩
    | directory =>
      obtain rfl := Option.some.inj hs
      rw [hhd']
      exact ⟨hs₁.wellFormed hh₁, hs₁.numSectors_le⟩
    | entry i =>
      rw [hnone i] at hs
      cases hs
  have hlisted₀ := hs₀.listed_eq (d := d') (hs₀.short.trans (by decide)) hs₀.inRange
  have hlisted₁ := hs₁.listed_eq (d := d') (hs₁.short.trans (by decide)) hs₁.inRange
  refine ⟨o, ⟨⟨⟨?_, ?_, fun w s hs => (hwf w s hs).1, ?_, ?_⟩, ?_⟩, fun w s hs => (hwf w s hs).2,
    by rw [hhm']; exact hm, by rw [hhd']; exact hd⟩, hown⟩
  · intro w
    cases w with
    | freeMap =>
      rw [hown₀, List.map_cons, ← hlisted₀, ← hhm']
      rfl
    | directory =>
      rw [hown₁, List.map_cons, ← hlisted₁, ← hhd']
      rfl
    | entry i =>
      rw [Disk.sectorsOf, hnone i, hown i]
      rfl
  · intro s hs
    rcases (hheld s).mp hs with hs | hs <;> rcases List.mem_cons.mp hs with rfl | hs
    · decide
    · exact (hdl s hs).1
    · decide
    · exact (hml s hs).1
  · rw [hhm']
    exact hs₀.numBytes
  · rw [hhd']
    exact hs₁.numBytes
  · intro s hs
    rw [S.bit_freeMap (hhm' ▸ hs₀) hs, ht₁.bit, ht₀.bit, hheld, List.mem_cons, List.mem_cons]
    have h2 := hm₂ s hs
    simp only [Bool.or_eq_true, decide_eq_true_eq, h2]
    simp only [or_assoc, or_comm, or_left_comm]

/-- The allocations of `format`, which find their sectors next to each other. -/
theorem wp_allocateOrFail {ab : Prop} {size i : ℕ} (hsize : FileHeader.sectorsFor size ≤ NumDirect)
    (hi : i < m.numBits) (hrun : m.ClearRun i (FileHeader.sectorsFor size))
    {Q : FileHeader × BitMap → Disk → Prop}
    (hQ : ∀ h' m' l, l.length = FileHeader.sectorsFor size → h'.Lists size l →
      FileHeader.Takes m l m' → Q (h', m') d) : (allocateOrFail m h size).wp ab Q d := by
  rw [allocateOrFail, Prog.wp_do]
  refine FileHeader.wp_allocate_direct hsize ?_ ?_ ?_
  · exact fun hfull => absurd hrun.le_length_clears (not_le.2 hfull)
  · intro h' m' l hlen hlists htakes _
    simp only [if_true, Prog.wp_pure]
    exact hQ h' m' l hlen hlists htakes
  · intro hnone
    have hsome : ∃ r, m.firstFind (FileHeader.sectorsFor size : ℕ) = some r :=
      BitMap.exists_firstFind hi hrun
    rw [hnone] at hsome
    obtain ⟨r, hr⟩ := hsome
    cases hr

theorem wp_openFile_new {ab : Prop} (hs : s < NumSectors) {Q : OpenFile → Disk → Prop}
    (hQ : ∀ f : OpenFile, f.fileSector = s → f.seekPosition = 0 → f.hdr.SameFile (d.header s) → Q f d) :
    (OpenFile.new s).wp ab Q d := by
  rw [OpenFile.new, Prog.wp_do]
  refine FileHeader.wp_fetchFrom hs fun h hsame => ?_
  rw [Prog.wp_pure]
  exact hQ _ rfl rfl hsame

/-- Formatting succeeds, and leaves a consistent disk without files. -/
theorem wp_format {ab : Prop} :
    format.wp ab (fun fs d' => ∃ o, fs.Valid d' o ∧ ∀ i, o.own (.entry i) = []) d := by
  unfold format
  rw [Prog.wp_do]
  refine BitMap.wp_newMap fun m₀ hm₀ hclear => ?_
  rw [Prog.wp_do]
  refine Directory.wp_newDirectory fun dir hsz hempty => ?_
  rw [Prog.wp_do]
  refine wp_newHeader fun h₀ => ?_
  rw [Prog.wp_do]
  refine wp_newHeader fun h₁ => ?_
  have hmark₀ : m₀.mark FreeMapSector = some (m₀.setBit 0) :=
    m₀.mark_natCast (i := 0) (by rw [hm₀]; decide)
  have hmark₁ : (m₀.setBit 0).mark DirectorySector = some ((m₀.setBit 0).setBit 1) :=
    (m₀.setBit 0).mark_natCast (i := 1) (by rw [BitMap.numBits_setBit, hm₀]; decide)
  rw [Prog.wp_do, hmark₀, Prog.wp_ofOption_some, Prog.wp_do, hmark₁, Prog.wp_ofOption_some]
  set m₂ := (m₀.setBit 0).setBit 1 with hm₂
  have hbits : m₂.numBits = NumSectors := by
    rw [hm₂, BitMap.numBits_setBit, BitMap.numBits_setBit, hm₀]
  have hbit : ∀ s < NumSectors, m₂.bit s = true ↔ s = 0 ∨ s = 1 := by
    intro s hs
    rw [hm₂, BitMap.bit_setBit, BitMap.bit_setBit, hclear s hs]
    simp only [Bool.or_false, Bool.or_eq_true, decide_eq_true_eq]
    exact or_comm
  have hfree : ∀ s, 2 ≤ s → s < NumSectors → m₂.bit s = false := by
    intro s h2 hs
    have := (hbit s hs).not.mpr (by omega)
    simpa using this
  rw [Prog.wp_do]
  refine wp_allocateOrFail (i := 2) (by decide) (by rw [hbits]; decide) ⟨by rw [hbits]; decide, ?_⟩ ?_
  · intro j hj
    have hj' : j < 1 := hj
    exact hfree _ (by omega) (lt_of_lt_of_le (show 2 + j < 3 by omega) (by decide))
  intro mapHdr m₃ ml hlen₀ hl₀ ht₀
  -- the directory has room on the other half of the disk
  obtain ⟨a, rfl⟩ := List.length_eq_one_iff.mp hlen₀
  obtain ⟨i, hi, hi', hrun⟩ : ∃ i, 2 ≤ i ∧ i < 1000 ∧ ∀ j < 2, m₃.bit (i + j) = false := by
    have hm₃ : ∀ s, 2 ≤ s → s < NumSectors → s ≠ a → m₃.bit s = false := by
      intro s h2 hs ha
      rw [ht₀.bit, hfree s h2 hs]
      simp [ha]
    by_cases ha : a < 512
    · exact ⟨512, by omega, by omega, fun j hj => hm₃ _ (by omega)
        (lt_of_lt_of_le (show 512 + j < 514 by omega) (by decide)) (by omega)⟩
    · exact ⟨2, le_rfl, by omega, fun j hj => hm₃ _ (by omega)
        (lt_of_lt_of_le (show 2 + j < 4 by omega) (by decide)) (by omega)⟩
  have hbits₃ : m₃.numBits = NumSectors := ht₀.numBits.trans hbits
  have hlt : i + 2 ≤ m₃.numBits := by
    rw [hbits₃]
    exact (show i + 2 ≤ 1024 by omega)
  have hclear₃ : m₃.ClearRun i (FileHeader.sectorsFor DirectoryFileSize) := ⟨hlt, hrun⟩
  simp only [Prog.wp_do]
  refine wp_allocateOrFail (by decide) (by omega) hclear₃ ?_
  intro dirHdr m₄ dl hlen₁ hl₁ ht₁
  refine FileHeader.wp_writeBack (s := 0) (by decide) fun t₀ => ?_
  refine FileHeader.wp_writeBack (s := 1) (by decide) fun t₁ => ?_
  refine wp_openFile_new (s := 0) (by decide) fun fm _ _ hsm => ?_
  refine wp_openFile_new (s := 1) (by decide) fun fd _ _ hsd => ?_
  have hs₀ : FileHeader.Short { mapHdr with lastModifyTime := t₀, hdrSector := int (0 : ℕ) }
      FreeMapFileSize [a] :=
    FileHeader.Lists.short_of_takes ⟨hl₀.numBytes, hl₀.numSectors, hl₀.sectors⟩ ht₀ hbits hlen₀
      (by decide)
  have hs₁ : FileHeader.Short { dirHdr with lastModifyTime := t₁, hdrSector := int (1 : ℕ) }
      DirectoryFileSize dl :=
    FileHeader.Lists.short_of_takes ⟨hl₁.numBytes, hl₁.numSectors, hl₁.sectors⟩ ht₁ hbits₃ hlen₁
      (by decide)
  -- the handles have read the headers just written
  rw [Disk.header, Int.toNat_natCast, Function.update_of_ne (by decide), Function.update_self,
    FileHeader.ofSector_toSector] at hsm
  rw [Disk.header, Int.toNat_natCast, Function.update_self, FileHeader.ofSector_toSector] at hsd
  have hdisj : ∀ s ∈ [a], s ∉ dl := by
    intro s hs hd
    have := (ht₁.free s hd).2
    rw [ht₀.bit, decide_eq_true hs] at this
    cases this
  simp only [Prog.wp_pure]
  refine wp_writeBack_freeMap_directory (ht₁.numBits.trans hbits₃) hsz (hs₀.congr hsm.symm)
    (hs₁.congr hsd.symm) (fun fm' fd' d' hsm' hsd' S => ?_) hdisj
  exact Valid.formatted hbits hbit ht₀ ht₁ hs₀ hs₁ rfl rfl hempty S (hsm'.trans hsm) (hsd'.trans hsd)

/-! ### A disk with files -/

/-- The first entries of the directory have files with these names, and at most `n` sectors are in
use. -/
structure Filled (fs : FileSystem) (d : Disk) (o : Ownership Disk.Owner ℕ) (names : List (List Byte))
    (n : ℕ) : Prop where
  valid : fs.Valid d o
  inUse : ∀ j, d.InUse j ↔ (j : ℕ) < names.length
  key : ∀ j : Fin NumDirEntries, d.InUse j → Directory.key (d.directory.nameOf j) ∈ names
  held : ∃ l : List ℕ, (∀ s, o.Held s → s ∈ l) ∧ l.length ≤ n

section

variable {names : List (List Byte)} {n : ℕ} (name : Buf) (size : ℕ) (hname : Directory.key name ∉ names)
  (hentries : names.length < NumDirEntries) (hlt : n < NumSectors)
  (hsectors : (n + 2) * FileHeader.sectorsFor size ≤ NumSectors)

include hname hentries hlt hsectors

theorem Filled.room (h : Filled fs d o names n) : Room d o name size where
  name := by
    cases hindex : d.directory.findIndex name with
    | none => rfl
    | some i =>
      obtain ⟨hi, huse, hkey⟩ := Directory.findIndex_some hindex
      exact absurd (hkey ▸ h.key ⟨i, hi⟩ huse) hname
  entry := ⟨⟨names.length, hentries⟩, fun huse => lt_irrefl _ ((h.inUse _).1 huse)⟩
  sectors := by
    obtain ⟨l, hl, hle⟩ := h.held
    exact ⟨l, hl, hle.trans_lt hlt, (Nat.mul_le_mul_right _ (by omega)).trans hsectors⟩

/-- `Create` fills the next entry. -/
theorem Filled.create (h : Filled fs d o names n) (hsize : FileHeader.sectorsFor size ≤ NumDirect) :
    ∃ fs' d' o' sector l, (fs.create name size).Yields d (true, fs') d' ∧
      Filled fs' d' o' (Directory.key name :: names) (n + 1 + FileHeader.sectorsFor size) ∧
      Created d o name size ⟨names.length, hentries⟩ sector l d' o' := by
  have hroom := h.room name size hname hentries hlt hsectors
  have hwp : (fs.create name size).wp False (fun r d' => ∃ o' i sector l, r.1 = true ∧
      r.2.Valid d' o' ∧ Created d o name size i sector l d' o') d :=
    wp_create_cases h.valid hsize (fun _ hno => absurd hroom hno) (fun hno => hno hroom)
      fun _ _ o' i sector l _ hv' C => ⟨o', i, sector, l, rfl, hv', C⟩
  obtain ⟨⟨_, fs'⟩, d', hrun, o', i, sector, l, rfl, hv', C⟩ := Prog.exists_yields_of_wp hwp
  obtain rfl : i = ⟨names.length, hentries⟩ := by
    refine Fin.ext (le_antisymm (not_lt.1 fun hi => ?_) (not_lt.1 fun hi => ?_))
    · exact lt_irrefl _ ((h.inUse _).1 (C.first ⟨names.length, hentries⟩ hi))
    · exact (h.inUse i).2 hi C.unused
  refine ⟨fs', d', o', sector, l, hrun, ⟨hv', fun j => ?_, fun j hj => ?_, ?_⟩, C⟩
  · rw [Disk.InUse, C.table j, List.length_cons]
    by_cases hji : (j : ℕ) = names.length
    · rw [hji, (d.directory.addAt_self _ name sector).1]
      exact iff_of_true (by decide) (Nat.lt_succ_self _)
    · rw [Directory.addAt_of_ne hji]
      exact (h.inUse j).trans (by omega)
  · rw [Disk.InUse, C.table j] at hj
    have hnameOf : (Disk.directory d').nameOf j = (d.directory.addAt names.length name sector).nameOf j := by
      unfold Directory.nameOf
      rw [C.table j]
    rw [hnameOf]
    by_cases hji : (j : ℕ) = names.length
    · rw [hji, Directory.key_addAt]
      exact List.mem_cons_self
    · rw [Directory.addAt_of_ne hji] at hj
      rw [Directory.nameOf_addAt_of_ne hji]
      exact List.mem_cons_of_mem _ (h.key j hj)
  · obtain ⟨used, hused, hle⟩ := h.held
    refine ⟨(sector :: l) ++ used, fun s hs => List.mem_append.2 ?_, ?_⟩
    · exact ((C.held_iff h.valid s).1 hs).symm.imp_right (hused s)
    · rw [List.length_append, List.length_cons, C.length]
      omega

end

/-- A disk with two empty files, which the file system has created. -/
theorem exists_twoFiles : ∃ fs d o s t, system.Reachable (fs, d) ∧
    Filled fs d o [Directory.key fun _ => 66, Directory.key fun _ => 65] 7 ∧
    o.own (.entry 0) = [s] ∧ o.own (.entry 1) = [t] := by
  have hwp : format.wp False (fun fs d' => ∃ o, fs.Valid d' o ∧ ∀ i, o.own (.entry i) = [])
      FileHeader.blank := wp_format
  obtain ⟨fs, d, hformat, o, hv, hempty⟩ := Prog.exists_yields_of_wp hwp
  obtain ⟨ml, hml, hms⟩ := hv.holds.mapFile
  obtain ⟨dl, hdl, hds⟩ := hv.holds.dirFile
  have hlen₀ : ml.length = 1 := hms.length
  have hlen₁ : dl.length = 2 := hds.length
  have hunused : ∀ j, ¬ Disk.InUse d j := by
    intro j huse
    rw [Disk.InUse] at huse
    have hsec := hv.holds.sectors (.entry j)
    rw [hempty, List.map_nil, Disk.sectorsOf, Disk.headerSector, if_pos huse] at hsec
    cases hsec
  have hfilled : Filled fs d o [] 5 := by
    refine ⟨hv, fun j => iff_of_false (hunused j) (Nat.not_lt_zero _),
      fun j huse => absurd huse (hunused j), 0 :: ml ++ 1 :: dl, ?_, by simp [hlen₀, hlen₁]⟩
    rintro x ⟨w, hx⟩
    rw [List.mem_append]
    cases w with
    | freeMap => exact Or.inl (hml ▸ hx)
    | directory => exact Or.inr (hdl ▸ hx)
    | entry i =>
      rw [hempty i] at hx
      cases hx
  obtain ⟨fs₁, d₁, o₁, s, l₁, hrun₁, hfilled₁, C₁⟩ := hfilled.create (fun _ => 65) 0
    (by simp) (by decide) (by decide) (by decide) (by decide)
  obtain ⟨fs₂, d₂, o₂, t, l₂, hrun₂, hfilled₂, C₂⟩ := hfilled₁.create (fun _ => 66) 0
    (by decide) (by decide) (by decide) (by decide) (by decide)
  have hreach : system.Reachable (fs, d) := .of_init ⟨FileHeader.blank, hformat⟩
  have hreach₁ : system.Reachable (fs₁, d₁) :=
    hreach.tail (a := .create (fun _ => 65) 0) ⟨by decide, true, hrun₁⟩
  have hreach₂ : system.Reachable (fs₂, d₂) :=
    hreach₁.tail (a := .create (fun _ => 66) 0) ⟨by decide, true, hrun₂⟩
  refine ⟨fs₂, d₂, o₂, s, t, hreach₂, hfilled₂, ?_, ?_⟩
  · rw [C₂.own_of_ne _ (by decide), ← List.length_eq_zero_iff.1 C₁.length]
    exact C₁.own_self
  · rw [← List.length_eq_zero_iff.1 C₂.length]
    exact C₂.own_self

/-- A consistent disk with two empty files. -/
theorem exists_files : ∃ (d : Disk) (o : Ownership Disk.Owner ℕ) (s t : ℕ), d.Holds o ∧
    o.own (.entry 0) = [s] ∧ o.own (.entry 1) = [t] ∧ 1000 ≤ d.freeMap.clears.length := by
  obtain ⟨fs, d, o, s, t, -, hfilled, hs, ht⟩ := exists_twoFiles
  obtain ⟨l, hl, hle⟩ := hfilled.held
  have hclears := hfilled.valid.holds.le_length_clears hl
  refine ⟨d, o, s, t, hfilled.valid.holds, hs, ht, ?_⟩
  simp only [NumSectors, SectorsPerTrack, NumTracks] at hclears
  omega

/-! ### Runs -/

theorem Valid.of_reachable {st : FileSystem × Disk} (h : system.Reachable st) :
    ∃ o, st.1.Valid st.2 o := by
  have hinit : ∀ st, system.init st → ∃ o, st.1.Valid st.2 o := by
    rintro st ⟨initial, hrun⟩
    obtain ⟨o, hv, -⟩ := hrun.of_wp wp_format
    exact ⟨o, hv⟩
  refine h.invariant hinit ?_
  rintro st (⟨name, size⟩ | ⟨name⟩) st' ⟨o, hv⟩ hstep
  · obtain ⟨⟨h0, hmax⟩, ok, hrun⟩ := hstep
    obtain ⟨n, rfl⟩ := Int.eq_ofNat_of_zero_le h0
    have hsize : FileHeader.sectorsFor n ≤ NumDirect := by
      have hmax' : n ≤ 26 * 128 := by exact_mod_cast hmax
      simp only [FileHeader.sectorsFor, SectorSize, NumDirect]
      omega
    have hwp : (st.1.create name n).wp True (fun r d' => ∃ o', r.2.Valid d' o') st.2 := by
      apply wp_create_cases hv hsize
      · intro fs' _ hv'
        exact ⟨o, hv'⟩
      · exact fun _ => trivial
      · intro fs' d' o' i sector l _ hv' _
        exact ⟨o', hv'⟩
    exact hrun.of_wp hwp
  · obtain ⟨ok, hrun⟩ := hstep
    have hwp : (st.1.remove name).wp True (fun r d' => ∃ o', r.2.Valid d' o') st.2 := by
      apply wp_remove_cases hv
      · intro fs' _ hv'
        exact ⟨o, hv'⟩
      · intro fs' d' o' i _ hv' _
        exact ⟨o', hv'⟩
    exact hrun.of_wp hwp

/-- **Consistency over whole runs**: after formatting, and after any sequence of `Create`s of files of
at most 26 sectors and `Remove`s, the stored free map marks exactly the sectors in use, which are in
range and pairwise distinct. -/
theorem consistent_of_reachable {st : FileSystem × Disk} (h : system.Reachable st) :
    st.2.Consistent := by
  obtain ⟨o, hv⟩ := Valid.of_reachable h
  exact hv.holds.consistent

/-- A file of three sectors has been created beside two others, and removed. -/
theorem consistent_of_reachable_removed : ∃ st st₁ st₂ : FileSystem × Disk, st.2.InUse 0 ∧ st.2.InUse 1 ∧
    (st.1.create (fun _ => 67) 300).Yields st.2 (true, st₁.1) st₁.2 ∧
    (st₁.1.remove fun _ => 67).Yields st₁.2 (true, st₂.1) st₂.2 ∧ system.Reachable st₂ ∧
    st₁.2.Consistent ∧ st₂.2.Consistent := by
  obtain ⟨fs, d, o, s, t, hreach, hfilled, -⟩ := exists_twoFiles
  have hnew : Directory.key (fun _ => 67) ∉ [Directory.key fun _ => 66, Directory.key fun _ => 65] := by
    decide
  obtain ⟨fs₁, d₁, o₁, sector, l, hrun₁, hfilled₁, C⟩ := hfilled.create _ 300 hnew (by decide)
    (by decide) (by decide) (by decide)
  have hindex := C.findIndex_eq (hfilled.room _ 300 hnew (by decide) (by decide) (by decide)).name
  have hwp : (fs₁.remove fun _ => 67).wp False (fun r _ => r.1 = true) d₁ := by
    apply wp_remove_cases hfilled₁.valid
    · intro _ hnone
      rw [hindex] at hnone
      cases hnone
    · exact fun _ _ _ _ _ _ _ => rfl
  obtain ⟨⟨_, fs₂⟩, d₂, hrun₂, rfl⟩ := Prog.exists_yields_of_wp hwp
  have hreach₁ : system.Reachable (fs₁, d₁) :=
    hreach.tail (a := .create (fun _ => 67) 300) ⟨by decide, true, hrun₁⟩
  have hreach₂ : system.Reachable (fs₂, d₂) := hreach₁.tail (a := .remove fun _ => 67) ⟨true, hrun₂⟩
  exact ⟨(fs, d), (fs₁, d₁), (fs₂, d₂), (hfilled.inUse 0).2 (by decide), (hfilled.inUse 1).2 (by decide),
    hrun₁, hrun₂, hreach₂, consistent_of_reachable hreach₁, consistent_of_reachable hreach₂⟩

end FileSystem

end Nachos
