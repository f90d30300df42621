import Nachos.Filesys.Equiv.WholeFile
import Nachos.Lib.Ownership

/-!
## The disk as a set of files with disjoint sectors

`Holds d o` says that the files on the disk `d` have the sectors that `o` gives to them, and that the
stored free map marks what `o` holds.  An operation on one file keeps `Holds` when it leaves the
headers of the other files alone and records in the free map what the file has gained or lost
(`Holds.change`).
-/

namespace Nachos

open Storage Memory

namespace FileHeader

variable {h : FileHeader} {d d' : Disk} {size : ℕ} {l : List ℕ}

/-- A header of its own file: it knows its sector, and its sectors suffice for its bytes. -/
structure WellFormed (h : FileHeader) (s : ℤ) : Prop where
  hdrSector : h.hdrSector = int s
  nonneg : 0 ≤ h.numBytes.toInt
  numSectors : h.numSectors = int (sectorsFor h.numBytes.toInt.toNat : ℕ)
  capacity : sectorsFor h.numBytes.toInt.toNat ≤ 57

theorem Lists.wellFormed {s : ℤ} (hl : h.Lists size l) (hlen : l.length = sectorsFor size)
    (hcap : sectorsFor size ≤ 57) (hs : h.hdrSector = int s) : h.WellFormed s := by
  have hsize : size < 2 ^ 31 := by
    simp only [sectorsFor, SectorSize] at hcap
    omega
  have hnum : h.numBytes.toInt = size := by rw [hl.numBytes, toInt_int_natCast hsize]
  refine ⟨hs, ?_, ?_, ?_⟩
  · rw [hnum]
    exact Int.natCast_nonneg size
  · rw [hnum, Int.toNat_natCast, hl.numSectors, hlen]
  · rw [hnum, Int.toNat_natCast]
    exact hcap

theorem Short.wellFormed {s : ℤ} (hl : h.Short size l) (hs : h.hdrSector = int s) :
    h.WellFormed s :=
  hl.toLists.wellFormed hl.length (by have := hl.length; have := hl.short; omega) hs

theorem length_table (h : FileHeader) : h.table.length = NumDirect := by simp [table]

theorem getElem_table (h : FileHeader) {i : ℕ} (hi : i < h.table.length) :
    h.table[i] = (h.dataSectors (Fin.ofNat NumDirect i)).toInt := by
  have hi' : i < 26 := by rwa [length_table] at hi
  simp [table, Fin.ofNat, Nat.mod_eq_of_lt hi']

/-- What a header lists depends on its table and on the second-level table. -/
theorem listed_congr {h' : FileHeader} (hnum : h'.numSectors = h.numSectors)
    (hdata : h'.dataSectors = h.dataSectors) (hindex : NumDirect < h.numSectors.toNat →
      d' (h.dataSectors 25).toInt.toNat = d (h.dataSectors 25).toInt.toNat) :
    h'.listed d' = h.listed d := by
  unfold listed table
  rw [hnum, hdata]
  split_ifs with hn
  · rfl
  · rw [hindex (by omega)]

/-- What a short table lists. -/
theorem Lists.listed_eq (hl : h.Lists size l) (hlen : l.length ≤ NumDirect)
    (hrange : ∀ s ∈ l, s < NumSectors) : h.listed d = l.map Int.ofNat := by
  have hn : h.numSectors.toNat = l.length := by
    rw [hl.numSectors, toNat_int_natCast (hlen.trans_lt (by decide))]
  rw [listed, hn, if_pos hlen]
  refine List.ext_getElem ?_ fun i h1 h2 => ?_
  · rw [List.length_take, length_table, List.length_map]
    omega
  · have hi : i < l.length := by rwa [List.length_map] at h2
    rw [List.getElem_take, getElem_table, hl.sectors i hi, List.getElem_map, List.get_eq_getElem]
    exact toInt_int_natCast ((hrange _ (l.getElem_mem hi)).trans (by decide))

theorem Lists.of_listed (hn : h.numSectors.toNat ≤ NumDirect) (hb : h.numBytes = int size)
    (hl : h.listed d = l.map Int.ofNat) : h.Lists size l := by
  rw [listed, if_pos hn] at hl
  have hlen : l.length = h.numSectors.toNat := by
    have := congrArg List.length hl
    rw [List.length_take, length_table, List.length_map] at this
    omega
  refine ⟨hb, ?_, fun i hi => ?_⟩
  · rw [hlen, int, BitVec.ofInt_natCast, BitVec.ofNat_toNat, BitVec.setWidth_eq]
  · have hget : (h.table.take h.numSectors.toNat)[i]? = (l.map Int.ofNat)[i]? := by rw [hl]
    have hi' : i < (h.table.take h.numSectors.toNat).length := by
      rw [List.length_take, length_table]
      omega
    rw [List.getElem?_eq_getElem hi', List.getElem?_eq_getElem (by rwa [List.length_map]),
      List.getElem_take, getElem_table, List.getElem_map, Option.some.injEq] at hget
    rw [← int_toInt (h.dataSectors _), hget]
    rfl

end FileHeader

/-- A file's bytes depend on its own sectors. -/
theorem flat_congr {d d' : Disk} {l : List ℕ} (h : ∀ s ∈ l, d' s = d s) {k : ℕ}
    (hk : k / SectorSize < l.length) : flat d' (l.getD · 0) k = flat d (l.getD · 0) k := by
  rw [flat, flat, List.getD_eq_getElem _ _ hk, h _ (l.getElem_mem hk)]

namespace Disk

variable {d d' : Disk} {o o' : Ownership Owner ℕ} {l : List ℕ}

theorem bit_freeMap (hl : (d.header FreeMapSector).Short FreeMapFileSize l) {s : ℕ}
    (hs : s < NumSectors) : d.freeMap.bit s = (flat d (l.getD · 0) (s / 8)).getLsbD (s % 8) := by
  have hs8 : s / 8 < FreeMapFileSize := by
    simp only [FreeMapFileSize, NumSectors, SectorsPerTrack, NumTracks, BitsInByte] at *
    omega
  rw [freeMap, BitMap.bit_decodeArray, hl.content_eq hs8]

theorem table_directory (hl : (d.header DirectorySector).Short DirectoryFileSize l) {i : ℕ}
    (hi : i < NumDirEntries) :
    d.directory.table i = Layout.decodeArray (flat d (l.getD · 0)) i :=
  Directory.decodeArray_congr_table (fun _ hk => hl.content_eq hk) hi

/-- The files on the disk have the sectors of `o`. -/
structure Arranged (d : Disk) (o : Ownership Owner ℕ) : Prop where
  sectors : ∀ w, d.sectorsOf w = (o.own w).map Int.ofNat
  range : ∀ s, o.Held s → s < NumSectors
  wellFormed : ∀ w s, d.headerSector w = some s → (d.header s).WellFormed s
  mapSize : (d.header FreeMapSector).numBytes = int (FreeMapFileSize : ℕ)
  dirSize : (d.header DirectorySector).numBytes = int (DirectoryFileSize : ℕ)

/-- The files on the disk have the sectors of `o`, and these are marked. -/
structure Holds (d : Disk) (o : Ownership Owner ℕ) : Prop extends Arranged d o where
  marked : ∀ s < NumSectors, d.freeMap.bit s = true ↔ o.Held s

theorem mem_owners (w : Owner) : w ∈ owners := by
  cases w <;> simp [owners]

theorem nodup_owners : owners.Nodup := by decide

theorem Arranged.flatMap_sectorsOf (H : d.Arranged o) :
    owners.flatMap d.sectorsOf = (owners.flatMap o.own).map Int.ofNat := by
  rw [List.map_flatMap]
  exact congrArg (List.flatMap · owners) (funext H.sectors)

/-- No sector is listed twice. -/
theorem Arranged.nodup (H : d.Arranged o) : (owners.flatMap d.sectorsOf).Nodup := by
  rw [H.flatMap_sectorsOf]
  exact (Ownership.nodup_flatMap nodup_owners).map fun a b hab => Int.ofNat.inj hab

theorem Arranged.mem_sectorsOf (H : d.Arranged o) (s : ℕ) :
    (s : ℤ) ∈ owners.flatMap d.sectorsOf ↔ o.Held s := by
  rw [H.flatMap_sectorsOf]
  constructor
  · intro hs
    obtain ⟨s', hs', heq⟩ := List.mem_map.mp hs
    obtain rfl : s' = s := Int.ofNat.inj heq
    obtain ⟨w, -, hw⟩ := List.mem_flatMap.mp hs'
    exact ⟨w, hw⟩
  · rintro ⟨w, hw⟩
    exact List.mem_map.mpr ⟨s, List.mem_flatMap.mpr ⟨w, mem_owners w, hw⟩, rfl⟩

/-- A disk whose files have disjoint sectors is consistent. -/
theorem Holds.consistent (H : d.Holds o) : d.Consistent := by
  refine ⟨fun s hs => ?_, H.nodup, fun s hs => (H.marked s hs).trans (H.mem_sectorsOf s).symm⟩
  obtain ⟨s', -, rfl⟩ := List.mem_map.mp (H.flatMap_sectorsOf ▸ hs)
  exact ⟨Int.natCast_nonneg s', Int.ofNat_lt.mpr (H.range s' ((H.mem_sectorsOf s').mp hs))⟩

/-! ### The files of the file system itself -/

theorem Arranged.own_eq (H : d.Arranged o) {w : Owner} {s : ℤ} (hs : d.headerSector w = some s) :
    ∃ (t : ℕ) (l : List ℕ), s = t ∧ o.own w = t :: l ∧ t < NumSectors ∧
      (d.header t).listed d = l.map Int.ofNat := by
  have hsec := H.sectors w
  rw [sectorsOf, hs, Option.elim_some] at hsec
  obtain ⟨t, l, hown, rfl, hl⟩ := List.map_eq_cons_iff.mp hsec.symm
  exact ⟨t, l, rfl, hown, H.range t ⟨w, by rw [hown]; exact List.mem_cons_self⟩, hl.symm⟩

theorem Arranged.lists (H : d.Arranged o) {w : Owner} {t : ℕ} {l : List ℕ}
    (hs : d.headerSector w = some (t : ℤ)) (hown : o.own w = t :: l)
    (hn : (d.header t).numSectors.toNat ≤ NumDirect) :
    (d.header t).Lists (d.header t).numBytes.toInt.toNat l ∧
      l.length = FileHeader.sectorsFor (d.header t).numBytes.toInt.toNat := by
  have hwf := H.wellFormed w t hs
  have hsec := H.sectors w
  rw [sectorsOf, hs, hown, Option.elim_some, List.map_cons, List.cons.injEq] at hsec
  have hb : (d.header t).numBytes = int ((d.header t).numBytes.toInt.toNat : ℕ) := by
    rw [Int.toNat_of_nonneg hwf.nonneg, int_toInt]
  have hl := FileHeader.Lists.of_listed hn hb hsec.2
  refine ⟨hl, ?_⟩
  have hcap := hwf.capacity
  have hlen : (int (l.length : ℕ)).toNat
      = (int (FileHeader.sectorsFor (d.header t).numBytes.toInt.toNat : ℕ)).toNat := by
    rw [← hl.numSectors, ← hwf.numSectors]
  rw [← hl.numSectors] at hlen
  have hlen' : l.length = (d.header t).numSectors.toNat := by
    have := congrArg List.length hsec.2
    rw [FileHeader.listed, if_pos hn, List.length_take, FileHeader.length_table,
      List.length_map] at this
    omega
  rw [hlen', hlen, toNat_int_natCast (by omega)]

/-- The sectors of a file of at most 25 sectors. -/
theorem Arranged.short (H : d.Arranged o) {w : Owner} {t : ℕ} {l : List ℕ} {size : ℕ}
    (hs : d.headerSector w = some (t : ℤ)) (hown : o.own w = t :: l)
    (hsize : (d.header t).numBytes = int size) (h25 : FileHeader.sectorsFor size ≤ 25) :
    (d.header t).Short size l := by
  have hlt : size < 2 ^ 31 := by
    simp only [FileHeader.sectorsFor, SectorSize] at h25
    omega
  have hnat : (d.header t).numBytes.toInt.toNat = size := by
    rw [hsize, toInt_int_natCast hlt, Int.toNat_natCast]
  have hwf := H.wellFormed w t hs
  have hn : (d.header t).numSectors.toNat = FileHeader.sectorsFor size := by
    rw [hwf.numSectors, hnat, toNat_int_natCast (by omega)]
  obtain ⟨hl, hlen⟩ := H.lists hs hown (by rw [hn]; exact h25.trans (by decide))
  rw [hnat] at hl hlen
  have hnodup := o.nodup w
  rw [hown, List.nodup_cons] at hnodup
  refine ⟨hl, hlen, hlen ▸ h25, fun s hs' => H.range s ⟨w, ?_⟩, hnodup.2⟩
  rw [hown]
  exact List.mem_cons_of_mem _ hs'

theorem Arranged.mapFile (H : d.Arranged o) :
    ∃ l, o.own .freeMap = 0 :: l ∧ (d.header FreeMapSector).Short FreeMapFileSize l := by
  obtain ⟨t, l, ht, hown, -, -⟩ := H.own_eq (w := .freeMap) rfl
  obtain rfl : t = 0 := by simpa using ht.symm
  exact ⟨l, hown, H.short rfl hown H.mapSize (by decide)⟩

theorem Arranged.dirFile (H : d.Arranged o) :
    ∃ l, o.own .directory = 1 :: l ∧ (d.header DirectorySector).Short DirectoryFileSize l := by
  obtain ⟨t, l, ht, hown, -, -⟩ := H.own_eq (w := .directory) rfl
  obtain rfl : t = 1 := by
    have : ((1 : ℕ) : ℤ) = (t : ℕ) := ht
    omega
  exact ⟨l, hown, H.short rfl hown H.dirSize (by decide)⟩

/-! ### Changing one file -/

/-- The second-level table is among the sectors of its file. -/
theorem exists_index {h : FileHeader} {l : List ℕ} (hn : NumDirect < h.numSectors.toNat)
    (hl : h.listed d = l.map Int.ofNat) : ∃ t ∈ l, (h.dataSectors 25).toInt = (t : ℕ) := by
  have hmem : (h.dataSectors 25).toInt ∈ l.map Int.ofNat := by
    rw [← hl, FileHeader.listed, if_neg (by omega)]
    exact List.mem_append_left _ (List.mem_map.mpr ⟨25, List.mem_finRange _, rfl⟩)
  obtain ⟨t, ht, heq⟩ := List.mem_map.mp hmem
  exact ⟨t, ht, heq.symm⟩

theorem index_mem {h : FileHeader} {l : List ℕ} (hn : NumDirect < h.numSectors.toNat)
    (hl : h.listed d = l.map Int.ofNat) : (h.dataSectors 25).toInt.toNat ∈ l := by
  obtain ⟨t, ht, heq⟩ := exists_index hn hl
  rwa [heq, Int.toNat_natCast]

/-- The sectors of a file depend on its header and its second-level table. -/
theorem sectorsOf_congr {w : Owner} (hsame : d'.headerSector w = d.headerSector w)
    (hhead : ∀ t, d.headerSector w = some t → d' t.toNat = d t.toNat)
    (hindex : ∀ t, d.headerSector w = some t → NumDirect < (d.header t).numSectors.toNat →
      d' ((d.header t).dataSectors 25).toInt.toNat = d ((d.header t).dataSectors 25).toInt.toNat) :
    d'.sectorsOf w = d.sectorsOf w ∧
      ∀ s, d.headerSector w = some s → d'.header s = d.header s := by
  cases hs : d.headerSector w with
  | none =>
    rw [sectorsOf, sectorsOf, hsame, hs, Option.elim_none, Option.elim_none]
    exact ⟨rfl, fun s h => absurd h (by simp)⟩
  | some t =>
    have heq : d'.header t = d.header t := by rw [header, header, hhead t hs]
    constructor
    · rw [sectorsOf, sectorsOf, hsame, hs, Option.elim_some, Option.elim_some, heq]
      exact congrArg (List.cons _) (FileHeader.listed_congr rfl rfl (hindex t hs))
    · intro s h
      obtain rfl := Option.some.inj h
      exact heq

/-- The files of the file system itself have no second-level table. -/
theorem Arranged.numSectors_le_freeMap (H : d.Arranged o) :
    (d.header FreeMapSector).numSectors.toNat ≤ NumDirect := by
  obtain ⟨l, -, hm⟩ := H.mapFile
  exact hm.numSectors_le

theorem Arranged.numSectors_le_directory (H : d.Arranged o) :
    (d.header DirectorySector).numSectors.toNat ≤ NumDirect := by
  obtain ⟨l, -, hm⟩ := H.dirFile
  exact hm.numSectors_le

/-- The files whose headers are left alone keep their sectors. -/
theorem Arranged.sectorsOf_eq (H : d.Arranged o) {w : Owner}
    (hframe : ∀ s ∈ o.own w, (w = .freeMap → s = 0) → (w = .directory → s = 1) → d' s = d s)
    (hsame : d'.headerSector w = d.headerSector w) :
    d'.sectorsOf w = d.sectorsOf w ∧
      ∀ s, d.headerSector w = some s → d'.header s = d.header s := by
  refine sectorsOf_congr hsame (fun s hs => ?_) fun s hs hn => ?_
  · obtain ⟨t, l, rfl, hown, -, -⟩ := H.own_eq hs
    apply hframe t (by rw [hown]; exact List.mem_cons_self)
    · rintro rfl
      exact Int.ofNat.inj (Option.some.inj hs).symm
    · rintro rfl
      exact Int.ofNat.inj (Option.some.inj hs).symm
  · obtain ⟨t, l, rfl, hown, -, hl⟩ := H.own_eq hs
    apply hframe _ (by rw [hown]; exact List.mem_cons_of_mem _ (index_mem hn hl))
    · rintro rfl
      rw [← Option.some.inj hs] at hn
      exact absurd hn H.numSectors_le_freeMap.not_gt
    · rintro rfl
      rw [← Option.some.inj hs] at hn
      exact absurd hn H.numSectors_le_directory.not_gt

/-- The stored free map depends on the sectors of its file, -/
theorem Arranged.bit_congr (H : d.Arranged o) (hkeep : ∀ x ∈ o.own .freeMap, d' x = d x) :
    d'.header FreeMapSector = d.header FreeMapSector ∧
      ∀ x < NumSectors, d'.freeMap.bit x = d.freeMap.bit x := by
  obtain ⟨ml, hml, hms⟩ := H.mapFile
  rw [hml] at hkeep
  have hhdr : d'.header FreeMapSector = d.header FreeMapSector :=
    congrArg FileHeader.ofSector (hkeep 0 List.mem_cons_self)
  refine ⟨hhdr, fun x hx => ?_⟩
  have hx8 : x / 8 < FreeMapFileSize := by
    simp only [FreeMapFileSize, NumSectors, SectorsPerTrack, NumTracks, BitsInByte] at *
    omega
  rw [bit_freeMap hms hx, bit_freeMap (by rw [hhdr]; exact hms) hx,
    flat_congr (fun y hy => hkeep y (List.mem_cons_of_mem _ hy)) (hms.lt_length ?_)]
  exact lt_of_le_of_lt (Nat.div_mul_le_self _ SectorSize) hx8

/-- and so does the stored directory. -/
theorem Arranged.table_congr (H : d.Arranged o) (hkeep : ∀ x ∈ o.own .directory, d' x = d x) :
    d'.header DirectorySector = d.header DirectorySector ∧
      ∀ j < NumDirEntries, d'.directory.table j = d.directory.table j := by
  obtain ⟨dl, hdl, hds⟩ := H.dirFile
  rw [hdl] at hkeep
  have hhdr : d'.header DirectorySector = d.header DirectorySector :=
    congrArg FileHeader.ofSector (hkeep 1 List.mem_cons_self)
  refine ⟨hhdr, fun j hj => ?_⟩
  rw [table_directory hds hj, table_directory (by rw [hhdr]; exact hds) hj]
  refine Directory.decodeArray_congr_table (fun k hk => ?_) hj
  refine flat_congr (fun y hy => hkeep y (List.mem_cons_of_mem _ hy)) (hds.lt_length ?_)
  exact lt_of_le_of_lt (Nat.div_mul_le_self k SectorSize) hk

/-- The sectors outside a list of all that are held are clear. -/
theorem Holds.le_length_clears (H : d.Holds o) {l : List ℕ} (hl : ∀ s, o.Held s → s ∈ l) :
    NumSectors ≤ d.freeMap.clears.length + l.length := by
  have hsub : (List.range NumSectors).Subperm (d.freeMap.clears ++ l) := by
    refine List.subperm_of_subset List.nodup_range fun s hs => ?_
    have hlt := List.mem_range.mp hs
    by_cases hheld : o.Held s
    · exact List.mem_append_right _ (hl s hheld)
    · rw [← H.marked s hlt, Bool.not_eq_true] at hheld
      exact List.mem_append_left _ (BitMap.mem_clears.mpr ⟨hlt, hheld⟩)
  have hle := hsub.length_le
  rwa [List.length_range, List.length_append] at hle

/-- An operation on the file of entry `i` of the directory. -/
theorem Arranged.change (H : d.Arranged o) {i : Fin NumDirEntries}
    (hown : ∀ w, w ≠ .entry i → o'.own w = o.own w)
    (hframe : ∀ w s, w ≠ .entry i → s ∈ o.own w → (w = .freeMap → s = 0) →
      (w = .directory → s = 1) → d' s = d s)
    (htable : ∀ j : Fin NumDirEntries, j ≠ i → d'.directory.table j = d.directory.table j)
    (hsec : d'.sectorsOf (.entry i) = (o'.own (.entry i)).map Int.ofNat)
    (hwf : ∀ s, d'.headerSector (.entry i) = some s → (d'.header s).WellFormed s)
    (hrange : ∀ s ∈ o'.own (.entry i), s < NumSectors) : d'.Arranged o' := by
  have hsame : ∀ w, w ≠ .entry i → d'.headerSector w = d.headerSector w := by
    intro w hw
    cases w with
    | freeMap => rfl
    | directory => rfl
    | entry j =>
      have hj : j ≠ i := fun h => hw (by rw [h])
      rw [headerSector, headerSector, htable j hj]
  have hkeep := fun w hw => H.sectorsOf_eq (hframe w · hw) (hsame w hw)
  refine ⟨fun w => ?_, fun s => ?_, fun w s hs => ?_, ?_, ?_⟩
  · by_cases hw : w = .entry i
    · rw [hw, hsec]
    · rw [(hkeep w hw).1, hown w hw, H.sectors]
  · rintro ⟨w, hs⟩
    by_cases hw : w = .entry i
    · exact hrange s (hw ▸ hs)
    · exact H.range s ⟨w, hown w hw ▸ hs⟩
  · by_cases hw : w = .entry i
    · exact hwf s (hw ▸ hs)
    · rw [hsame w hw] at hs
      rw [(hkeep w hw).2 s hs]
      exact H.wellFormed w s hs
  · rw [(hkeep .freeMap (by simp)).2 _ rfl]
    exact H.mapSize
  · rw [(hkeep .directory (by simp)).2 _ rfl]
    exact H.dirSize

/-- A change that leaves the headers, the second-level tables and the directory alone. -/
theorem Arranged.keep (H : d.Arranged o)
    (hframe : ∀ w s, s ∈ o.own w → (w = .freeMap → s = 0) → d' s = d s) :
    d'.Arranged o ∧ ∀ w, d'.headerSector w = d.headerSector w := by
  obtain ⟨-, htable⟩ := H.table_congr fun x hx => hframe .directory x hx (by simp)
  have hsame : ∀ w, d'.headerSector w = d.headerSector w := by
    intro w
    cases w with
    | freeMap => rfl
    | directory => rfl
    | entry j => rw [headerSector, headerSector, htable j j.isLt]
  have hkeep := fun w => H.sectorsOf_eq (fun s hs h0 _ => hframe w s hs h0) (hsame w)
  refine ⟨⟨fun w => (hkeep w).1.trans (H.sectors w), H.range, fun w s hs => ?_, ?_, ?_⟩, hsame⟩
  · rw [hsame w] at hs
    rw [(hkeep w).2 s hs]
    exact H.wellFormed w s hs
  · rw [(hkeep .freeMap).2 _ rfl]
    exact H.mapSize
  · rw [(hkeep .directory).2 _ rfl]
    exact H.dirSize

end Disk

end Nachos
