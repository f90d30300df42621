import Nachos.Filesys.Equiv.FileHeader
import Nachos.Filesys.FileSystem
import Nachos.Lib.Transition

/-!
# What the disk holds

Everything the file system knows is on the disk: the header of the free map is in sector 0, that of
the directory in sector 1, and the directory has the header sectors of the other files.  `sectorsOf`
reads off the sectors of each file, and `Consistent` is the property that ties these structures
together: the stored free map marks exactly the sectors in use, and no sector is used twice.
-/

namespace Nachos

open Storage Memory

/-- All sectors a header lists: the data sectors and, for a file of more than 26, the sector of the
second-level table. -/
def FileHeader.listed (h : FileHeader) (d : Disk) : List ℤ :=
  if h.numSectors.toNat ≤ NumDirect then h.table.take h.numSectors.toNat
  else h.table ++ (List.range (h.numSectors.toNat - (NumDirect - 1))).map fun j =>
    (Layout.decodeArray (d (h.dataSectors 25).toInt.toNat).bytes j : CInt).toInt

/-- The bytes of the file with header `h`, in the sectors `Allocate` has chosen. -/
def FileHeader.content (h : FileHeader) (d : Disk) : Buf := fun p =>
  (d (h.block d h.numSectors.toNat (p / SectorSize)).toNat).bytes (p % SectorSize)

namespace Disk

/-- The header in sector `s`. -/
def header (d : Disk) (s : ℤ) : FileHeader := .ofSector (d s.toNat)

/-- The free map as it is stored. -/
def freeMap (d : Disk) : BitMap :=
  ⟨NumSectors, Layout.decodeArray ((d.header FreeMapSector).content d)⟩

/-- The directory as it is stored. -/
def directory (d : Disk) : Directory :=
  ⟨NumDirEntries, Layout.decodeArray ((d.header DirectorySector).content d)⟩

/-- The files that sectors can belong to. -/
inductive Owner where
  | freeMap
  | directory
  | entry (i : Fin NumDirEntries)
  deriving DecidableEq

def owners : List Owner := .freeMap :: .directory :: (List.finRange NumDirEntries).map .entry

/-- The sector of the header of a file. -/
def headerSector (d : Disk) : Owner → Option ℤ
  | .freeMap => some FreeMapSector
  | .directory => some DirectorySector
  | .entry i => if (d.directory.table i).inUse ≠ 0 then some (d.directory.table i).sector.toInt
    else none

/-- The sectors of a file: that of its header and those the header lists. -/
def sectorsOf (d : Disk) (w : Owner) : List ℤ :=
  (d.headerSector w).elim [] fun s => s :: (d.header s).listed d

/-- **Consistency**: the sectors in use are in range and pairwise distinct, and the stored free map
marks exactly these. -/
structure Consistent (d : Disk) : Prop where
  inRange : ∀ s ∈ owners.flatMap d.sectorsOf, InRange s
  nodup : (owners.flatMap d.sectorsOf).Nodup
  marked : ∀ s < NumSectors, d.freeMap.bit s = true ↔ (s : ℤ) ∈ owners.flatMap d.sectorsOf

/-! ### What `Create` and `Remove` should do -/

/-- The entry `j` of the directory names a file. -/
def InUse (d : Disk) (j : Fin NumDirEntries) : Prop := (d.directory.table j).inUse ≠ 0

/-- The entry, the header and the data of the file `j` are the same on both disks. -/
def SameEntry (d d' : Disk) (j : Fin NumDirEntries) : Prop :=
  d'.directory.table j = d.directory.table j ∧
    ∀ s ∈ d.sectorsOf (.entry j), d' s.toNat = d s.toNat

/-- The file `name` is there, with `size` bytes, in sectors that were free and are now marked, and all
files that were there before are the same. -/
structure AfterCreate (d : Disk) (name : Buf) (size : ℕ) (d' : Disk) : Prop where
  added : ∃ (i : Fin NumDirEntries) (sector : ℕ) (l : List ℕ),
    d'.directory.findIndex name = some (i : ℕ) ∧ d'.directory.find name = sector ∧
    (d'.header sector).fileLength = size ∧ (d'.header sector).listed d' = l.map Int.ofNat ∧
    l.length = FileHeader.sectorsFor size ∧ (sector :: l).Nodup ∧
    (∀ s ∈ sector :: l, s < NumSectors ∧ d.freeMap.bit s = false) ∧
    ∀ s < NumSectors, d'.freeMap.bit s = true ↔ d.freeMap.bit s = true ∨ s ∈ sector :: l
  others : ∀ j, d.InUse j → d.SameEntry d' j

/-- The file `name` is gone, its header and data sectors and no others are free again, and all other
files are the same. -/
def AfterRemove (d : Disk) (name : Buf) (d' : Disk) : Prop :=
  ∃ i : Fin NumDirEntries, d.directory.findIndex name = some (i : ℕ) ∧ ¬ d'.InUse i ∧
    (∀ s < NumSectors, d'.freeMap.bit s = true ↔
      d.freeMap.bit s = true ∧ (s : ℤ) ∉ d.sectorsOf (.entry i)) ∧
    ∀ j, j ≠ i → d.InUse j → d.SameEntry d' j

/-- The same sectors are free, and the same files are there. -/
structure Restored (d d' : Disk) : Prop where
  freeMap : ∀ s < NumSectors, d'.freeMap.bit s = d.freeMap.bit s
  inUse : ∀ j, d'.InUse j ↔ d.InUse j
  files : ∀ j, d.InUse j → d.SameEntry d' j

end Disk

namespace FileSystem

inductive Call where
  | create (name : Buf) (size : ℤ)
  | remove (name : Buf)

/-- A formatted disk on which files of at most 26 sectors are created and removed; `initial` is what
the disk holds before it is formatted. -/
def system : Transition.System (FileSystem × Disk) Call where
  init st := ∃ initial, format.Yields initial st.1 st.2
  step st c st' :=
    match c with
    | .create name size => (0 ≤ size ∧ size ≤ (NumDirect * SectorSize : ℕ)) ∧
      ∃ ok, (st.1.create name size).Yields st.2 (ok, st'.1) st'.2
    | .remove name => ∃ ok, (st.1.remove name).Yields st.2 (ok, st'.1) st'.2

end FileSystem

end Nachos
