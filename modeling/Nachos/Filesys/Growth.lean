import Nachos.Filesys.Equiv.WholeFile

/-!
# What a write past the end should do

`Grown` is the specification of a `WriteAt` that extends a file, and `GrowsWell` the condition on the
sizes and sectors under which the code meets it.  Whether it does must not depend on what happens to
be in data sectors and free sectors, so the two are compared for all disks of the same structure.
`Intact` is what is wanted of a `WriteAt` that cannot extend the file for lack of sectors.
-/

namespace Nachos

open Storage Memory

namespace Disk

/-- The sectors that hold structure: the headers, the second-level tables, and the files of the file
system itself. -/
def Structural (d : Disk) (s : ℕ) : Prop :=
  (s : ℤ) ∈ d.sectorsOf .freeMap ∨ (s : ℤ) ∈ d.sectorsOf .directory ∨
    ∃ w t, d.headerSector w = some t ∧ ((s : ℤ) = t ∨
      NumDirect < (d.header t).numSectors.toNat ∧ (s : ℤ) = ((d.header t).dataSectors 25).toInt)

/-- The disks differ in the contents of data sectors and free sectors only. -/
def SameStructure (d d' : Disk) : Prop := ∀ s, d.Structural s → d' s = d s

end Disk

namespace OpenFile

open FileHeader (sectorsFor)

/-- The write of `n` bytes `data` at `pos` has extended the file with header sector `s` to `pos + n`
bytes. -/
structure Grown (d : Disk) (f : OpenFile) (s : ℕ) (data : Buf) (n pos : ℕ) (r : ℤ × OpenFile)
    (d' : Disk) : Prop where
  count : r.1 = n
  length : r.2.length = (pos + n : ℕ)
  stored : (d'.header s).SameFile r.2.hdr
  kept : ∀ p : ℕ, (p : ℤ) < f.length → p < pos →
    (d'.header s).content d' p = (d.header s).content d p
  written : ∀ p, pos ≤ p → p < pos + n → (d'.header s).content d' p = data (p - pos)
  read : ∀ into, (r.2.readAt into n pos).wp False
    (fun a _ => a.1 = (n : ℤ) ∧ ∀ k < n, a.2.1 k = data k) d'
  gained : ∃ added : List ℕ,
    (d'.header s).listed d' = (d.header s).listed d ++ added.map Int.ofNat ∧ added.Nodup ∧
    (∀ x ∈ added, x < NumSectors ∧ d.freeMap.bit x = false) ∧
    ∀ x < NumSectors, d'.freeMap.bit x = true ↔ d.freeMap.bit x = true ∨ x ∈ added

/-- The write at `pos` has not extended the file with header sector `s`, and has done no harm: only the
file's own sectors have changed, neither its header nor the free map has, and the count returned is
that of the bytes below the old end. -/
structure Intact (d : Disk) (f : OpenFile) (s : ℕ) (pos : ℕ) (r : ℤ × OpenFile) (d' : Disk) :
    Prop where
  frame : ∀ x : ℕ, (x : ℤ) ∉ (d.header s).listed d → d' x = d x
  header : d'.header s = d.header s
  freeMap : ∀ x < NumSectors, d'.freeMap.bit x = d.freeMap.bit x
  length : r.2.length = f.length
  count : r.1 = max 0 (f.length - pos)

/-- The write needs no new sector, and finds its blocks: there are at most 25, or they are in a
second-level table, in sectors below 128; or it needs one new sector, and there are at most 25 with
it. -/
def GrowsWell (d : Disk) (h : FileHeader) (len pos n : ℕ) : Prop :=
  sectorsFor (pos + n) = sectorsFor len ∧ (sectorsFor len < NumDirect ∨
      NumDirect < sectorsFor len ∧ ∀ i, 25 ≤ i → pos / SectorSize ≤ i → i * SectorSize < pos + n →
        h.block d (sectorsFor len) i < 128) ∨
    sectorsFor (pos + n) = sectorsFor len + 1 ∧ sectorsFor (pos + n) < NumDirect

end OpenFile

end Nachos
