import Mathlib.Logic.Function.Basic
import Nachos.Threads.Utility

/-!
# The disk (`machine/disk.h`, `machine/disk.cc`)

The contents of the simulated disk: `NumSectors` sectors of `SectorSize` bytes.  Requests for a
sector outside the disk fail the `ASSERT` of `ReadRequest` and `WriteRequest`, which ends the run.
Latency and the completion interrupt do not touch the contents and are not part of this module.
-/

namespace Nachos

abbrev SectorSize : ℕ := 128

abbrev SectorsPerTrack : ℕ := 32

abbrev NumTracks : ℕ := 32

abbrev NumSectors : ℕ := SectorsPerTrack * NumTracks

abbrev Sector := Fin SectorSize → Byte

namespace Sector

/-- The bytes of a sector in memory. -/
def bytes (s : Sector) : Buf := fun k => s (Fin.ofNat SectorSize k)

/-- The sector at an address of memory. -/
def ofBytes (b : Buf) : Sector := fun k => b k

theorem bytes_ofBytes (b : Buf) {k : ℕ} (hk : k < SectorSize) : (ofBytes b).bytes k = b k := by
  show b (k % SectorSize) = b k
  rw [Nat.mod_eq_of_lt hk]

end Sector

/-- The contents of the disk.  Only the sectors below `NumSectors` are ever accessed. -/
abbrev Disk := ℕ → Sector

namespace Disk

/-- The `ASSERT` on the sector number in `ReadRequest` and `WriteRequest`. -/
abbrev InRange (sectorNumber : ℤ) : Prop := 0 ≤ sectorNumber ∧ sectorNumber < NumSectors

def readRequest (disk : Disk) (sectorNumber : ℤ) : Option Sector :=
  if InRange sectorNumber then some (disk sectorNumber.toNat) else none

def writeRequest (disk : Disk) (sectorNumber : ℤ) (data : Sector) : Option Disk :=
  if InRange sectorNumber then some (Function.update disk sectorNumber.toNat data) else none

end Disk

end Nachos
