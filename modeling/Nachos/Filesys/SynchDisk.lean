import Mathlib.Data.List.FinRange
import Nachos.Machine.Disk

/-!
# The synchronous disk and its sector cache (`filesys/synchdisk.cc`)

`ReadSector` keeps the last four sectors it had to fetch in a cache that is replaced in FIFO order.
`WriteSector` goes straight to the disk.  Both run with the lock of the `SynchDisk` held from start
to end, so a sequence of calls, by any threads, is a sequence of the atomic steps below.
-/

namespace Nachos

structure Cache where
  valid : ℤ
  sector : ℤ
  data : Sector

/-- Under this name, so that cache lines are the same terms in all modules. -/
instance neZero_lines : NeZero 4 := inferInstance

structure SynchDisk where
  disk : Disk
  cache : Fin 4 → Cache
  fiFoPointer : Fin 4

namespace SynchDisk

/-- The loop over the cache in `ReadSector`. -/
def find (sd : SynchDisk) (sectorNumber : ℤ) : Option (Fin 4) :=
  (List.finRange 4).find? fun i => (sd.cache i).valid = 1 ∧ (sd.cache i).sector = sectorNumber

/-- Put a sector that was fetched into the cache. -/
def load (sd : SynchDisk) (sectorNumber : ℤ) (data : Sector) : SynchDisk :=
  { sd with
    cache := Function.update sd.cache sd.fiFoPointer ⟨1, sectorNumber, data⟩
    fiFoPointer := sd.fiFoPointer + 1 }

def readSector (sd : SynchDisk) (sectorNumber : ℤ) : Option (Sector × SynchDisk) :=
  match sd.find sectorNumber with
  | none => do
    let data ← sd.disk.readRequest sectorNumber
    return (data, sd.load sectorNumber data)
  | some i => some ((sd.cache i).data, sd)

/-- The cache is neither consulted nor updated. -/
def writeSector (sd : SynchDisk) (sectorNumber : ℤ) (data : Sector) : Option SynchDisk := do
  let disk ← sd.disk.writeRequest sectorNumber data
  return { sd with disk }

/-- A call of `ReadSector` or `WriteSector`. -/
inductive Call where
  | read (sectorNumber : ℤ)
  | write (sectorNumber : ℤ) (data : Sector)

abbrev Call.sector : Call → ℤ
  | read s => s
  | write s _ => s

def call (sd : SynchDisk) : Call → Option SynchDisk
  | .read s => (sd.readSector s).map Prod.snd
  | .write s data => sd.writeSector s data

/-- A sequence of calls; it ends with `none` at a failed `ASSERT`. -/
def calls (sd : SynchDisk) : List Call → Option SynchDisk
  | [] => some sd
  | c :: cs => (sd.call c).bind fun sd' => sd'.calls cs

end SynchDisk

end Nachos
