import Nachos.Lib.Prog
import Nachos.Machine.Disk

/-!
# What file system code does to its environment

The routines of the file system are programs over the sectors of the disk.  Besides sectors they use
the clock and fresh memory, whose contents are arbitrary, and the readers/writers calls of
`SynchDisk`.  A failed `ASSERT`, like an access outside the bounds of an array, ends the run.

A sector read returns what was last written to that sector, which is the contract of `SynchDisk`.
-/

namespace Nachos

open Storage

/-- The calls of `SynchDisk` that guard the file with a given header sector. -/
inductive SyncCall where
  | readerStart (sector : ℤ)
  | readerExit (sector : ℤ)
  | writerStart (sector : ℤ)
  | writerExit (sector : ℤ)
  deriving DecidableEq

abbrev FsProg := Prog ℕ Sector Buf SyncCall

/-- `synchDisk->ReadSector(sectorNumber, data)`. -/
def readSector (sectorNumber : ℤ) : FsProg Sector :=
  if Disk.InRange sectorNumber then .read sectorNumber.toNat .ret else .abort

/-- `synchDisk->WriteSector(sectorNumber, data)`. -/
def writeSector (sectorNumber : ℤ) (data : Sector) : FsProg Unit :=
  if Disk.InRange sectorNumber then .write sectorNumber.toNat data (.ret ()) else .abort

/-- Fresh memory. -/
def newBytes : FsProg Buf := .ask .ret

/-- `time(NULL)`. -/
def time : FsProg CInt := .ask fun b => .ret (Memory.Layout.decode b)

def sync (c : SyncCall) : FsProg Unit := .sync c (.ret ())

section Rules

variable {ab : Prop} {d : Disk}

theorem wp_readSector {Q : Sector → Disk → Prop} {s : ℕ} (hs : s < NumSectors) :
    (readSector s).wp ab Q d ↔ Q (d s) d := by
  have hr : Disk.InRange s := ⟨Int.natCast_nonneg s, Int.ofNat_lt.mpr hs⟩
  rw [readSector, if_pos hr, Prog.wp_read, Prog.wp_ret, Int.toNat_natCast]

theorem wp_writeSector {Q : Unit → Disk → Prop} {s : ℕ} {data : Sector} (hs : s < NumSectors) :
    (writeSector s data).wp ab Q d ↔ Q () (Function.update d s data) := by
  have hr : Disk.InRange s := ⟨Int.natCast_nonneg s, Int.ofNat_lt.mpr hs⟩
  rw [writeSector, if_pos hr, Prog.wp_write, Prog.wp_ret, Int.toNat_natCast]

/-- A read that may fail its `ASSERT`. -/
theorem wp_readSector_partial {Q : Sector → Disk → Prop} {s : ℤ}
    (hQ : Disk.InRange s → Q (d s.toNat) d) : (readSector s).wp True Q d := by
  unfold readSector
  split_ifs with hr
  · rw [Prog.wp_read, Prog.wp_ret]
    exact hQ hr
  · rw [Prog.wp_abort]
    trivial

theorem wp_writeSector_partial {Q : Unit → Disk → Prop} {s : ℤ} {data : Sector}
    (hQ : Disk.InRange s → Q () (Function.update d s.toNat data)) :
    (writeSector s data).wp True Q d := by
  unfold writeSector
  split_ifs with hr
  · rw [Prog.wp_write, Prog.wp_ret]
    exact hQ hr
  · rw [Prog.wp_abort]
    trivial

theorem wp_newBytes {Q : Buf → Disk → Prop} : newBytes.wp ab Q d ↔ ∀ b, Q b d := by
  simp only [newBytes, Prog.wp_ask, Prog.wp_ret]

theorem wp_time {Q : CInt → Disk → Prop} (h : ∀ t, Q t d) : time.wp ab Q d := by
  simp only [time, Prog.wp_ask, Prog.wp_ret]
  exact fun b => h (Memory.Layout.decode b)

theorem wp_sync' {Q : Unit → Disk → Prop} {c : SyncCall} : (sync c).wp ab Q d ↔ Q () d := by
  simp only [sync, Prog.wp_sync, Prog.wp_ret]

end Rules

end Nachos
