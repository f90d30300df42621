import Nachos.Lib.Transition
import Nachos.Machine.Disk

/-!
# Latency of the disk (`machine/disk.cc`)

The head moves by one track in `SeekTime` ticks, and the disk rotates by one sector in `RotationTime`
ticks.  From the end of a seek on, the track under the head is also read into a buffer; `bufferInit` is
the time when that began.  Times are the values of `int`s that do not overflow.
-/

namespace Nachos

abbrev RotationTime : ℕ := 500

abbrev SeekTime : ℕ := 500

/-- The part of `class Disk` that has to do with time, and the clock `stats->totalTicks`. -/
structure DiskHead where
  lastSector : ℤ
  bufferInit : ℤ
  active : Bool
  totalTicks : ℤ

namespace DiskHead

/-- The seek time, and what is then left until the next sector boundary (`*rotation`). -/
def timeToSeek (d : DiskHead) (newSector : ℤ) : ℤ × ℤ :=
  let newTrack := newSector.tdiv SectorsPerTrack
  let oldTrack := d.lastSector.tdiv SectorsPerTrack
  let seek : ℤ := (newTrack - oldTrack).natAbs * SeekTime
  let overTicks := (d.totalTicks + seek).tmod RotationTime
  (seek, if overTicks > 0 then RotationTime - overTicks else 0)

/-- `ModuloDiff(to, from)`. -/
def moduloDiff (toSector fromSector : ℤ) : ℤ :=
  let toOffset := toSector.tmod SectorsPerTrack
  let fromOffset := fromSector.tmod SectorsPerTrack
  ((toOffset - fromOffset) + SectorsPerTrack).tmod SectorsPerTrack

/-- When the seek is over and the next sector begins. -/
def timeAfter (d : DiskHead) (newSector : ℤ) : ℤ :=
  d.totalTicks + (d.timeToSeek newSector).1 + (d.timeToSeek newSector).2

/-- The test whether the track buffer applies. -/
def TrackBuffer (d : DiskHead) (newSector : ℤ) (writing : Bool) : Prop :=
  writing = false ∧ (d.timeToSeek newSector).1 = 0 ∧
    (d.timeAfter newSector - d.bufferInit).tdiv RotationTime >
      moduloDiff newSector (d.bufferInit.tdiv RotationTime)

instance decidableTrackBuffer (d : DiskHead) (newSector : ℤ) (writing : Bool) :
    Decidable (d.TrackBuffer newSector writing) :=
  inferInstanceAs (Decidable (_ ∧ _ ∧ _))

def computeLatency (d : DiskHead) (newSector : ℤ) (writing : Bool) : ℤ :=
  let (seek, rotation) := d.timeToSeek newSector
  if d.TrackBuffer newSector writing then RotationTime
  else
    let rotation := rotation +
      moduloDiff newSector ((d.timeAfter newSector).tdiv RotationTime) * RotationTime
    seek + rotation + RotationTime

def updateLast (d : DiskHead) (newSector : ℤ) : DiskHead :=
  let (seek, rotate) := d.timeToSeek newSector
  { d with
    bufferInit := if seek ≠ 0 then d.totalTicks + seek + rotate else d.bufferInit
    lastSector := newSector }

inductive Event where
  /-- Time goes by. -/
  | tick
  /-- `ReadRequest` or `WriteRequest` schedules the interrupt `ticks` from now. -/
  | request (sectorNumber : ℤ) (writing : Bool) (ticks : ℤ)
  /-- `HandleInterrupt`. -/
  | handleInterrupt

inductive Step (d : DiskHead) : Event → DiskHead → Prop where
  | tick {now : ℤ} (hnow : d.totalTicks ≤ now) : Step d .tick { d with totalTicks := now }
  | request {sectorNumber : ℤ} {writing : Bool} (hactive : d.active = false)
      (hrange : 0 ≤ sectorNumber ∧ sectorNumber < NumSectors) :
      Step d (.request sectorNumber writing (d.computeLatency sectorNumber writing))
        { d.updateLast sectorNumber with active := true }
  | handleInterrupt (hactive : d.active = true) : Step d .handleInterrupt { d with active := false }

/-- The histories of a disk made at any time. -/
def system : Transition.System DiskHead Event where
  init d := d.lastSector = 0 ∧ d.bufferInit = 0 ∧ d.active = false ∧ 0 ≤ d.totalTicks
  step := Step

end DiskHead

end Nachos
