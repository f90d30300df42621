import Nachos.Filesys.FileHeader

/-!
# Open files (`filesys/openfile.cc`)

An open file keeps a copy of the header in memory.  A write that ends past the end of the file first
extends it: it fetches the free map through a new handle of its own, extends the header in
memory, writes the header back and then the free map.  Writing the free map back is again a
`WriteAt`, of the file with header sector `0`, so `WriteAt` is recursive; `writeAtDepth` bounds the
nesting, and `writeAt` allows for what a free map file shorter than the map would need.  Nothing
deeper can return: it would be a `WriteAt` that fails to extend the free map file.

The count of open handles (`visitorNum`) is not modelled.
-/

namespace Nachos

open Storage Memory

structure OpenFile where
  fileSector : ℤ
  hdr : FileHeader
  seekPosition : ℤ

namespace OpenFile

/-- The constructor. -/
def new (sector : ℤ) : FsProg OpenFile := do
  let hdr ← FileHeader.fetchFrom sector
  return ⟨sector, hdr, 0⟩

def seek (f : OpenFile) (position : ℤ) : OpenFile := { f with seekPosition := position }

def length (f : OpenFile) : ℤ := f.hdr.fileLength

/-- The loop of `ReadAt`, from round `j` on. -/
def readSectors (hdr : FileHeader) (firstSector : ℤ) : ℕ → ℕ → Buf → FsProg Buf
  | 0, _, buf => return buf
  | n + 1, j, buf => do
    let s ← hdr.byteToSector ((firstSector + j) * SectorSize)
    let data ← readSector s
    readSectors hdr firstSector n (j + 1) (data.bytes.copy buf (j * SectorSize) SectorSize)

/-- The result is the count, the memory at `into` and the handle. -/
def readAt (f : OpenFile) (into : Buf) (numBytes position : ℤ) :
    FsProg (ℤ × Buf × OpenFile) := do
  let fileLength := f.hdr.fileLength
  if numBytes ≤ 0 ∨ position ≥ fileLength then
    return (0, into, f)
  else
    let numBytes :=
      if wrap (position + numBytes) > fileLength then fileLength - position else numBytes
    let firstSector := divRoundDown position SectorSize
    let lastSector := divRoundDown (position + numBytes - 1) SectorSize
    let numSectors := 1 + lastSector - firstSector
    let buf ← newBytes
    let buf ← readSectors f.hdr firstSector numSectors.toNat 0 buf
    -- a negative offset is outside the buffer
    if position - firstSector * SectorSize < 0 then .abort
    else
      let into :=
        (buf.offset (position - firstSector * SectorSize).toNat).copy into 0 numBytes.toNat
      let hdr ← f.hdr.setLastVisitTime
      return (numBytes, into, { f with hdr })

/-- The loop of `WriteAt`, from round `j` on. -/
def writeSectors (hdr : FileHeader) (firstSector : ℤ) (buf : Buf) : ℕ → ℕ → FsProg Unit
  | 0, _ => return
  | n + 1, j => do
    let s ← hdr.byteToSector ((firstSector + j) * SectorSize)
    writeSector s (.ofBytes (buf.offset (j * SectorSize)))
    writeSectors hdr firstSector buf n (j + 1)

/-- `ReadAt(&buf[at], SectorSize, position)`. -/
def readInto (f : OpenFile) (buf : Buf) (at_ : ℕ) (position : ℤ) : FsProg (Buf × OpenFile) := do
  let (n, into, f) ← f.readAt (buf.offset at_) SectorSize position
  return (into.copy buf at_ n.toNat, f)

/-- The second half of `WriteAt`, after the file has been extended if need be. -/
def store (f : OpenFile) (data : Buf) (numBytes position : ℤ) : FsProg (ℤ × OpenFile) := do
  let firstSector := divRoundDown position SectorSize
  let lastSector := divRoundDown (position + numBytes - 1) SectorSize
  let numSectors := 1 + lastSector - firstSector
  let buf ← newBytes
  let firstAligned := position = firstSector * SectorSize
  let lastAligned := position + numBytes = (lastSector + 1) * SectorSize
  let (buf, f) ←
    (if ¬ firstAligned then f.readInto buf 0 (firstSector * SectorSize) else pure (buf, f))
  let (buf, f) ←
    (if ¬ lastAligned ∧ (firstSector ≠ lastSector ∨ firstAligned) then
      f.readInto buf ((lastSector - firstSector) * SectorSize).toNat (lastSector * SectorSize)
    else pure (buf, f))
  if position - firstSector * SectorSize < 0 then .abort
  else
    let buf := data.copy buf (position - firstSector * SectorSize).toNat numBytes.toNat
    writeSectors f.hdr firstSector buf numSectors.toNat 0
    let hdr ← f.hdr.setLastModifyTime
    return (numBytes, { f with hdr })

end OpenFile

namespace BitMap

/-- The words of the map in memory. -/
def bytes (m : BitMap) : Buf := Layout.encodeArray m.map

/-- `new BitMap(nitems)`. -/
def newMap (nitems : ℕ) : FsProg BitMap := do
  let garbage ← newBytes
  return new (Layout.decodeArray garbage) nitems

def fetchFrom (m : BitMap) (file : OpenFile) : FsProg (BitMap × OpenFile) := do
  let (_, into, file) ← file.readAt m.bytes (m.numWords * 4) 0
  return ({ m with map := Layout.decodeArray into }, file)

end BitMap

namespace OpenFile

/-- The first half of `WriteAt`, for a write that ends past the end of the file; `writeBack` stores
the free map in the file it is given. -/
def extend (f : OpenFile) (numBytes position : ℤ)
    (writeBack : OpenFile → BitMap → FsProg OpenFile) : FsProg OpenFile := do
  let freeMap ← BitMap.newMap NumSectors
  let freeMapFile ← OpenFile.new 0
  let (freeMap, freeMapFile) ← freeMap.fetchFrom freeMapFile
  -- the result of `ExtendFile` is not looked at
  let (_, hdr, freeMap) ←
    f.hdr.extendFile freeMap (wrap (wrap (position + numBytes) - f.hdr.fileLength))
  let hdr ← hdr.writeBack hdr.hdrSector.toInt
  let _ ← writeBack freeMapFile freeMap
  return { f with hdr }

def writeAtDepth : ℕ → OpenFile → Buf → ℤ → ℤ → FsProg (ℤ × OpenFile)
  | 0, _, _, _, _ => .abort
  | depth + 1, f, data, numBytes, position => do
    if numBytes ≤ 0 then return (0, f)
    else
      let f ←
        (if wrap (position + numBytes) > f.hdr.fileLength then
          f.extend numBytes position fun file map => do
            let (_, file) ← writeAtDepth depth file map.bytes (map.numWords * 4) 0
            return file
        else pure f)
      f.store data numBytes position

def writeAt : OpenFile → Buf → ℤ → ℤ → FsProg (ℤ × OpenFile) := writeAtDepth 4

def read (f : OpenFile) (into : Buf) (numBytes : ℤ) : FsProg (ℤ × Buf × OpenFile) := do
  sync (.readerStart f.fileSector)
  let (result, into, f) ← f.readAt into numBytes f.seekPosition
  let f := { f with seekPosition := f.seekPosition + result }
  sync (.readerExit f.fileSector)
  return (result, into, f)

def write (f : OpenFile) (data : Buf) (numBytes : ℤ) : FsProg (ℤ × OpenFile) := do
  sync (.writerStart f.fileSector)
  let (result, f) ← f.writeAt data numBytes f.seekPosition
  let f := { f with seekPosition := f.seekPosition + result }
  sync (.writerExit f.fileSector)
  return (result, f)

end OpenFile

namespace BitMap

def writeBack (m : BitMap) (file : OpenFile) : FsProg OpenFile := do
  let (_, file) ← file.writeAt m.bytes (m.numWords * 4) 0
  return file

end BitMap

end Nachos
