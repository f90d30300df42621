import Nachos.Filesys.Directory

/-!
# The file system (`filesys/filesys.cc`)

The free map and the directory are files, with their headers in sectors `0` and `1`; the file system
keeps a handle of each.  `Create` and `Remove` fetch both, change the copies in memory and write
them back when the operation succeeds.
-/

namespace Nachos

open Storage Memory

abbrev FreeMapSector : ℤ := 0

abbrev DirectorySector : ℤ := 1

abbrev FreeMapFileSize : ℕ := NumSectors / BitsInByte

abbrev NumDirEntries : ℕ := 10

abbrev DirectoryFileSize : ℕ := 20 * NumDirEntries

structure FileSystem where
  freeMapFile : OpenFile
  directoryFile : OpenFile

namespace FileSystem

/-- `new FileHeader`. -/
def newHeader : FsProg FileHeader := do
  let garbage ← newBytes
  return Layout.decode garbage

/-- `ASSERT(hdr->Allocate(freeMap, fileSize))` on a new header. -/
def allocateOrFail (freeMap : BitMap) (hdr : FileHeader) (fileSize : ℤ) :
    FsProg (FileHeader × BitMap) := do
  let (ok, hdr, freeMap) ← hdr.allocate freeMap fileSize
  if ok then return (hdr, freeMap) else .abort

/-- `FileSystem(TRUE)`. -/
def format : FsProg FileSystem := do
  let freeMap ← BitMap.newMap NumSectors
  let directory ← Directory.newDirectory NumDirEntries
  let mapHdr ← newHeader
  let dirHdr ← newHeader
  let freeMap ← .ofOption (freeMap.mark FreeMapSector)
  let freeMap ← .ofOption (freeMap.mark DirectorySector)
  let (mapHdr, freeMap) ← allocateOrFail freeMap mapHdr FreeMapFileSize
  let (dirHdr, freeMap) ← allocateOrFail freeMap dirHdr DirectoryFileSize
  let _ ← mapHdr.writeBack FreeMapSector
  let _ ← dirHdr.writeBack DirectorySector
  let freeMapFile ← OpenFile.new FreeMapSector
  let directoryFile ← OpenFile.new DirectorySector
  let freeMapFile ← freeMap.writeBack freeMapFile
  let directoryFile ← directory.writeBack directoryFile
  return ⟨freeMapFile, directoryFile⟩

def create (fs : FileSystem) (name : Buf) (initialSize : ℤ) : FsProg (Bool × FileSystem) := do
  let directory ← Directory.newDirectory NumDirEntries
  let (directory, directoryFile) ← directory.fetchFrom fs.directoryFile
  if directory.find name ≠ -1 then
    return (false, { fs with directoryFile })
  else
    let freeMap ← BitMap.newMap NumSectors
    let (freeMap, freeMapFile) ← freeMap.fetchFrom fs.freeMapFile
    let (sector, freeMap) := freeMap.find
    if sector = -1 then
      return (false, ⟨freeMapFile, directoryFile⟩)
    else
      let (added, directory) := directory.add name sector
      if ¬ added then
        return (false, ⟨freeMapFile, directoryFile⟩)
      else
        let hdr ← newHeader
        let (ok, hdr, freeMap) ← hdr.allocate freeMap initialSize
        if ¬ ok then
          return (false, ⟨freeMapFile, directoryFile⟩)
        else
          let _ ← hdr.writeBack sector
          let directoryFile ← directory.writeBack directoryFile
          let freeMapFile ← freeMap.writeBack freeMapFile
          return (true, ⟨freeMapFile, directoryFile⟩)

def remove (fs : FileSystem) (name : Buf) : FsProg (Bool × FileSystem) := do
  let directory ← Directory.newDirectory NumDirEntries
  let (directory, directoryFile) ← directory.fetchFrom fs.directoryFile
  let sector := directory.find name
  if sector = -1 then
    return (false, { fs with directoryFile })
  else
    let fileHdr ← FileHeader.fetchFrom sector
    let freeMap ← BitMap.newMap NumSectors
    let (freeMap, freeMapFile) ← freeMap.fetchFrom fs.freeMapFile
    let freeMap ← fileHdr.deallocate freeMap
    let freeMap ← .ofOption (freeMap.clear sector)
    let (_, directory) := directory.remove name
    let freeMapFile ← freeMap.writeBack freeMapFile
    let directoryFile ← directory.writeBack directoryFile
    return (true, ⟨freeMapFile, directoryFile⟩)

end FileSystem

end Nachos
