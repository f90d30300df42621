import Nachos.Filesys.Access
import Nachos.Userprog.Bitmap

/-!
# File headers (`filesys/filehdr.cc`)

A header fills one sector.  Its table has `NumDirect = 26` entries.  For files of at most 26
sectors `Allocate` and `Deallocate` take all entries as data sectors, and for longer files the
last one as the sector of a second-level table of 32 `int`s.  `ByteToSector` switches to the
second level at block 25 for every file, and reads one `char` of the four bytes of an entry.
-/

namespace Nachos

open Storage Memory

abbrev NumDirect : ℕ := 26

/-- Under this name, so that indices of blocks are the same terms in all modules. -/
instance neZero_numDirect : NeZero NumDirect := inferInstance

@[ext]
structure FileHeader where
  createTime : CInt
  lastVistTime : CInt
  lastModifyTime : CInt
  hdrSector : CInt
  numBytes : CInt
  numSectors : CInt
  dataSectors : Fin NumDirect → CInt

namespace FileHeader

/-- The header as 32 words. -/
def word (h : FileHeader) : ℕ → CInt
  | 0 => h.createTime
  | 1 => h.lastVistTime
  | 2 => h.lastModifyTime
  | 3 => h.hdrSector
  | 4 => h.numBytes
  | 5 => h.numSectors
  | i + 6 => h.dataSectors (Fin.ofNat NumDirect i)

def ofWords (w : ℕ → CInt) : FileHeader where
  createTime := w 0
  lastVistTime := w 1
  lastModifyTime := w 2
  hdrSector := w 3
  numBytes := w 4
  numSectors := w 5
  dataSectors i := w (i + 6)

theorem ofWords_word (h : FileHeader) : ofWords h.word = h := by
  refine FileHeader.ext rfl rfl rfl rfl rfl rfl ?_
  funext i
  exact congrArg h.dataSectors (Fin.ofNat_val_eq_self i)

theorem word_ofWords (w : ℕ → CInt) {i : ℕ} (hi : i < 32) : (ofWords w).word i = w i := by
  match i with
  | 0 | 1 | 2 | 3 | 4 | 5 => rfl
  | i + 6 =>
    show w (i % NumDirect + 6) = w (i + 6)
    rw [Nat.mod_eq_of_lt (by simp only [NumDirect]; omega)]

instance : Layout FileHeader where
  size := SectorSize
  size_pos := by decide
  encode h := Layout.encodeArray h.word
  decode b := ofWords (Layout.decodeArray b)
  decode_congr := by
    intro b b' h
    have hw : ∀ i < 32, (Layout.decodeArray b i : CInt) = Layout.decodeArray b' i := by
      intro i hi
      refine Layout.decodeArray_congr fun j hj => h _ ?_
      have hj4 : j < 4 := hj
      show 4 * i + j < 128
      omega
    refine FileHeader.ext (hw 0 (by decide)) (hw 1 (by decide)) (hw 2 (by decide))
      (hw 3 (by decide)) (hw 4 (by decide)) (hw 5 (by decide)) ?_
    funext i
    have hi : (i : ℕ) < 26 := i.isLt
    exact hw (i + 6) (by omega)
  decode_encode h := by
    have hw : Layout.decodeArray (Layout.encodeArray h.word) = h.word :=
      funext (Layout.decodeArray_encodeArray h.word)
    rw [hw]
    exact ofWords_word h
  encode_decode := by
    intro b j hj
    have hj' : j < 128 := hj
    show Layout.encode ((ofWords (Layout.decodeArray b)).word (j / 4)) (j % 4) = b j
    rw [word_ofWords _ (by omega)]
    exact congrFun (Layout.encodeArray_decodeArray (α := CInt) b) j

/-- The header stored in a sector. -/
def ofSector (s : Sector) : FileHeader := Layout.decode s.bytes

/-- The sector that holds a header. -/
def toSector (h : FileHeader) : Sector := Sector.ofBytes (Layout.encode h)

theorem ofSector_toSector (h : FileHeader) : ofSector h.toSector = h :=
  Layout.decode_eq_of_encode fun _ hj => Sector.bytes_ofBytes _ hj

def setCreatTime (h : FileHeader) : FsProg FileHeader := do
  return { h with createTime := ← time }

def setLastVisitTime (h : FileHeader) : FsProg FileHeader := do
  return { h with lastVistTime := ← time }

def setLastModifyTime (h : FileHeader) : FsProg FileHeader := do
  return { h with lastModifyTime := ← time }

def fileLength (h : FileHeader) : ℤ := h.numBytes.toInt

/-- Store `l` in the first entries of the table. -/
def setSectors (h : FileHeader) (l : List ℤ) : FileHeader :=
  { h with dataSectors := fun i => (l[(i : ℕ)]?).elim (h.dataSectors i) int }

/-- The bytes of the second-level table `l`, written over what the stack holds. -/
def secondIndexBytes (l : List ℤ) (stack : Buf) : Buf :=
  (Layout.encodeArray fun i => (l[i]?).elim 0 int : Buf).copy stack 0 (4 * l.length)

/-- The receiver `h` is a fresh header. -/
def allocate (h : FileHeader) (freeMap : BitMap) (fileSize : ℤ) :
    FsProg (Bool × FileHeader × BitMap) := do
  let h ← h.setCreatTime
  let h ← h.setLastVisitTime
  let h ← h.setLastModifyTime
  let numSectors := divRoundUp fileSize SectorSize
  let h := { h with numBytes := int fileSize, numSectors := int numSectors }
  if freeMap.numClear < numSectors then
    return (false, h, freeMap)
  -- the comparison with `NumDirect`, a `sizeof` expression, is unsigned
  else if (int numSectors).toNat ≤ NumDirect then
    let (freeSpace, freeMap) ← .ofOption (freeMap.firstFind numSectors)
    if freeSpace ≠ -1 then
      return (true, h.setSectors ((List.range numSectors.toNat).map fun i : ℕ => freeSpace + i),
        freeMap)
    else
      let (sectors, freeMap) := freeMap.findMany numSectors.toNat
      return (true, h.setSectors sectors, freeMap)
  else
    let (sectors, freeMap) := freeMap.findMany NumDirect
    let h := h.setSectors sectors
    let count := (int numSectors).toNat - (NumDirect - 1)
    -- `secondIndex` has 32 entries
    if count ≤ 32 then
      let (secondIndex, freeMap) := freeMap.findMany count
      let stack ← newBytes
      writeSector (h.dataSectors 25).toInt (.ofBytes (secondIndexBytes secondIndex stack))
      return (true, h, freeMap)
    else .abort

/-- `freeMap->Clear` for each of a list of sectors. -/
def clearSectors (freeMap : BitMap) : List ℤ → Option BitMap
  | [] => some freeMap
  | s :: l => do clearSectors (← freeMap.clear s) l

/-- The same, with the `ASSERT` that the sector is marked. -/
def clearMarked (freeMap : BitMap) : List ℤ → Option BitMap
  | [] => some freeMap
  | s :: l => do
    let marked ← freeMap.test s
    guard marked
    clearMarked (← freeMap.clear s) l

/-- The entries of the table, in order. -/
def table (h : FileHeader) : List ℤ := (List.finRange NumDirect).map fun i => (h.dataSectors i).toInt

def deallocate (h : FileHeader) (freeMap : BitMap) : FsProg BitMap := do
  if h.numSectors.toNat ≤ NumDirect then
    .ofOption (clearMarked freeMap (h.table.take h.numSectors.toNat))
  else
    let secondIndex ← readSector (h.dataSectors 25).toInt
    let count := h.numSectors.toNat - (NumDirect - 1)
    if count ≤ 32 then
      let freeMap ← .ofOption (clearSectors freeMap
        ((List.range count).map fun i => (secondIndex.bytes (i * 4)).toInt))
      .ofOption (clearSectors freeMap h.table)
    else .abort

def fetchFrom (sector : ℤ) : FsProg FileHeader := do
  let data ← readSector sector
  (ofSector data).setLastVisitTime

def writeBack (h : FileHeader) (sector : ℤ) : FsProg FileHeader := do
  let h ← h.setLastModifyTime
  let h := { h with hdrSector := int sector }
  writeSector sector h.toSector
  return h

def byteToSector (h : FileHeader) (offset : ℤ) : FsProg ℤ := do
  -- an unsigned comparison, as in `allocate`
  let offset := (int offset).toNat
  if offset < SectorSize * (NumDirect - 1) then
    return (h.dataSectors (Fin.ofNat NumDirect (offset / SectorSize))).toInt
  else
    let secondIndexPosition := (offset - SectorSize * (NumDirect - 1)) / SectorSize
    let secondIndex ← readSector (h.dataSectors 25).toInt
    if secondIndexPosition * 4 < SectorSize then
      return (secondIndex.bytes (secondIndexPosition * 4)).toInt
    else .abort

def extendFile (h : FileHeader) (freeMap : BitMap) (bytes : ℤ) :
    FsProg (Bool × FileHeader × BitMap) := do
  let newFileLength := wrap (h.numBytes.toInt + bytes)
  let preSectorNum := h.numSectors.toInt
  let newNumSectors := divRoundUp newFileLength SectorSize
  if newNumSectors = preSectorNum then
    return (true, { h with numBytes := int newFileLength }, freeMap)
  else if freeMap.numClear < newNumSectors - preSectorNum then
    return (false, h, freeMap)
  else if preSectorNum < newNumSectors then
    -- the loop returns at the end of its first round
    if 0 ≤ preSectorNum ∧ preSectorNum < NumDirect then
      let (temp, freeMap) := freeMap.find
      return (true,
        { h with
          dataSectors := Function.update h.dataSectors (Fin.ofNat NumDirect preSectorNum.toNat)
            (int temp)
          numBytes := int newFileLength
          numSectors := int newNumSectors }, freeMap)
    else .abort
  else
    -- control reaches the end of the function without a `return`
    let garbage ← newBytes
    return (garbage 0 ≠ 0, h, freeMap)

end FileHeader

end Nachos
