import Nachos.Machine.Disk
import Nachos.Userprog.Bitmap

/-!
# Memory of the simulated machine (`machine/machine.cc`, `machine/translate.cc`)

The machine without a TLB.  There is one page table for all threads, with an entry for each physical
page; an entry belongs to the thread whose pid it records.  `Translate` goes through the whole table
and takes the last entry that fits.

The outcome of `Translate` is an exception, or a physical address and the machine with the use and
dirty bits set; `none` stands for a failed `ASSERT`.
-/

namespace Nachos

open Memory

abbrev PageSize : ℕ := SectorSize

abbrev NumPhysPages : ℕ := 32

abbrev MemorySize : ℕ := NumPhysPages * PageSize

inductive ExceptionType where
  | noException
  | syscallException
  | pageFaultException
  | readOnlyException
  | busErrorException
  | addressErrorException
  | overflowException
  | illegalInstrException
  deriving DecidableEq

structure TranslationEntry where
  virtualPage : CInt
  physicalPage : CInt
  valid : Bool
  readOnly : Bool
  use : Bool
  dirty : Bool
  thread : ℤ

/-- `class Machine`, without the registers.  Only the first `MemorySize` bytes and the first
`NumPhysPages` entries exist. -/
structure Machine where
  mainMemory : Buf
  pageTable : ℕ → TranslationEntry
  memoryMap : BitMap

namespace Machine

/-- The constructor; `garbage` is what the words of the bitmap hold when they are allocated. -/
def new (garbage : ℕ → BitVec 32) : Machine where
  mainMemory _ := 0
  pageTable i := {
    physicalPage := int i
    virtualPage := int (-1)
    use := false
    readOnly := false
    dirty := false
    valid := false
    thread := -1 }
  memoryMap := BitMap.new garbage NumPhysPages

/-- The test of the loop of `Translate`. -/
def fits (m : Machine) (pid : ℤ) (vpn : CInt) (j : ℕ) : Bool :=
  (m.pageTable j).virtualPage = vpn ∧ (m.pageTable j).valid = true ∧ (m.pageTable j).thread = pid

/-- The loop of `Translate`: the index of the last entry that fits. -/
def entryFor (m : Machine) (pid : ℤ) (vpn : CInt) : Option ℕ :=
  (List.range NumPhysPages).foldl (fun entry j => if m.fits pid vpn j then some j else entry) none

/-- The check for alignment errors. -/
def misaligned (virtAddr : CInt) (size : ℕ) : Bool :=
  (size = 4 ∧ virtAddr &&& 0x3 ≠ 0) ∨ (size = 2 ∧ virtAddr &&& 0x1 ≠ 0)

/-- `(unsigned) virtAddr / PageSize` -/
def vpn (virtAddr : CInt) : CInt := virtAddr / BitVec.ofNat 32 PageSize

/-- `(unsigned) virtAddr % PageSize` -/
def offset (virtAddr : CInt) : CInt := virtAddr % BitVec.ofNat 32 PageSize

/-- `entry->use = TRUE`, and `entry->dirty = TRUE` for a write. -/
def touch (m : Machine) (j : ℕ) (writing : Bool) : Machine :=
  { m with
    pageTable := Function.update m.pageTable j
      { m.pageTable j with use := true, dirty := (m.pageTable j).dirty || writing } }

/-- `Translate`, for the current thread's `pid`. -/
def translate (m : Machine) (pid : ℤ) (virtAddr : CInt) (size : ℕ) (writing : Bool) :
    Option (Except ExceptionType (ℕ × Machine)) :=
  if misaligned virtAddr size then some (.error .addressErrorException)
  else
    match m.entryFor pid (vpn virtAddr) with
    | none => some (.error .pageFaultException)
    | some j =>
      if (m.pageTable j).readOnly ∧ writing then some (.error .readOnlyException)
      else if (m.pageTable j).physicalPage.toNat ≥ NumPhysPages then
        some (.error .busErrorException)
      else
        let physAddr := (m.pageTable j).physicalPage.toNat * PageSize + (offset virtAddr).toNat
        if physAddr + size ≤ MemorySize then some (.ok (physAddr, m.touch j writing)) else none

/-- The `switch` of `ReadMem`: what is at the physical address.  A `char` is signed, an
`unsigned short` is not. -/
def readValue (m : Machine) (physicalAddress : ℕ) : ℕ → Option CInt
  | 1 => some ((m.mainMemory physicalAddress).signExtend 32)
  | 2 => some ((m.mainMemory (physicalAddress + 1) ++ m.mainMemory physicalAddress).setWidth 32)
  | 4 => some (m.mainMemory (physicalAddress + 3) ++ m.mainMemory (physicalAddress + 2) ++
      m.mainMemory (physicalAddress + 1) ++ m.mainMemory physicalAddress)
  | _ => none

/-- Byte `k` of a word in memory. -/
def byteOf (value : CInt) (k : ℕ) : Byte := value.extractLsb' (8 * k) 8

/-- The `switch` of `WriteMem`. -/
def writeValue (m : Machine) (physicalAddress : ℕ) (value : CInt) (size : ℕ) : Option Machine :=
  if size = 1 ∨ size = 2 ∨ size = 4 then
    some { m with mainMemory := Bytes.copy (byteOf value) m.mainMemory physicalAddress size }
  else none

end Machine

end Nachos
