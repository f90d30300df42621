import Nachos.Filesys.FileStore
import Nachos.Machine.Machine

/-!
# Loading a program (`userprog/addrspace.cc`, `bin/noff.h`)

The constructor of `AddrSpace` reads the header of the executable, creates the file `VirtualMemory`
and copies the two segments that have contents into it, by way of a buffer of zeros.  The pages of the
program are read from that file when it faults (`loadPage`).  The files are those of the host, as in the
builds of `userprog` and `vm`.

The host is little-endian, so `SwapHeader` is never called.  `none` stands for a failed `ASSERT`, and
for what has no defined outcome: a position in front of a file, an address outside the buffer, a
buffer of 2^31 bytes or more.
-/

namespace Nachos

open Memory

structure Segment where
  virtualAddr : CInt
  inFileAddr : CInt
  size : CInt
  deriving DecidableEq

structure NoffHeader where
  noffMagic : CInt
  code : Segment
  initData : Segment
  uninitData : Segment
  deriving DecidableEq

/-- `NOFFMAGIC` -/
def noffMagicNumber : CInt := 0xbadfad

abbrev UserStackSize : ℕ := 1024

/-- `sizeof(NoffHeader)` -/
abbrev noffHeaderSize : ℕ := 40

namespace NoffHeader

/-- The header found in memory, ten words. -/
def ofBytes (b : Buf) : NoffHeader :=
  let word : ℕ → CInt := Layout.decodeArray b
  ⟨word 0, ⟨word 1, word 2, word 3⟩, ⟨word 4, word 5, word 6⟩, ⟨word 7, word 8, word 9⟩⟩

end NoffHeader

structure AddrSpace where
  numPages : CInt

namespace AddrSpace

/-- One of the two blocks that copy a segment: into the buffer `temp` of `size` bytes, and from there
to the file. -/
def copySegment (executable : File) (segment : Segment) (size : ℕ) (temp : Buf) (vm : File) :
    Option (Buf × File) :=
  if segment.size.toInt > 0 then
    if segment.virtualAddr.toInt < 0 ∨ segment.virtualAddr.toNat + segment.size.toNat > size then none
    else do
      let into ← executable.readAt (temp.offset segment.virtualAddr.toNat) segment.size.toInt
        segment.inFileAddr.toInt
      let temp := into.copy temp segment.virtualAddr.toNat segment.size.toNat
      let vm ← vm.writeAt (temp.offset segment.virtualAddr.toNat) segment.size.toInt
        (segment.virtualAddr * BitVec.ofNat 32 PageSize).toInt
      return (temp, vm)
  else some (temp, vm)

/-- `size`, rounded up to whole pages. -/
def numPagesFor (noffH : NoffHeader) : CInt :=
  let size := noffH.code.size + noffH.initData.size + noffH.uninitData.size +
    BitVec.ofNat 32 UserStackSize
  size / BitVec.ofNat 32 PageSize + if size % BitVec.ofNat 32 PageSize > 0 then 1 else 0

/-- The constructor; `garbage` is what is on the stack where `noffH` is. -/
def new (garbage : Buf) (executable : File) (s : FileStore) : Option (AddrSpace × FileStore) := do
  let noffH := NoffHeader.ofBytes (← executable.readAt garbage noffHeaderSize 0)
  if noffH.noffMagic ≠ noffMagicNumber then none
  else
    let numPages := numPagesFor noffH
    let size := numPages * BitVec.ofNat 32 PageSize
    if size.toInt < 0 then none
    else
      let (_, s) := s.create "VirtualMemory" size.toNat
      let vm ← s "VirtualMemory"
      let (temp, vm) ← copySegment executable noffH.code size.toNat (fun _ => 0) vm
      let (_, vm) ← copySegment executable noffH.initData size.toNat temp vm
      return (⟨numPages⟩, Function.update s "VirtualMemory" (some vm))

end AddrSpace

end Nachos
