import Nachos.Filesys.FileStore
import Nachos.Machine.Machine

/-!
# The page fault handler (`userprog/exception.cc`)

`ExceptionHandler(PageFaultException)` of the machine without a TLB.  The disk is read in the middle
of it, and other threads run meanwhile; the two halves are not interrupted.  All other exceptions of
memory accesses end the run in `ASSERT(FALSE)`.
-/

namespace Nachos.Machine

open Memory

/-- The first half: a free frame is mapped; `none` when there is none. -/
def allocatePage (m : Machine) (pid : ℤ) (virtAddr : CInt) : Option (ℕ × Machine) :=
  let (newPhysicPage, memoryMap) := m.memoryMap.find
  if newPhysicPage = -1 then none
  else
    let entry := m.pageTable newPhysicPage.toNat
    some (newPhysicPage.toNat, { m with
      memoryMap
      pageTable := Function.update m.pageTable newPhysicPage.toNat { entry with
        virtualPage := vpn virtAddr
        physicalPage := int newPhysicPage
        valid := true
        thread := pid } })

/-- `vpn*PageSize`, as an `int`. -/
def codePos (virtAddr : CInt) : ℤ := (vpn virtAddr * BitVec.ofNat 32 PageSize).toInt

/-- The second half: the page is read into the frame from the file `VirtualMemory`. -/
def loadPage (m : Machine) (virtualMemory : File) (newPhysicPage : ℕ) (virtAddr : CInt) :
    Option Machine := do
  let paddr := (m.pageTable newPhysicPage).physicalPage.toNat * PageSize
  let into ← virtualMemory.readAt (m.mainMemory.offset paddr) PageSize (codePos virtAddr)
  return { m with mainMemory := into.copy m.mainMemory paddr PageSize }

end Nachos.Machine
