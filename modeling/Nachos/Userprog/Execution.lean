import Mathlib.Data.Finset.Card
import Mathlib.Data.Finset.Filter
import Nachos.Machine.Mipssim
import Nachos.Userprog.FlatMemory

/-!
# User instructions in virtual memory

The memory of `OneInstruction` is that of the machine, where pages are brought in from the file
`VirtualMemory` when they are used; or it is the array of the thread, without pages.  The handler runs
to its end here; what other threads may do meanwhile is in `Userprog/Paging`.

Registers that an instruction reads or writes are those in its operands and the ones that every
instruction uses.  The register of a load is written by the next instruction.
-/

namespace Nachos.Mips

open Paging Machine

/-! ### The two memories -/

/-- The memory of the machine, for the thread `pid`. -/
def paged (virtualMemory : File) (pid : ℤ) : MemorySystem Machine where
  access m access := do
    match ← translate m pid access with
    | .error exception => return .error exception
    | .ok (physicalAddress, m) =>
      let (result, m) ← perform m physicalAddress access
      return .ok (result, m)
  pageFault m virtAddr := do
    let (newPhysicPage, m) ← m.allocatePage pid virtAddr
    m.loadPage virtualMemory newPhysicPage virtAddr

/-- Arrays of bytes, for the thread `pid`. -/
def flat (pid : ℤ) : MemorySystem (ℤ → Buf) where
  access mem access :=
    if misaligned access.addr access.size then some (.error .addressErrorException)
    else
      match access with
      | .read a size =>
        (FlatMemory.value (mem pid) a.toNat size).map fun value => .ok (some value, mem)
      | .write a size value =>
        if size = 1 ∨ size = 2 ∨ size = 4 then
          some (.ok (none,
            Function.update mem pid (FlatMemory.store (mem pid) a.toNat size value)))
        else none
  pageFault mem _ := some mem

/-! ### What an instruction uses -/

namespace Instruction

def reads (instr : Instruction) : List Register :=
  [PCReg, NextPCReg] ++
    match instr.opCode with
    | .add | .addu | .and | .beq | .bne | .div | .divu | .lwl | .lwr | .mult | .multu | .nor | .sb
    | .sh | .sllv | .slt | .sltu | .srav | .srlv | .sub | .subu | .sw | .swl | .swr | .xor =>
      [(instr.rs : Register), (instr.rt : Register)]
    | .addi | .addiu | .andi | .bgez | .bgezal | .bgtz | .blez | .bltz | .bltzal | .jalr | .jr | .lb
    | .lbu | .lh | .lhu | .lw | .mthi | .mtlo | .or | .ori | .slti | .sltiu | .xori =>
      [(instr.rs : Register)]
    | .sll | .sra | .srl => [(instr.rt : Register)]
    | .mfhi => [HiReg]
    | .mflo => [LoReg]
    | .j | .jal | .lui | .syscall | .unimp | .res => []

def writes (instr : Instruction) : List Register :=
  [PCReg, NextPCReg, PrevPCReg, LoadReg, LoadValueReg, BadVAddrReg] ++
    match instr.opCode with
    | .add | .addu | .and | .jalr | .mfhi | .mflo | .nor | .or | .sll | .sllv | .slt | .sltu | .sra
    | .srav | .srl | .srlv | .sub | .subu | .xor => [(instr.rd : Register)]
    | .addi | .addiu | .andi | .lui | .ori | .slti | .sltiu | .xori => [(instr.rt : Register)]
    | .bgezal | .bltzal | .jal => [R31]
    | .div | .divu | .mult | .multu => [HiReg, LoReg]
    | .mthi => [HiReg]
    | .mtlo => [LoReg]
    | .beq | .bgez | .bgtz | .blez | .bltz | .bne | .j | .jr | .lb | .lbu | .lh | .lhu | .lw | .lwl
    | .lwr | .sb | .sh | .sw | .swl | .swr | .syscall | .unimp | .res => []

/-- The address of the data access of an instruction. -/
def dataAddress (instr : Instruction) (registers : Registers) : Option CInt :=
  match instr.opCode with
  | .lb | .lbu | .lh | .lhu | .lw | .lwl | .lwr | .sb | .sh | .sw | .swl | .swr =>
    some (registers instr.rs + instr.extra)
  | _ => none

/-- The pages of the instruction fetch and of the data access. -/
def pages (instr : Instruction) (registers : Registers) : List CInt :=
  vpn (registers PCReg) :: ((instr.dataAddress registers).map vpn).toList

/-- The register of the pending load is register 0, or the instruction does not use it. -/
def Spares (instr : Instruction) (l : Register) : Prop :=
  l = 0 ∨ l ∉ instr.reads ∧ l ∉ instr.writes

end Instruction

/-- The instruction at the program counter, in the array of a thread. -/
def instructionAt (mem : Buf) (registers : Registers) : Instruction :=
  decode ((FlatMemory.value mem (registers PCReg).toNat 4).getD 0)

/-! ### Pages that can be brought in -/

/-- The pages that are not resident. -/
def missing (m : Machine) (pid : ℤ) (pages : List CInt) : Finset CInt :=
  pages.toFinset.filter fun v => m.entryFor pid v = none

/-- The pages are resident, or the handler can bring them in: there are free frames, and they are
not in the upper half of the addresses, where `vpn*PageSize` is negative. -/
structure Provided (m : Machine) (pid : ℤ) (pages : List CInt) : Prop where
  low : ∀ v ∈ missing m pid pages, v.toNat * PageSize < 2 ^ 31
  frames : (missing m pid pages).card ≤ m.memoryMap.numClear

end Nachos.Mips
