import Nachos.Machine.Mipssim

/-!
# Instructions that do not stop the simulator

The simulator is written in C, and some of what an instruction does there is not defined for all
operands: a division by zero, a quotient that is not an `int`, a shift by more than 31 bits, a write
outside `registers`.  The memory and the exception handler are not at issue here; they are assumed to
return (`Total`).
-/

namespace Nachos.Mips

open Coupling

/-- Accesses end with data or an exception, and the handler returns or stops the thread, without
changing `LoadReg`. -/
structure Total {σ : Type} (mem : MemorySystem σ) : Prop where
  access : ∀ m access, access.size = 1 ∨ access.size = 2 ∨ access.size = 4 →
    (mem.access m access).isSome
  handler : ∀ which s, Post False (fun _ s' => s'.registers LoadReg = s.registers LoadReg)
    (fun _ _ => True) (mem.handler which s)

/-- The number of bits of a shift. -/
def Instruction.shiftCount (instr : Instruction) (r : Registers) : Option CInt :=
  match instr.opCode with
  | .sll | .sra | .srl => some instr.extra
  | .sllv | .srav | .srlv => some (r instr.rs &&& 0x1f)
  | _ => none

/-- `LWL`, `LWR`, `SWL` and `SWR` at an address that is not a multiple of 4. -/
def Instruction.unaligned (instr : Instruction) (r : Registers) : Bool :=
  match instr.opCode with
  | .lwl | .lwr | .swl | .swr => r instr.rs + instr.extra &&& 0x3 ≠ 0
  | _ => false

/-- What the architecture asks of a quotient `lo` and a remainder `hi`. -/
def QuotRem (rs rt lo hi : CInt) : OpCode → Prop
  | .div => rs = lo * rt + hi ∧ hi.toInt.natAbs < rt.toInt.natAbs ∧
      (hi = 0 ∨ hi.toInt.sign = rs.toInt.sign)
  | .divu => rs = lo * rt + hi ∧ hi.toNat < rt.toNat
  | _ => True

/-- When `word` has been fetched and the registers are `r`, `OneInstruction` returns: it has executed
the instruction or raised an exception.  Shifts are by 0 to 31 bits.  A division by a divisor that is
not zero leaves the quotient and the remainder in `LO` and `HI`, unless a load into these is pending. -/
def Survives (word : CInt) (r : Registers) : Prop :=
  ∀ (σ : Type) (mem : MemorySystem σ) (s s₁ : State σ), Total mem →
    readMem mem (s.registers PCReg) 4 s = some (.ok word, s₁) → s₁.registers = r →
      (oneInstruction mem s).isSome ∧
      (∀ n ∈ (decode word).shiftCount r, 0 ≤ n.toInt ∧ n.toInt ≤ 31) ∧
      ((decode word).opCode = .div ∨ (decode word).opCode = .divu → r (decode word).rt ≠ 0 →
        ∃ s' lo hi, oneInstruction mem s = some (.ok (), s') ∧
          QuotRem (r (decode word).rs) (r (decode word).rt) lo hi (decode word).opCode ∧
          (r LoadReg ≠ BitVec.ofNat 32 LoReg → s'.registers LoReg = lo) ∧
          (r LoadReg ≠ BitVec.ofNat 32 HiReg → s'.registers HiReg = hi))

end Nachos.Mips
