import Nachos.Machine.Mipssim

/-!
# The arithmetic and logical instructions of the MIPS R2000

What the architecture defines: the result of an instruction from the two registers `rs` and `rt` and the
fields of the instruction word.  Sums and differences that trap are those of integers.  Immediate
operands are extended with their sign, but for the logical instructions with zeros; logical shifts to
the right fill with zeros.
-/

namespace Nachos.Mips

/-! ### Fields of the instruction word -/

/-- The immediate operand. -/
def imm (word : CInt) : BitVec 16 := word.extractLsb' 0 16

/-- The shift amount. -/
def shamt (word : CInt) : BitVec 5 := word.extractLsb' 6 5

/-! ### Results -/

inductive AluResult where
  | value (v : CInt)
  /-- `OverflowException`; nothing is stored. -/
  | overflow
  deriving DecidableEq

/-- An exact result, when it is a number of 32 bits. -/
def AluResult.exact (x : ℤ) : AluResult :=
  if -2 ^ 31 ≤ x ∧ x < 2 ^ 31 then .value (BitVec.ofInt 32 x) else .overflow

/-- The result of the instruction `word` with the operation `op`, from the values of the registers `rs`
and `rt`; `none` for the other instructions. -/
def aluResult (word rs rt : CInt) : OpCode → Option AluResult
  | .add => some (.exact (rs.toInt + rt.toInt))
  | .addi => some (.exact (rs.toInt + (imm word).toInt))
  | .addiu => some (.value (rs + (imm word).signExtend 32))
  | .addu => some (.value (rs + rt))
  | .and => some (.value (rs &&& rt))
  | .andi => some (.value (rs &&& (imm word).zeroExtend 32))
  | .lui => some (.value (imm word ++ 0#16))
  | .nor => some (.value (~~~(rs ||| rt)))
  | .or => some (.value (rs ||| rt))
  | .ori => some (.value (rs ||| (imm word).zeroExtend 32))
  | .sll => some (.value (rt <<< (shamt word).toNat))
  | .sllv => some (.value (rt <<< (rs.extractLsb' 0 5).toNat))
  | .slt => some (.value (if rs.toInt < rt.toInt then 1 else 0))
  | .slti => some (.value (if rs.toInt < (imm word).toInt then 1 else 0))
  | .sltiu => some (.value (if rs.toNat < ((imm word).signExtend 32).toNat then 1 else 0))
  | .sltu => some (.value (if rs.toNat < rt.toNat then 1 else 0))
  | .sra => some (.value (rt.sshiftRight (shamt word).toNat))
  | .srav => some (.value (rt.sshiftRight (rs.extractLsb' 0 5).toNat))
  | .srl => some (.value (rt >>> (shamt word).toNat))
  | .srlv => some (.value (rt >>> (rs.extractLsb' 0 5).toNat))
  | .sub => some (.exact (rs.toInt - rt.toInt))
  | .subu => some (.value (rs - rt))
  | .xor => some (.value (rs ^^^ rt))
  | .xori => some (.value (rs ^^^ (imm word).zeroExtend 32))
  | _ => none

/-- The register of the result: `rt` for instructions with an immediate operand, and `rd` for the
others. -/
def Instruction.target (instr : Instruction) : Fin NumGPRegs :=
  match instr.opCode with
  | .addi | .addiu | .andi | .lui | .ori | .slti | .sltiu | .xori => instr.rt
  | _ => instr.rd

/-! ### Executing an instruction -/

/-- A general register after the pending load. -/
def afterLoad (r : Registers) (i : Fin NumGPRegs) : CInt :=
  if i = 0 then 0 else if r LoadReg = BitVec.ofNat 32 i then r LoadValueReg else r i

variable {σ : Type}

/-- What is left of `OneInstruction`, from a state `s`, has the result: it is in its register, or
`OverflowException` is raised.  The other general registers keep their values, apart from the pending
load. -/
def Yields (mem : MemorySystem σ) (s : State σ) (target : Fin NumGPRegs)
    (run : Option (Except Ending Unit × State σ)) : AluResult → Prop
  | .value v => ∃ s', run = some (.ok (), s') ∧ s'.memory = s.memory ∧
      ∀ i : Fin NumGPRegs, s'.registers i =
        if i = target ∧ i ≠ 0 then v else afterLoad s.registers i
  | .overflow => ∃ s', run = (do mem.handler .overflowException; Coupling.Comp.stop .returned :
      Coupling.Comp Ending (State σ) Unit) s' ∧ s'.memory = s.memory ∧
        ∀ i : Fin NumGPRegs, s'.registers i = afterLoad s.registers i

/-- When `word` has been fetched and the registers are `r`, `OneInstruction` does what the architecture
defines: with any memory and any exception handler. -/
def FollowsArchitecture (word : CInt) (r : Registers) : Prop :=
  ∀ (σ : Type) (mem : MemorySystem σ) (s s₁ : State σ),
    readMem mem (s.registers PCReg) 4 s = some (.ok word, s₁) → s₁.registers = r →
      ∀ result ∈ aluResult word (r (decode word).rs) (r (decode word).rt) (decode word).opCode,
        Yields mem s₁ (decode word).target (oneInstruction mem s) result

end Nachos.Mips
