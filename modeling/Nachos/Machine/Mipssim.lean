import Nachos.Lib.Coupling
import Nachos.Userprog.Paging

/-!
# Executing instructions (`machine/mipssim.cc`, `machine/machine.cc`, `userprog/exception.cc`)

`OneInstruction`, with `ReadMem`, `WriteMem`, `RaiseException` and the exception handler, over any
memory that can translate and carry out an access, and can bring in a page: the memory of the machine,
or a memory without pages to compare it with.  The handler is a field of the memory as well: it is that
of the kernel, unless another one is given.

A load is delayed: `LoadReg` and `LoadValueReg` hold the register and the value that `DelayedLoad`
stores at the end of the next instruction, or when an exception is raised.  A failed `ASSERT`, an
exception that the handler does not know, a quotient that does not fit into an `int` and a write outside
`registers` abort.
-/

namespace Nachos.Mips

open Coupling Comp Paging

/-! ### Registers -/

abbrev NumGPRegs : ℕ := 32

abbrev NumTotalRegs : ℕ := 40

abbrev Register := Fin NumTotalRegs

abbrev Registers := Register → CInt

/-- Under this name, so that register numbers are the same terms in all modules. -/
instance neZero_numTotalRegs : NeZero NumTotalRegs := inferInstance

abbrev R31 : Register := 31

abbrev HiReg : Register := 32

abbrev LoReg : Register := 33

abbrev PCReg : Register := 34

abbrev NextPCReg : Register := 35

abbrev PrevPCReg : Register := 36

abbrev LoadReg : Register := 37

abbrev LoadValueReg : Register := 38

abbrev BadVAddrReg : Register := 39

instance : Coe (Fin NumGPRegs) Register := ⟨Fin.castLE (by decide)⟩

/-! ### Instructions -/

inductive OpCode where
  | add | addi | addiu | addu | and | andi | beq | bgez | bgezal | bgtz | blez | bltz | bltzal | bne
  | div | divu | j | jal | jalr | jr | lb | lbu | lh | lhu | lui | lw | lwl | lwr | mfhi | mflo
  | mthi | mtlo | mult | multu | nor | or | ori | sb | sh | sll | sllv | slt | slti | sltiu | sltu
  | sra | srav | srl | srlv | sub | subu | sw | swl | swr | xor | xori | syscall | unimp | res
  deriving DecidableEq

inductive Format where
  | ifmt | jfmt | rfmt
  deriving DecidableEq

/-- The entries of `opTable`: an operation, or a special value for further decoding. -/
inductive OpInfo where
  | op (opCode : OpCode) (format : Format)
  | special
  | bcond

def OpInfo.format : OpInfo → Format
  | .op _ format => format
  | .special => .rfmt
  | .bcond => .ifmt

def opTable : List OpInfo := [
  .special, .bcond, .op .j .jfmt, .op .jal .jfmt,
  .op .beq .ifmt, .op .bne .ifmt, .op .blez .ifmt, .op .bgtz .ifmt,
  .op .addi .ifmt, .op .addiu .ifmt, .op .slti .ifmt, .op .sltiu .ifmt,
  .op .andi .ifmt, .op .ori .ifmt, .op .xori .ifmt, .op .lui .ifmt,
  .op .unimp .ifmt, .op .unimp .ifmt, .op .unimp .ifmt, .op .unimp .ifmt,
  .op .res .ifmt, .op .res .ifmt, .op .res .ifmt, .op .res .ifmt,
  .op .res .ifmt, .op .res .ifmt, .op .res .ifmt, .op .res .ifmt,
  .op .res .ifmt, .op .res .ifmt, .op .res .ifmt, .op .res .ifmt,
  .op .lb .ifmt, .op .lh .ifmt, .op .lwl .ifmt, .op .lw .ifmt,
  .op .lbu .ifmt, .op .lhu .ifmt, .op .lwr .ifmt, .op .res .ifmt,
  .op .sb .ifmt, .op .sh .ifmt, .op .swl .ifmt, .op .sw .ifmt,
  .op .res .ifmt, .op .res .ifmt, .op .swr .ifmt, .op .res .ifmt,
  .op .unimp .ifmt, .op .unimp .ifmt, .op .unimp .ifmt, .op .unimp .ifmt,
  .op .res .ifmt, .op .res .ifmt, .op .res .ifmt, .op .res .ifmt,
  .op .unimp .ifmt, .op .unimp .ifmt, .op .unimp .ifmt, .op .unimp .ifmt,
  .op .res .ifmt, .op .res .ifmt, .op .res .ifmt, .op .res .ifmt]

def specialTable : List OpCode := [
  .sll, .res, .srl, .sra, .sllv, .res, .srlv, .srav,
  .jr, .jalr, .res, .res, .syscall, .unimp, .res, .res,
  .mfhi, .mthi, .mflo, .mtlo, .res, .res, .res, .res,
  .mult, .multu, .div, .divu, .res, .res, .res, .res,
  .add, .addu, .sub, .subu, .and, .or, .xor, .nor,
  .res, .res, .slt, .sltu, .res, .res, .res, .res,
  .res, .res, .res, .res, .res, .res, .res, .res,
  .res, .res, .res, .res, .res, .res, .res, .res]

theorem length_opTable : opTable.length = 2 ^ 6 := rfl

theorem length_specialTable : specialTable.length = 2 ^ 6 := rfl

/-- `class Instruction`, decoded. -/
structure Instruction where
  opCode : OpCode
  rs : Fin NumGPRegs
  rt : Fin NumGPRegs
  rd : Fin NumGPRegs
  extra : CInt
  deriving DecidableEq

/-- `Decode` -/
def decode (value : CInt) : Instruction :=
  let opPtr := opTable.get ((value.extractLsb' 26 6).toFin.cast length_opTable.symm)
  { rs := (value.extractLsb' 21 5).toFin
    rt := (value.extractLsb' 16 5).toFin
    rd := (value.extractLsb' 11 5).toFin
    extra :=
      match opPtr.format with
      | .ifmt =>
        let extra := value &&& 0xffff
        if extra &&& 0x8000 ≠ 0 then extra ||| 0xffff0000 else extra
      | .rfmt => (value >>> 6) &&& 0x1f
      | .jfmt => value &&& 0x3ffffff
    opCode :=
      match opPtr with
      | .op opCode _ => opCode
      | .special =>
        specialTable.get ((value.extractLsb' 0 6).toFin.cast length_specialTable.symm)
      | .bcond =>
        let i := value &&& 0x1f0000
        if i = 0 then .bltz
        else if i = 0x10000 then .bgez
        else if i = 0x100000 then .bltzal
        else if i = 0x110000 then .bgezal
        else .unimp }

/-! ### State -/

/-- The registers, and a memory. -/
structure State (σ : Type) where
  registers : Registers
  memory : σ

/-- The ways in which `OneInstruction` ends other than by executing the instruction. -/
inductive Ending where
  /-- An access to memory has failed, and `OneInstruction` returns. -/
  | returned
  /-- `interrupt->Halt()` -/
  | halt
  /-- `currentThread->Finish()` -/
  | finish
  deriving DecidableEq

variable {σ α : Type}

/-- `registers[i]` -/
def reg (i : Register) : Comp Ending (State σ) CInt := fun s => some (.ok (s.registers i), s)

/-- `registers[i] = value` -/
def setReg (i : Register) (value : CInt) : Comp Ending (State σ) Unit := fun s =>
  some (.ok (), { s with registers := Function.update s.registers i value })

/-! ### Exceptions -/

/-- `DelayedLoad` -/
def delayedLoad (nextReg nextValue : CInt) : Comp Ending (State σ) Unit := do
  let r ← reg LoadReg
  if h : r.toNat < NumTotalRegs then
    setReg ⟨r.toNat, h⟩ (← reg LoadValueReg)
    setReg LoadReg nextReg
    setReg LoadValueReg nextValue
    setReg 0 0
  else abort

abbrev scHalt : CInt := 0

abbrev scExit : CInt := 1

/-- The memory after a page fault. -/
def servePageFault (pageFault : σ → CInt → Option σ) (virtAddr : CInt) :
    Comp Ending (State σ) Unit := fun s =>
  (pageFault s.memory virtAddr).map fun m => (.ok (), { s with memory := m })

/-- `ExceptionHandler` -/
def exceptionHandler (pageFault : σ → CInt → Option σ) (which : ExceptionType) :
    Comp Ending (State σ) Unit := do
  let type ← reg 2
  match which with
  | .syscallException =>
    if type = scHalt then stop .halt
    else if type = scExit then stop .finish
    else abort
  | .pageFaultException => do
    let virtAddr ← reg BadVAddrReg
    servePageFault pageFault virtAddr
  | _ => abort

/-- What is needed of a memory, and of the kernel. -/
structure MemorySystem (σ : Type) where
  /-- `Translate`, and the access if there is no exception; `none` is a failed `ASSERT`. -/
  access : σ → Access → Option (Except ExceptionType (Option CInt × σ))
  /-- The page fault handler, for the address in `BadVAddrReg`. -/
  pageFault : σ → CInt → Option σ
  handler : ExceptionType → Comp Ending (State σ) Unit := exceptionHandler pageFault

/-- `RaiseException` -/
def raiseException (mem : MemorySystem σ) (which : ExceptionType) (badVAddr : CInt) :
    Comp Ending (State σ) Unit := do
  setReg BadVAddrReg badVAddr
  delayedLoad 0 0
  mem.handler which

/-- `RaiseException(which, badVAddr); return;` in `OneInstruction`. -/
def raise (mem : MemorySystem σ) (which : ExceptionType) (badVAddr : CInt) :
    Comp Ending (State σ) α := do
  raiseException mem which badVAddr
  stop .returned

/-! ### Memory -/

/-- One attempt of `ReadMem` or `WriteMem`. -/
def attempt (mem : MemorySystem σ) (access : Access) :
    Comp Ending (State σ) (Except ExceptionType (Option CInt)) := fun s =>
  (mem.access s.memory access).map fun
    | .error exception => (.ok (.error exception), s)
    | .ok (result, m) => (.ok (.ok result), { s with memory := m })

/-- `ReadMem` and `WriteMem`: after an exception they try once more.  When they return FALSE,
`OneInstruction` returns. -/
def accessMem (mem : MemorySystem σ) (access : Access) :
    Comp Ending (State σ) (Option CInt) := do
  match ← attempt mem access with
  | .ok result => return result
  | .error exception =>
    raiseException mem exception access.addr
    match ← attempt mem access with
    | .ok result => return result
    | .error _ => stop .returned

def readMem (mem : MemorySystem σ) (addr : CInt) (size : ℕ) : Comp Ending (State σ) CInt := do
  let value ← accessMem mem (.read addr size)
  return value.getD 0

def writeMem (mem : MemorySystem σ) (addr : CInt) (size : ℕ) (value : CInt) :
    Comp Ending (State σ) Unit := do
  let _ ← accessMem mem (.write addr size value)
  return ()

/-! ### Multiplication -/

/-- The loop of `Mult`, with `n` rounds left; the result is `hi` and `lo`. -/
def multLoop : ℕ → (a bLo bHi lo hi : CInt) → CInt × CInt
  | 0, _, _, _, lo, hi => (hi, lo)
  | n + 1, a, bLo, bHi, lo, hi =>
    let odd := a &&& 1 ≠ 0
    let lo' := if odd then lo + bLo else lo
    let hi' := if odd then (if lo' < bLo then hi + 1 else hi) + bHi else hi
    if odd ∧ a &&& 0xfffffffe = 0 then (hi', lo')
    else
      let bHi' := if bLo &&& 0x80000000 ≠ 0 then (bHi <<< 1) ||| 1 else bHi <<< 1
      multLoop n (a.sshiftRight 1) (bLo <<< 1) bHi' lo' hi'

/-- `Mult`: the words stored at `hiPtr` and `loPtr`. -/
def mult (a b : CInt) (signedArith : Bool) : CInt × CInt :=
  if a = 0 ∨ b = 0 then (0, 0)
  else
    let negative := signedArith && (a.slt 0 != b.slt 0)
    let a' := if signedArith && a.slt 0 then -a else a
    let b' := if signedArith && b.slt 0 then -b else b
    let (hi, lo) := multLoop 32 a' b' 0 0 0
    if negative then
      let lo' := ~~~lo + 1
      (if lo' = 0 then ~~~hi + 1 else ~~~hi, lo')
    else (hi, lo)

/-! ### Families of instructions -/

abbrev signBit : CInt := 0x80000000

def indexToAddr (x : CInt) : CInt := x <<< 2

/-- What is left to do at the end of an instruction. -/
structure Next where
  pcAfter : CInt
  nextLoadReg : CInt
  nextLoadValue : CInt

/-- No load is started. -/
def Next.pc (pcAfter : CInt) : Next := ⟨pcAfter, 0, 0⟩

/-- `registers[rd] = f(registers[rs], registers[rt])` -/
def threeRegisters (instr : Instruction) (f : CInt → CInt → CInt) : Comp Ending (State σ) Unit := do
  setReg instr.rd (f (← reg instr.rs) (← reg instr.rt))

/-- `registers[rt] = f(registers[rs])`, with the immediate operand in `f` -/
def immediate (instr : Instruction) (f : CInt → CInt) : Comp Ending (State σ) Unit := do
  setReg instr.rt (f (← reg instr.rs))

/-- `registers[rd] = f(registers[rt])`, with the shift amount in `f` -/
def shift (instr : Instruction) (f : CInt → CInt) : Comp Ending (State σ) Unit := do
  setReg instr.rd (f (← reg instr.rt))

/-- `registers[target] = registers[source]` -/
def move (target source : Register) : Comp Ending (State σ) Unit := do
  setReg target (← reg source)

def setHiLo (hi lo : CInt) : Comp Ending (State σ) Unit := do
  setReg HiReg hi
  setReg LoReg lo

/-- `registers[target] = registers[NextPCReg] + 4` -/
def link (target : Register) : Comp Ending (State σ) Unit := do
  setReg target ((← reg NextPCReg) + 4)

/-- The target of a branch, if it is taken. -/
def branch (instr : Instruction) (taken : Bool) (pcAfter : CInt) :
    Comp Ending (State σ) Next := do
  if taken then return .pc ((← reg NextPCReg) + indexToAddr instr.extra)
  else return .pc pcAfter

/-- A branch on `registers[rs]`. -/
def branchOn (instr : Instruction) (test : CInt → Bool) (pcAfter : CInt) :
    Comp Ending (State σ) Next := do
  branch instr (test (← reg instr.rs)) pcAfter

/-- Loads of the sizes 1, 2 and 4, with the check for alignment of the larger ones. -/
def load (mem : MemorySystem σ) (instr : Instruction) (size : ℕ) (extend : CInt → CInt)
    (pcAfter : CInt) : Comp Ending (State σ) Next := do
  let tmp := (← reg instr.rs) + instr.extra
  if Machine.misaligned tmp size then raise mem .addressErrorException tmp
  else
    let value ← readMem mem tmp size
    return ⟨pcAfter, BitVec.ofNat 32 instr.rt, extend value⟩

/-- The value of the register for `LWL` and `LWR`, which may be pending. -/
def oldValue (instr : Instruction) : Comp Ending (State σ) CInt := do
  if (← reg LoadReg) = BitVec.ofNat 32 instr.rt then reg LoadValueReg else reg instr.rt

/-- `LWL` and `LWR`: `merge` makes the new value from the low-order bits of the address, the old value
of the register and the one that has been read. -/
def loadPart (mem : MemorySystem σ) (instr : Instruction) (merge : CInt → CInt → CInt → CInt)
    (pcAfter : CInt) : Comp Ending (State σ) Next := do
  let tmp := (← reg instr.rs) + instr.extra
  if tmp &&& 0x3 = 0 then
    let value ← readMem mem tmp 4
    let nextLoadValue ← oldValue instr
    return ⟨pcAfter, BitVec.ofNat 32 instr.rt, merge (tmp &&& 0x3) nextLoadValue value⟩
  else abort

/-- Stores of the sizes 1, 2 and 4. -/
def store (mem : MemorySystem σ) (instr : Instruction) (size : ℕ) (pcAfter : CInt) :
    Comp Ending (State σ) Next := do
  let addr := (← reg instr.rs) + instr.extra
  writeMem mem addr size (← reg instr.rt)
  return .pc pcAfter

/-- `SWL` and `SWR`: `merge` makes the word that is stored from the low-order bits of the address, the
word that is there and the register. -/
def storePart (mem : MemorySystem σ) (instr : Instruction) (merge : CInt → CInt → CInt → CInt)
    (pcAfter : CInt) : Comp Ending (State σ) Next := do
  let tmp := (← reg instr.rs) + instr.extra
  if tmp &&& 0x3 = 0 then
    let value ← readMem mem (tmp &&& ~~~0x3) 4
    writeMem mem (tmp &&& ~~~0x3) 4 (merge (tmp &&& 0x3) value (← reg instr.rt))
    return .pc pcAfter
  else abort

/-- `LB`, and `LH` with 16 bits: the sign of the low-order bits is extended. -/
def signed (sign mask value : CInt) : CInt :=
  if value &&& sign ≠ 0 then value ||| ~~~mask else value &&& mask

/-- The inner `switch` of `LWL`, on `tmp & 0x3`. -/
def mergeLWL (low nextLoadValue value : CInt) : CInt :=
  if low = 0 then value
  else if low = 1 then (nextLoadValue &&& 0xff) ||| (value <<< 8)
  else if low = 2 then (nextLoadValue &&& 0xffff) ||| (value <<< 16)
  else (nextLoadValue &&& 0xffffff) ||| (value <<< 24)

/-- The inner `switch` of `LWR`. -/
def mergeLWR (low nextLoadValue value : CInt) : CInt :=
  if low = 0 then (nextLoadValue &&& 0xffffff00) ||| (value.sshiftRight 24 &&& 0xff)
  else if low = 1 then (nextLoadValue &&& 0xffff0000) ||| (value.sshiftRight 16 &&& 0xffff)
  else if low = 2 then (nextLoadValue &&& 0xff000000) ||| (value.sshiftRight 8 &&& 0xffffff)
  else value

/-- The inner `switch` of `SWL`. -/
def mergeSWL (low value rt : CInt) : CInt :=
  if low = 0 then rt
  else if low = 1 then (value &&& 0xff000000) ||| (rt.sshiftRight 8 &&& 0xffffff)
  else if low = 2 then (value &&& 0xffff0000) ||| (rt.sshiftRight 16 &&& 0xffff)
  else (value &&& 0xffffff00) ||| (rt.sshiftRight 24 &&& 0xff)

/-- The inner `switch` of `SWR`. -/
def mergeSWR (low value rt : CInt) : CInt :=
  if low = 0 then (value &&& 0xffffff) ||| (rt <<< 24)
  else if low = 1 then (value &&& 0xffff) ||| (rt <<< 16)
  else if low = 2 then (value &&& 0xff) ||| (rt <<< 8)
  else rt

/-- The comparisons store 1 or 0. -/
def flag (b : Bool) : CInt := if b then 1 else 0

/-! ### `OneInstruction` -/

/-- The `switch` of `OneInstruction`. -/
def execute (mem : MemorySystem σ) (instr : Instruction) (pcAfter : CInt) :
    Comp Ending (State σ) Next :=
  match instr.opCode with
  | .add => do
    let rs ← reg instr.rs
    let rt ← reg instr.rt
    let sum := rs + rt
    if (rs ^^^ rt) &&& signBit = 0 ∧ (rs ^^^ sum) &&& signBit ≠ 0 then
      raise mem .overflowException 0
    else
      setReg instr.rd sum
      return .pc pcAfter
  | .addi => do
    let rs ← reg instr.rs
    let sum := rs + instr.extra
    if (rs ^^^ instr.extra) &&& signBit = 0 ∧ (instr.extra ^^^ sum) &&& signBit ≠ 0 then
      raise mem .overflowException 0
    else
      setReg instr.rt sum
      return .pc pcAfter
  | .addiu => do immediate instr (· + instr.extra); return .pc pcAfter
  | .addu => do threeRegisters instr (· + ·); return .pc pcAfter
  | .and => do threeRegisters instr (· &&& ·); return .pc pcAfter
  | .andi => do immediate instr (· &&& (instr.extra &&& 0xffff)); return .pc pcAfter
  | .beq => do branch instr ((← reg instr.rs) == (← reg instr.rt)) pcAfter
  | .bgezal => do
    link R31
    branchOn instr (fun rs => rs &&& signBit == 0) pcAfter
  | .bgez => branchOn instr (fun rs => rs &&& signBit == 0) pcAfter
  | .bgtz => branchOn instr (fun rs => (0 : CInt).slt rs) pcAfter
  | .blez => branchOn instr (fun rs => rs.sle 0) pcAfter
  | .bltzal => do
    link R31
    branchOn instr (fun rs => rs &&& signBit != 0) pcAfter
  | .bltz => branchOn instr (fun rs => rs &&& signBit != 0) pcAfter
  | .bne => do branch instr ((← reg instr.rs) != (← reg instr.rt)) pcAfter
  | .div => do
    let rs ← reg instr.rs
    let rt ← reg instr.rt
    if rt = 0 then
      setReg LoReg 0
      setReg HiReg 0
    else if rs = signBit ∧ rt = -1 then abort
    else
      setReg LoReg (rs.sdiv rt)
      setReg HiReg (rs.srem rt)
    return .pc pcAfter
  | .divu => do
    let rs ← reg instr.rs
    let rt ← reg instr.rt
    if rt = 0 then
      setReg LoReg 0
      setReg HiReg 0
    else
      setReg LoReg (rs / rt)
      setReg HiReg (rs % rt)
    return .pc pcAfter
  | .jal => do
    link R31
    return .pc ((pcAfter &&& 0xf0000000) ||| indexToAddr instr.extra)
  | .j => return .pc ((pcAfter &&& 0xf0000000) ||| indexToAddr instr.extra)
  | .jalr => do
    link instr.rd
    return .pc (← reg instr.rs)
  | .jr => do return .pc (← reg instr.rs)
  | .lb => load mem instr 1 (signed 0x80 0xff) pcAfter
  | .lbu => load mem instr 1 (· &&& 0xff) pcAfter
  | .lh => load mem instr 2 (signed 0x8000 0xffff) pcAfter
  | .lhu => load mem instr 2 (· &&& 0xffff) pcAfter
  | .lui => do setReg instr.rt (instr.extra <<< 16); return .pc pcAfter
  | .lw => load mem instr 4 id pcAfter
  | .lwl => loadPart mem instr mergeLWL pcAfter
  | .lwr => loadPart mem instr mergeLWR pcAfter
  | .mfhi => do move instr.rd HiReg; return .pc pcAfter
  | .mflo => do move instr.rd LoReg; return .pc pcAfter
  | .mthi => do move HiReg instr.rs; return .pc pcAfter
  | .mtlo => do move LoReg instr.rs; return .pc pcAfter
  | .mult => do
    let (hi, lo) := mult (← reg instr.rs) (← reg instr.rt) true
    setHiLo hi lo
    return .pc pcAfter
  | .multu => do
    let (hi, lo) := mult (← reg instr.rs) (← reg instr.rt) false
    setHiLo hi lo
    return .pc pcAfter
  | .nor => do threeRegisters instr (fun rs rt => ~~~(rs ||| rt)); return .pc pcAfter
  | .or => do
    -- `registers[rs] | registers[rs]`
    setReg instr.rd ((← reg instr.rs) ||| (← reg instr.rs))
    return .pc pcAfter
  | .ori => do immediate instr (· ||| (instr.extra &&& 0xffff)); return .pc pcAfter
  | .sb => store mem instr 1 pcAfter
  | .sh => store mem instr 2 pcAfter
  | .sll => do shift instr (· <<< instr.extra.toNat); return .pc pcAfter
  | .sllv => do threeRegisters instr (fun rs rt => rt <<< (rs &&& 0x1f).toNat); return .pc pcAfter
  | .slt => do threeRegisters instr (fun rs rt => flag (rs.slt rt)); return .pc pcAfter
  | .slti => do immediate instr (fun rs => flag (rs.slt instr.extra)); return .pc pcAfter
  | .sltiu => do immediate instr (fun rs => flag (rs.ult instr.extra)); return .pc pcAfter
  | .sltu => do threeRegisters instr (fun rs rt => flag (rs.ult rt)); return .pc pcAfter
  | .sra => do shift instr (·.sshiftRight instr.extra.toNat); return .pc pcAfter
  | .srav => do
    threeRegisters instr (fun rs rt => rt.sshiftRight (rs &&& 0x1f).toNat)
    return .pc pcAfter
  -- `tmp` is an `int`, so these shifts are arithmetic as well
  | .srl => do shift instr (·.sshiftRight instr.extra.toNat); return .pc pcAfter
  | .srlv => do
    threeRegisters instr (fun rs rt => rt.sshiftRight (rs &&& 0x1f).toNat)
    return .pc pcAfter
  | .sub => do
    let rs ← reg instr.rs
    let rt ← reg instr.rt
    let diff := rs - rt
    if (rs ^^^ rt) &&& signBit ≠ 0 ∧ (rs ^^^ diff) &&& signBit ≠ 0 then
      raise mem .overflowException 0
    else
      setReg instr.rd diff
      return .pc pcAfter
  | .subu => do threeRegisters instr (· - ·); return .pc pcAfter
  | .sw => store mem instr 4 pcAfter
  | .swl => storePart mem instr mergeSWL pcAfter
  | .swr => storePart mem instr mergeSWR pcAfter
  | .syscall => raise mem .syscallException 0
  | .xor => do threeRegisters instr (· ^^^ ·); return .pc pcAfter
  | .xori => do immediate instr (· ^^^ (instr.extra &&& 0xffff)); return .pc pcAfter
  | .res => raise mem .illegalInstrException 0
  | .unimp => raise mem .illegalInstrException 0

/-- The end of `OneInstruction`: the delayed load, and the program counters. -/
def complete (next : Next) : Comp Ending (State σ) Unit := do
  delayedLoad next.nextLoadReg next.nextLoadValue
  setReg PrevPCReg (← reg PCReg)
  setReg PCReg (← reg NextPCReg)
  setReg NextPCReg next.pcAfter

/-- `OneInstruction` -/
def oneInstruction (mem : MemorySystem σ) : Comp Ending (State σ) Unit := do
  let raw ← readMem mem (← reg PCReg) 4
  let pcAfter := (← reg NextPCReg) + 4
  let next ← execute mem (decode raw) pcAfter
  complete next

end Nachos.Mips
