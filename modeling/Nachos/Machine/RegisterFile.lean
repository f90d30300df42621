import Nachos.Lib.Transition
import Nachos.Machine.R2000
import Nachos.Machine.Robust
import Nachos.Userprog.Execution

/-!
# The registers over a run (`machine/mipssim.cc`, `machine/machine.cc`, `userprog/addrspace.cc`)

A program runs from `InitRegisters` on: instructions and, between them, interrupts, which call
`DelayedLoad(0, 0)`.  An `Environment` is everything else.  An access to memory has data or an exception
as its outcome.  An exception handler returns, or the program does not go on; it may change registers,
but neither register 0 nor `LoadReg`.  The handler of the kernel changes none (`Environment.kernel`).

The index of a register in an instruction has five bits.  The one index that is computed is
`registers[LoadReg]`, and a write outside `registers` aborts, see `delayedLoad`.
-/

namespace Nachos.Mips

open Coupling Comp Paging

abbrev StackReg : Register := 29

/-- `InitRegisters`, with what has been in the registers. -/
def initRegisters (numPages : CInt) (registers : Registers) : Registers :=
  let registers := (List.finRange NumTotalRegs).foldl (fun r i => Function.update r i 0) registers
  let registers := Function.update registers PCReg 0
  let registers := Function.update registers NextPCReg 4
  Function.update registers StackReg (numPages * BitVec.ofNat 32 PageSize - 16)

variable {σ : Type}

/-! ### The rest of the machine, and the kernel -/

/-- Memory and exception handlers. -/
structure Environment (σ : Type) where
  access : σ → Access → Except ExceptionType (Option CInt × σ)
  handler : ExceptionType → State σ → Except Ending (State σ)
  spares : ∀ which s s', handler which s = .ok s' →
    s'.registers 0 = s.registers 0 ∧ s'.registers LoadReg = s.registers LoadReg

/-- The environment as `OneInstruction` sees it. -/
def Environment.memory (env : Environment σ) : MemorySystem σ where
  access m access := some (env.access m access)
  pageFault _ _ := none
  handler which s :=
    match env.handler which s with
    | .ok s' => some (.ok (), s')
    | .error e => some (.error e, s)

/-- The handler of the kernel; a failed `ASSERT` is the end. -/
def kernelHandler (pageFault : σ → CInt → Option σ) (which : ExceptionType) (s : State σ) :
    Except Ending (State σ) :=
  match exceptionHandler pageFault which s with
  | none => .error .halt
  | some (.error e, _) => .error e
  | some (.ok (), s') => .ok s'

/-- A handler that ends the thread has changed nothing, one that returns no register. -/
theorem exceptionHandler_cases {pageFault : σ → CInt → Option σ} {which : ExceptionType}
    {e : Except Ending Unit} {s s' : State σ} (h : exceptionHandler pageFault which s = some (e, s')) :
    (∃ ending, e = .error ending ∧ s' = s) ∨ e = .ok () ∧ s'.registers = s.registers := by
  cases which with
  | syscallException =>
    change (if s.registers 2 = scHalt then stop .halt else if s.registers 2 = scExit then stop .finish
      else abort : Comp Ending (State σ) Unit) s = _ at h
    split_ifs at h
    · cases h
      exact Or.inl ⟨_, rfl, rfl⟩
    · cases h
      exact Or.inl ⟨_, rfl, rfl⟩
    · cases h
  | pageFaultException =>
    change servePageFault pageFault (s.registers BadVAddrReg) s = _ at h
    obtain ⟨m, -, hm⟩ := Option.map_eq_some_iff.mp h
    cases hm
    exact Or.inr ⟨rfl, rfl⟩
  | _ => cases h

theorem kernelHandler_spares (pageFault : σ → CInt → Option σ) (which : ExceptionType) (s s' : State σ)
    (h : kernelHandler pageFault which s = .ok s') :
    s'.registers 0 = s.registers 0 ∧ s'.registers LoadReg = s.registers LoadReg := by
  have hrun : exceptionHandler pageFault which s = some (.ok (), s') := by
    unfold kernelHandler at h
    split at h
    · cases h
    · cases h
    · cases h
      assumption
  rcases exceptionHandler_cases hrun with ⟨ending, hending, -⟩ | ⟨-, hregisters⟩
  · cases hending
  · rw [hregisters]
    exact ⟨rfl, rfl⟩

/-- The kernel, with any memory and any page fault handler. -/
def Environment.kernel (access : σ → Access → Except ExceptionType (Option CInt × σ))
    (pageFault : σ → CInt → Option σ) : Environment σ where
  access := access
  handler := kernelHandler pageFault
  spares := kernelHandler_spares pageFault

/-! ### Instructions and the pending load -/

/-- The memory with another exception handler. -/
def MemorySystem.handledBy (mem : MemorySystem σ) (handler : ExceptionType → Comp Ending (State σ) Unit) :
    MemorySystem σ :=
  { mem with handler }

/-- The instructions that load a register. -/
def OpCode.isLoad : OpCode → Bool
  | .lb | .lbu | .lh | .lhu | .lw | .lwl | .lwr => true
  | _ => false

/-- `nextLoadReg` after the `switch`. -/
def Instruction.nextLoadReg (instr : Instruction) : CInt :=
  if instr.opCode.isLoad then BitVec.ofNat 32 instr.rt else 0

/-- What an instruction does with the load that is pending before it, whatever the handler is. -/
inductive Delays (mem : MemorySystem σ) (s : State σ) : Prop where
  /-- The instruction completes without an exception.  During the `switch` registers have their old
  values, but for those it writes itself; the load shows afterwards, and a load of this instruction is
  pending. -/
  | completed (word : CInt) (s₁ : State σ) (next : Next) (s₂ s' : State σ)
      (fetch : ∀ handler, readMem (mem.handledBy handler) (s.registers PCReg) 4 s = some (.ok word, s₁))
      (switch : ∀ handler, execute (mem.handledBy handler) (decode word) (s₁.registers NextPCReg + 4) s₁ =
        some (.ok next, s₂))
      (before : ∀ i : Fin NumGPRegs, ↑i ∉ (decode word).writes → s₂.registers i = s.registers i)
      (pending : s₂.registers LoadReg = s.registers LoadReg ∧
        s₂.registers LoadValueReg = s.registers LoadValueReg)
      (run : ∀ handler, oneInstruction (mem.handledBy handler) s = some (.ok (), s'))
      (after : ∀ i : Fin NumGPRegs, s'.registers i = afterLoad s₂.registers i)
      (nextLoad : s'.registers LoadReg = next.nextLoadReg ∧
        s'.registers LoadValueReg = next.nextLoadValue ∧
        next.nextLoadReg = (decode word).nextLoadReg)
  /-- An exception is raised.  Nothing has been written until then, and in the handler the load shows;
  none is pending. -/
  | exception (which : ExceptionType) (s' : State σ)
      (rest : (ExceptionType → Comp Ending (State σ) Unit) → Comp Ending (State σ) Unit)
      (run : ∀ handler, oneInstruction (mem.handledBy handler) s =
        (do handler which; rest handler : Comp Ending (State σ) Unit) s')
      (after : ∀ i : Fin NumGPRegs, s'.registers i = afterLoad s.registers i)
      (none : s'.registers LoadReg = 0)
  /-- The simulator stops. -/
  | stopped (run : ∀ handler, oneInstruction (mem.handledBy handler) s = none)

/-- After an interrupt the load shows, and none is pending. -/
def DelaysUntilInterrupt (s : State σ) : Prop :=
  ∃ s', delayedLoad 0 0 s = some (.ok (), s') ∧ s'.registers LoadReg = 0 ∧
    ∀ i : Fin NumGPRegs, s'.registers i = afterLoad s.registers i

/-! ### Runs -/

structure WellFormed (r : Registers) : Prop where
  zero : r 0 = 0
  loadReg : 0 ≤ (r LoadReg).toInt ∧ (r LoadReg).toInt ≤ 31

/-- Nothing is written outside `registers`: an instruction stops the simulator only by the `ASSERT` of
`LWL`, `LWR`, `SWL` and `SWR` or by a quotient that is not an `int`, before it has written anything, and
an interrupt does not. -/
structure InBounds (env : Environment σ) (s : State σ) : Prop where
  instruction : oneInstruction env.memory s = none →
    ∃ word s₁, readMem env.memory (s.registers PCReg) 4 s = some (.ok word, s₁) ∧
      ((decode word).unaligned s₁.registers = true ∨
        (decode word).opCode = .div ∧ s₁.registers (decode word).rs = signBit ∧
          s₁.registers (decode word).rt = -1)
  interrupt : (delayedLoad 0 0 s).isSome

inductive Event (σ : Type) where
  /-- `OneInstruction` returns. -/
  | instruction
  /-- `DelayedLoad(0, 0)`; other threads may run before the program goes on. -/
  | interrupt (memory : σ)

/-- The runs of a program. -/
def runs (env : Environment σ) (numPages : CInt) : Transition.System (State σ) (Event σ) where
  init s := ∃ registers, s.registers = initRegisters numPages registers
  step s e s' :=
    match e with
    | .instruction => oneInstruction env.memory s = some (.ok (), s') ∨
        oneInstruction env.memory s = some (.error .returned, s')
    | .interrupt memory => ∃ s₁, delayedLoad 0 0 s = some (.ok (), s₁) ∧ s' = { s₁ with memory }

end Nachos.Mips
