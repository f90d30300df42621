import Mathlib.Data.Set.Lattice
import Mathlib.Order.CompletePartialOrder
import Nachos.Lib.I386
import Nachos.Lib.Transition

/-!
# Switching between kernel threads (`threads/switch.c`, `threads/thread.cc`)

`SWITCH` and `ThreadRoot` as they are for the i386, and `StackAllocate`, which makes a thread look as if
it had called `SWITCH`.

A `World` is the processor with the threads that share it.  The thread that runs changes registers and
memory as it likes, up to the words that other threads will be resumed from (`live`); it gives a new
thread a stack; it calls `SWITCH`; and it deletes threads.  `context` is not part of the machine: it
remembers how the caller of `SWITCH` expects to go on, which is at the return address, with the registers
as they were.
-/

namespace Nachos.Switch

open I386

/-- Where a register is in a thread object (`_ESP`, `_EAX`, … of `switch.h`). -/
def offset : Reg → Word
  | .esp => 0
  | .eax => 4
  | .ebx => 8
  | .ecx => 12
  | .edx => 16
  | .ebp => 20
  | .esi => 24
  | .edi => 28

/-- `_PC` -/
def pcOffset : Word := 32

/-- `SWITCH`, with the address of `_eax_save`. -/
def switchCode (eaxSave : Word) : List Instr := [
  .storeName .eax eaxSave,
  .load 4 .esp .eax,
  .store .ebx (offset .ebx) .eax,
  .store .ecx (offset .ecx) .eax,
  .store .edx (offset .edx) .eax,
  .store .esi (offset .esi) .eax,
  .store .edi (offset .edi) .eax,
  .store .ebp (offset .ebp) .eax,
  .store .esp (offset .esp) .eax,
  .loadName eaxSave .ebx,
  .store .ebx (offset .eax) .eax,
  .load 0 .esp .ebx,
  .store .ebx pcOffset .eax,
  .load 8 .esp .eax,
  .load (offset .eax) .eax .ebx,
  .storeName .ebx eaxSave,
  .load (offset .ebx) .eax .ebx,
  .load (offset .ecx) .eax .ecx,
  .load (offset .edx) .eax .edx,
  .load (offset .esi) .eax .esi,
  .load (offset .edi) .eax .edi,
  .load (offset .ebp) .eax .ebp,
  .load (offset .esp) .eax .esp,
  .load pcOffset .eax .eax,
  .store .eax 4 .esp,
  .loadName eaxSave .eax,
  .ret]

/-- `ThreadRoot`.  `InitialArg` is `%edx`, `StartupPC` is `%ecx`, `InitialPC` is `%esi`, and `WhenDonePC`
is `%edi`. -/
def threadRootCode : List Instr := [
  .push .ebp,
  .move .esp .ebp,
  .push .edx,
  .call .ecx,
  .call .esi,
  .call .edi,
  .move .ebp .esp,
  .pop .ebp,
  .ret]

/-- The addresses of the routines, and of `_eax_save`. -/
structure Symbols where
  switch : Word
  threadRoot : Word
  interruptEnable : Word
  threadFinish : Word
  eaxSave : Word

/-! ### `StackAllocate` -/

/-- The size of a stack, in words. -/
abbrev StackSize : ℕ := 4 * 1024

def stackFencepost : Word := 0xdeadbeef

abbrev PCState : ℕ := 32 / 4 - 1
abbrev InitialPCState : ℕ := 24 / 4 - 1
abbrev InitialArgState : ℕ := 16 / 4 - 1
abbrev WhenDonePCState : ℕ := 28 / 4 - 1
abbrev StartupPCState : ℕ := 12 / 4 - 1

/-- `&machineState[i]`; `machineState` follows `stackTop`, the first member. -/
def machineState (thread : Word) (i : ℕ) : Word := index (thread + 4) i

/-- `thread->StackAllocate(func, arg)`, when the new stack is at `stack`. -/
def stackAllocate (sym : Symbols) (thread stack func arg : Word) (mem : Word → Word) : Word → Word :=
  let stackTop := index stack (StackSize - 4) - 4
  let mem := Function.update mem thread stackTop
  let mem := Function.update mem stackTop sym.threadRoot
  let mem := Function.update mem stack stackFencepost
  let mem := Function.update mem (machineState thread PCState) sym.threadRoot
  let mem := Function.update mem (machineState thread StartupPCState) sym.interruptEnable
  let mem := Function.update mem (machineState thread InitialPCState) func
  let mem := Function.update mem (machineState thread InitialArgState) arg
  Function.update mem (machineState thread WhenDonePCState) sym.threadFinish

/-! ### Threads on one processor -/

/-- The words of a thread object that hold the state of a thread that does not run. -/
def saved (thread : Word) : Set Word :=
  {thread, thread + 4, thread + 8, thread + 12, thread + 16, thread + 20, thread + 24, thread + 28,
    thread + 32}

/-- Where things are in memory: `thread t` is the thread object of `t`, and `stack t` are the words of its
stack. -/
structure Layout (τ : Type) (sym : Symbols) where
  thread : τ → Word
  stack : τ → Set Word
  aligned_eaxSave : Aligned sym.eaxSave
  aligned_thread : ∀ t, Aligned (thread t)
  aligned_stack : ∀ t, ∀ a ∈ stack t, Aligned a
  disjoint_threads : ∀ t u, t ≠ u → Disjoint (saved (thread t)) (saved (thread u))
  disjoint_stacks : ∀ t u, t ≠ u → Disjoint (stack t) (stack u)
  disjoint_stack_thread : ∀ t u, Disjoint (stack t) (saved (thread u))
  eaxSave_notMem_saved : ∀ t, sym.eaxSave ∉ saved (thread t)
  eaxSave_notMem_stack : ∀ t, sym.eaxSave ∉ stack t

/-- How a thread goes on. -/
structure Context where
  regs : Reg → Word
  eip : Word

structure World (τ : Type) where
  cpu : State
  current : τ
  /-- The threads that do not run, and have been given a stack. -/
  context : τ → Option Context

/-- How the caller of a routine goes on, when the routine is entered in `s`. -/
def leaving (s : State) : Context :=
  ⟨Function.update s.regs .esp (s.regs .esp + 4), s.mem (s.regs .esp)⟩

/-- How a thread with a new stack goes on; the other registers are what its object happens to hold. -/
def starting (sym : Symbols) (thread stack func arg : Word) (mem : Word → Word) : Context where
  regs
    | .esp => index stack (StackSize - 4)
    | .ecx => sym.interruptEnable
    | .edx => arg
    | .esi => func
    | .edi => sym.threadFinish
    | r => mem (thread + offset r)
  eip := sym.threadRoot

variable {τ : Type} {sym : Symbols}

/-- The words from which threads will be resumed. -/
def live (L : Layout τ sym) (w : World τ) : Set Word :=
  {a | ∃ t c, w.context t = some c ∧ (a ∈ saved (L.thread t) ∨ a = c.regs .esp - 4)}

/-- The current thread has just called `SWITCH(currentThread, t)`, on its own stack.  It may be `t`
itself, when it is put on the ready list while it waits for a thread to run in `Sleep`. -/
structure Calls (L : Layout τ sym) (w : World τ) (t : τ) : Prop where
  eip : w.cpu.eip = sym.switch
  returnAddress : w.cpu.regs .esp ∈ L.stack w.current
  t1 : w.cpu.regs .esp + 4 ∈ L.stack w.current
  t2 : w.cpu.regs .esp + 8 ∈ L.stack w.current
  oldThread : w.cpu.mem (w.cpu.regs .esp + 4) = L.thread w.current
  newThread : w.cpu.mem (w.cpu.regs .esp + 8) = L.thread t
  suspended : t ≠ w.current → (w.context t).isSome

inductive Event (τ : Type) where
  | compute
  | fork (t : τ) (stack func arg : Word)
  | switch (t : τ)
  /-- `delete t`, for a thread that will not be resumed. -/
  | delete (t : τ)

/-- What the running thread can do. -/
inductive Step [DecidableEq τ] (text : Text) (L : Layout τ sym) (w : World τ) :
    Event τ → World τ → Prop where
  | compute (cpu : State) (hlive : ∀ a ∈ live L w, cpu.mem a = w.cpu.mem a) :
      Step text L w .compute { w with cpu := cpu }
  | fork (t : τ) (stack func arg : Word) (hne : t ≠ w.current) (hcontext : w.context t = none)
      (hstack : ∀ k < StackSize, index stack k ∈ L.stack t) :
      Step text L w (.fork t stack func arg)
        { w with
          cpu.mem := stackAllocate sym (L.thread t) stack func arg w.cpu.mem
          context := Function.update w.context t
            (some (starting sym (L.thread t) stack func arg w.cpu.mem)) }
  | switch (t : τ) (cpu : State) (hcalls : Calls L w t)
      (hrun : runFor text (switchCode sym.eaxSave).length w.cpu = some cpu) :
      Step text L w (.switch t)
        ⟨cpu, t, Function.update (Function.update w.context w.current (some (leaving w.cpu))) t none⟩
  | delete (t : τ) :
      Step text L w (.delete t) { w with context := Function.update w.context t none }

/-- Runs that begin with one thread. -/
def system [DecidableEq τ] (text : Text) (L : Layout τ sym) :
    Transition.System (World τ) (Event τ) where
  init w := ∀ t, w.context t = none
  step := Step text L

end Nachos.Switch
