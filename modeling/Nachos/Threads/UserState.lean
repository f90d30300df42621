import Nachos.Lib.Transition
import Nachos.Machine.Mipssim

/-!
# User registers across context switches (`threads/scheduler.cc`, `thread.cc`, `userprog/progtest.cc`)

The machine has one set of registers, and every thread a copy for the time in which it does not run.
`Scheduler::Run` is cut at `SWITCH`: up to it the old thread saves the registers, if it has an address
space; after it the new one deletes the thread that has finished and restores its own.  A thread that
runs for the first time does not come out of `Run`, it starts in `ThreadRoot`.

Which thread is next is left open, and so is what a running thread does to the registers.  `Run` is
called with interrupts off, so a handler is called before it or after it, on behalf of whatever thread
is current, and when that waits in `Idle`.
-/

namespace Nachos.UserState

open Mips

/-- Where a thread is. -/
inductive Place where
  /-- The object does not exist. -/
  | absent
  /-- Created, and not forked yet. -/
  | created
  /-- To be started in `ThreadRoot`. -/
  | forked
  | running
  /-- In `Run`, before `SWITCH` has returned. -/
  | switched
  /-- In `Run`, after `SWITCH`. -/
  | resumed
  deriving DecidableEq

structure State (τ : Type) where
  /-- `machine->registers` -/
  registers : Registers
  userRegisters : τ → Registers
  /-- `space != NULL` -/
  space : τ → Bool
  place : τ → Place
  currentThread : τ
  threadToBeDestroyed : Option τ

/-- `SaveUserState`: `userRegisters[i] = machine->ReadRegister(i)`, for all registers. -/
def saveUserState (userRegisters registers : Registers) : Registers :=
  (List.finRange NumTotalRegs).foldl (fun u i => Function.update u i (registers i)) userRegisters

/-- `RestoreUserState`: `machine->WriteRegister(i, userRegisters[i])`, for all registers. -/
def restoreUserState (userRegisters registers : Registers) : Registers :=
  (List.finRange NumTotalRegs).foldl (fun r i => Function.update r i (userRegisters i)) registers

inductive Action (τ : Type) where
  /-- The current thread runs its program, or calls `InitRegisters`. -/
  | execute (registers : Registers)
  /-- `CheckIfDue` calls `DelayedLoad(0, 0)` and a handler. -/
  | interrupt
  /-- `new Thread` -/
  | newThread (t : τ)
  /-- The assignment to `space` in `StartProcess`, for the current thread or for a new one. -/
  | setSpace (t : τ)
  | fork (t : τ)
  /-- `threadToBeDestroyed = currentThread` -/
  | finish (t : τ)
  /-- `t` calls `Run(next)`, up to `SWITCH`. -/
  | enter (t next : τ)
  /-- The rest of `Run`, for `t`. -/
  | leave (t : τ)

variable {τ : Type} [DecidableEq τ]

namespace State

/-- `delete threadToBeDestroyed`; the destructor asserts that it is not the current thread. -/
def deleteThread (s : State τ) : Option (State τ) :=
  match s.threadToBeDestroyed with
  | none => some s
  | some d =>
    if d = s.currentThread then none
    else some { s with place := Function.update s.place d .absent, threadToBeDestroyed := none }

/-- `SWITCH`: the next thread comes out of its `SWITCH`, or starts in `ThreadRoot`. -/
def switchTo (s : State τ) (next : τ) : Option (State τ) :=
  match s.place next with
  | .switched =>
    some { s with place := Function.update s.place next .resumed, currentThread := next }
  | .forked =>
    some { s with place := Function.update s.place next .running, currentThread := next }
  | _ => none

def step (s : State τ) : Action τ → Option (State τ)
  | .execute registers =>
    if s.place s.currentThread = .running then some { s with registers } else none
  | .interrupt =>
    if s.place s.currentThread = .running then do
      let (_, s') ← delayedLoad 0 0 (⟨s.registers, ()⟩ : Mips.State Unit)
      return { s with registers := s'.registers }
    else none
  | .newThread t =>
    if s.place s.currentThread = .running ∧ s.place t = .absent then
      some { s with
        place := Function.update s.place t .created
        space := Function.update s.space t false }
    else none
  | .setSpace t =>
    if s.place s.currentThread = .running ∧ (t = s.currentThread ∨ s.place t = .created) then
      some { s with space := Function.update s.space t true }
    else none
  | .fork t =>
    if s.place s.currentThread = .running ∧ s.place t = .created then
      some { s with place := Function.update s.place t .forked }
    else none
  | .finish t =>
    if t = s.currentThread ∧ s.place t = .running then some { s with threadToBeDestroyed := some t }
    else none
  | .enter t next =>
    -- a thread that has finished is not ready to run
    if t = s.currentThread ∧ s.place t = .running ∧ s.threadToBeDestroyed ≠ some next then
      let userRegisters :=
        if s.space t then
          Function.update s.userRegisters t (saveUserState (s.userRegisters t) s.registers)
        else s.userRegisters
      switchTo { s with userRegisters, place := Function.update s.place t .switched } next
    else none
  | .leave t =>
    if t = s.currentThread ∧ s.place t = .resumed then do
      let s ← s.deleteThread
      let registers :=
        if s.space t then restoreUserState (s.userRegisters t) s.registers else s.registers
      return { s with registers, place := Function.update s.place t .running }
    else none

end State

/-- The runs from the first thread, which has no address space yet. -/
def system (main : τ) : Transition.System (State τ) (Action τ) where
  init s := s.currentThread = main ∧ s.threadToBeDestroyed = none ∧ s.space main = false ∧
    s.place = Function.update (fun _ => .absent) main .running
  step s a s' := s.step a = some s'

end Nachos.UserState
