import Mathlib.Data.Int.Order.Basic
import Nachos.Lib.Agenda
import Nachos.Lib.Transition
import Nachos.Threads.Kernel

/-!
# Simulated time and interrupts (`machine/interrupt.cc`, `machine/stats.h`)

`Schedule` puts an interrupt on the list `pending`, which `SortedInsert` and `SortedRemove` keep
sorted by the time of the interrupt (the key is always the field `when`).  `CheckIfDue` takes the
first one from the list and calls its handler, if its time has come.  Ticks are integers that do not
overflow.

The handlers, named by `η`, are a parameter.  A handler may do anything with the rest of the machine
and the kernel, `σ`, and calls `Schedule` and `YieldOnReturn` as it likes; it does not turn interrupts
on.  `none` stands for a failed `ASSERT`, and for a loop that has used up its fuel.

`scheduled` and `fired` are a history: the interrupts that `Schedule` has been called for, and those
whose handlers have been called, with the statistics at the call.
-/

namespace Nachos

inductive MachineStatus where
  | idleMode
  | systemMode
  | userMode
  deriving DecidableEq

inductive IntType where
  | timerInt
  | diskInt
  | consoleWriteInt
  | consoleReadInt
  | networkSendInt
  | networkRecvInt
  deriving DecidableEq

abbrev UserTick : ℤ := 1

abbrev SystemTick : ℤ := 10

/-- The part of `class Statistics` that is about time. -/
structure Statistics where
  totalTicks : ℤ
  idleTicks : ℤ
  systemTicks : ℤ
  userTicks : ℤ

structure PendingInterrupt (η : Type) where
  handler : η
  arg : ℤ
  when : ℤ
  type : IntType

structure Interrupt (η : Type) where
  level : IntStatus
  pending : Agenda (PendingInterrupt.when (η := η))
  inHandler : Bool
  yieldOnReturn : Bool
  status : MachineStatus

/-- A call of a handler. -/
structure Firing (η : Type) where
  stats : Statistics
  interrupt : PendingInterrupt η

/-- The simulation with its history. -/
structure Simulation (η σ : Type) where
  interrupt : Interrupt η
  stats : Statistics
  rest : σ
  scheduled : List (PendingInterrupt η)
  fired : List (Firing η)

/-- What a handler asks of the simulation. -/
inductive Request (η : Type) where
  | schedule (handler : η) (arg fromNow : ℤ) (type : IntType)
  | yieldOnReturn

/-- The interrupt lies in the future. -/
def Request.Positive {η : Type} : Request η → Prop
  | .schedule _ _ fromNow _ => 0 < fromNow
  | .yieldOnReturn => True

/-- The code of the handlers, and `DelayedLoad(0, 0)`, which is called first. -/
structure Handlers (η σ : Type) where
  call : η → ℤ → Simulation η σ → σ × List (Request η)
  positive : ∀ h arg s, ∀ r ∈ (call h arg s).2, r.Positive
  delayedLoad : σ → σ

namespace Simulation

variable {η σ : Type}

/-- The constructors of `Interrupt` and `Statistics`. -/
def new (rest : σ) : Simulation η σ where
  interrupt := {
    level := .intOff
    pending := .empty
    inHandler := false
    yieldOnReturn := false
    status := .systemMode }
  stats := ⟨0, 0, 0, 0⟩
  rest := rest
  scheduled := []
  fired := []

def changeLevel (s : Simulation η σ) (now : IntStatus) : Simulation η σ :=
  { s with interrupt.level := now }

def setStatus (s : Simulation η σ) (st : MachineStatus) : Simulation η σ :=
  { s with interrupt.status := st }

def schedule (s : Simulation η σ) (handler : η) (arg fromNow : ℤ) (type : IntType) :
    Option (Simulation η σ) :=
  let toOccur := ⟨handler, arg, s.stats.totalTicks + fromNow, type⟩
  if fromNow > 0 then
    some { s with
      interrupt.pending := s.interrupt.pending.sortedInsert toOccur
      scheduled := s.scheduled ++ [toOccur] }
  else none

def yieldOnReturn (s : Simulation η σ) : Option (Simulation η σ) :=
  if s.interrupt.inHandler then some { s with interrupt.yieldOnReturn := true } else none

def perform (s : Simulation η σ) : Request η → Option (Simulation η σ)
  | .schedule handler arg fromNow type => s.schedule handler arg fromNow type
  | .yieldOnReturn => s.yieldOnReturn

def performAll (s : Simulation η σ) : List (Request η) → Option (Simulation η σ)
  | [] => some s
  | r :: l => do (← s.perform r).performAll l

/-- `CheckIfDue` just before the handler is called. -/
def enter (H : Handlers η σ) (s : Simulation η σ) (toOccur : PendingInterrupt η) : Simulation η σ :=
  { s with
    rest := H.delayedLoad s.rest
    interrupt.inHandler := true
    interrupt.status := .systemMode
    fired := s.fired ++ [⟨s.stats, toOccur⟩] }

/-- The end of `CheckIfDue`, where the handler is called. -/
def invoke (H : Handlers η σ) (s : Simulation η σ) (toOccur : PendingInterrupt η) :
    Option (Simulation η σ) := do
  let old := s.interrupt.status
  let s := s.enter H toOccur
  let (rest, requests) := H.call toOccur.handler toOccur.arg s
  let s ← performAll { s with rest } requests
  return { s with interrupt.status := old, interrupt.inHandler := false }

/-- `CheckIfDue` after the clock has been looked at; `toOccur` has been taken from the list. -/
def dispatch (H : Handlers η σ) (s : Simulation η σ) (toOccur : PendingInterrupt η) :
    Option (Bool × Simulation η σ) :=
  if s.interrupt.status = .idleMode ∧ toOccur.type = .timerInt ∧ s.interrupt.pending.entries = [] then
    some (false, { s with interrupt.pending := s.interrupt.pending.sortedInsert toOccur })
  else do
    let s ← s.invoke H toOccur
    return (true, s)

def checkIfDue (H : Handlers η σ) (s : Simulation η σ) (advanceClock : Bool) :
    Option (Bool × Simulation η σ) :=
  if s.interrupt.level = .intOff then
    match s.interrupt.pending.sortedRemove with
    | none => some (false, s)
    | some (toOccur, pending) =>
      let s := { s with interrupt.pending := pending }
      if advanceClock ∧ toOccur.when > s.stats.totalTicks then
        dispatch H { s with
          stats.idleTicks := s.stats.idleTicks + (toOccur.when - s.stats.totalTicks)
          stats.totalTicks := toOccur.when } toOccur
      else if toOccur.when > s.stats.totalTicks then
        -- not time yet, put it back
        some (false, { s with interrupt.pending := pending.sortedInsert toOccur })
      else
        dispatch H s toOccur
  else none

/-- `while (CheckIfDue(FALSE));` -/
def checkAll (H : Handlers η σ) : ℕ → Simulation η σ → Option (Simulation η σ)
  | 0, _ => none
  | fuel + 1, s => do
    let (fired, s) ← s.checkIfDue H false
    if fired then checkAll H fuel s else return s

/-- The start of `OneTick`. -/
def advance (s : Simulation η σ) : Simulation η σ :=
  if s.interrupt.status = .systemMode then
    { s with
      stats.totalTicks := s.stats.totalTicks + SystemTick
      stats.systemTicks := s.stats.systemTicks + SystemTick }
  else
    { s with
      stats.totalTicks := s.stats.totalTicks + UserTick
      stats.userTicks := s.stats.userTicks + UserTick }

/-- `OneTick` up to the call of `Yield`, and whether `Yield` is called.  When `Yield` returns, the
status is set back to what it was. -/
def oneTick (H : Handlers η σ) (fuel : ℕ) (s : Simulation η σ) : Option (Bool × Simulation η σ) := do
  let s := s.advance
  let s := s.changeLevel .intOff
  let s ← checkAll H fuel s
  let s := s.changeLevel .intOn
  if s.interrupt.yieldOnReturn then
    return (true, { s with interrupt.yieldOnReturn := false, interrupt.status := .systemMode })
  else
    return (false, s)

def setLevel (H : Handlers η σ) (fuel : ℕ) (s : Simulation η σ) (now : IntStatus) :
    Option (Bool × Simulation η σ) :=
  let old := s.interrupt.level
  if now = .intOff ∨ s.interrupt.inHandler = false then
    let s := s.changeLevel now
    if now = .intOn ∧ old = .intOff then s.oneTick H fuel else some (false, s)
  else none

/-- `Idle`, and whether it halts the machine. -/
def idle (H : Handlers η σ) (fuel : ℕ) (s : Simulation η σ) : Option (Bool × Simulation η σ) := do
  let s := s.setStatus .idleMode
  let (fired, s) ← s.checkIfDue H true
  if fired then
    let s ← checkAll H fuel s
    return (false, { s with interrupt.yieldOnReturn := false, interrupt.status := .systemMode })
  else
    return (true, s)

/-! ### Runs -/

inductive Op (η σ : Type) where
  | oneTick
  | setLevel (now : IntStatus)
  | schedule (handler : η) (arg fromNow : ℤ) (type : IntType)
  | idle
  /-- `setStatus`, by the machine and at the end of a `OneTick` that has yielded -/
  | setStatus (st : MachineStatus)
  /-- the machine and the kernel do something else -/
  | compute (rest : σ)

/-- The calls of the simulation by the threads, in any order; a step that halts the machine is the
last one. -/
def system (H : Handlers η σ) : Transition.System (Simulation η σ × Bool) (Op η σ) where
  init st := ∃ rest, st = (new rest, false)
  step st op st' := st.2 = false ∧
    match op with
    | .oneTick => ∃ fuel yield, st.1.oneTick H fuel = some (yield, st'.1) ∧ st'.2 = false
    | .setLevel now => ∃ fuel yield, st.1.setLevel H fuel now = some (yield, st'.1) ∧ st'.2 = false
    | .schedule handler arg fromNow type =>
      st.1.schedule handler arg fromNow type = some st'.1 ∧ st'.2 = false
    | .idle => ∃ fuel, st.1.idle H fuel = some (st'.2, st'.1)
    | .setStatus status => st' = (st.1.setStatus status, false)
    | .compute rest => st' = ({ st.1 with rest }, false)

end Simulation

end Nachos
