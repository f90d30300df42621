import Mathlib.Logic.Function.Basic
import Nachos.Lib.Transition
import Nachos.Threads.GlobalThreadManager
import Nachos.Threads.Semaphore

/-!
# The thread kernel (`threads/thread.cc`, `scheduler.cc`, `synch.cc`, `machine/interrupt.cc`)

One processor runs any number of threads.  A thread's control state is what is left of its own code
(`program`, a list of `Op`) and, while it is inside a kernel routine, what is left of the routine
(`kernel`, a list of `Instr`, innermost call first) with the values of the `oldLevel` variables on
its stack (`saved`).  The bodies of the routines are the lists below; a loop that goes round puts
itself back, and a call puts the callee's statements in front.

Interrupts are simulated: a handler runs only inside `OneTick`, which `SetLevel` calls when it turns
interrupts on and the machine calls after a user instruction, and inside `Idle`.  So the statements
between two such points are not interrupted, and a statement here may stand for several of them when
no routine is called in between.  Which interrupts are due at a tick is left open.

`Scheduler::Run` is cut at `SWITCH`: up to it the statement belongs to the old thread, the rest
(`reap`) is what the old thread finds to do when it is next resumed.  A thread that runs for the
first time starts in `ThreadRoot` instead.

The threads' own code is a parameter (`Program`): it acts on data of its own and expands into calls,
and so do the interrupt handlers, which may only call `V`.
-/

namespace Nachos

/-- `IntStatus` -/
inductive IntStatus where
  | intOff
  | intOn
  deriving DecidableEq

/-- `ThreadStatus` -/
inductive ThreadStatus where
  | justCreated
  | running
  | ready
  | blocked
  deriving DecidableEq

namespace Kernel

/-- The statements of the kernel's routines.  Threads are named by `τ`, semaphores by `σ`, locks by
`μ` (whose semaphores are `Sum.inr`), conditions by `κ`, and the threads' own code by `ξ`. -/
inductive Instr (τ σ μ κ ξ : Type) where
  /-- `oldLevel = interrupt->SetLevel(IntOff)` -/
  | disable
  /-- `interrupt->SetLevel(oldLevel)` -/
  | restore
  /-- `interrupt->Enable()` -/
  | enable
  /-- `(void) interrupt->SetLevel(IntOff)` of `Finish` -/
  | off
  /-- A handler called by `CheckIfDue`. -/
  | handle (x : ξ)
  /-- `ChangeLevel(IntOff, IntOn)` of `OneTick` -/
  | endTick
  /-- The loop of `Semaphore::P` and the decrement after it. -/
  | p (s : σ ⊕ μ)
  /-- The body of `Semaphore::V`. -/
  | v (s : σ ⊕ μ)
  /-- `heldthread = currentThread` of `Acquire` -/
  | assign (l : μ)
  /-- The test of `Release`, and `heldthread = NULL` when it succeeds. -/
  | release (l : μ)
  /-- `waitinglist->Append(currentThread)` of `Wait` -/
  | append (c : κ)
  /-- `interrupt->SetLevel(oldLevel)` of `Wait`, its last statement. -/
  | returnWait (c : κ)
  /-- The body of `Signal`. -/
  | signal (c : κ)
  /-- The loop of `Broadcast`. -/
  | broadcast (c : κ)
  /-- `Sleep` up to its loop: the check of the level and `status = BLOCKED`. -/
  | block
  /-- The loop of `Sleep` and `Run` up to `SWITCH`. -/
  | sleep
  /-- `Run` after `SWITCH`: the deletion of `threadToBeDestroyed`. -/
  | reap
  /-- The body of `Yield`, with `Run` up to `SWITCH`. -/
  | yield
  /-- `scheduler->ReadyToRun(this)` of `Fork` -/
  | ready (t : τ)
  /-- `threadToBeDestroyed = currentThread` of `Finish` -/
  | destroy
  deriving DecidableEq

/-- What the threads' own code can do next. -/
inductive Op (τ σ μ κ ξ : Type) where
  | p (s : σ)
  | v (s : σ)
  | acquire (l : μ)
  | release (l : μ)
  | wait (c : κ) (conditionLock : μ)
  | signal (c : κ)
  | broadcast (c : κ)
  | yield
  /-- `new Thread` -/
  | create (t : τ)
  /-- `t->Fork(func)` -/
  | fork (t : τ) (func : ξ)
  | finish
  /-- `OneTick` after a user instruction. -/
  | oneTick
  /-- A piece of code that is not a call into the kernel. -/
  | own (x : ξ)
  deriving DecidableEq

variable {τ σ μ κ ξ δ : Type}

/-! ### The bodies of the routines -/

namespace Instr

/-- `Semaphore::P` -/
def semaphoreP (s : σ ⊕ μ) : List (Instr τ σ μ κ ξ) := [.disable, .p s, .restore]

/-- `Semaphore::V` -/
def semaphoreV (s : σ ⊕ μ) : List (Instr τ σ μ κ ξ) := [.disable, .v s, .restore]

/-- `Lock::Acquire` -/
def lockAcquire (l : μ) : List (Instr τ σ μ κ ξ) := semaphoreP (.inr l) ++ [.assign l]

/-- `Thread::Sleep` -/
def threadSleep : List (Instr τ σ μ κ ξ) := [.block, .sleep]

/-- `Condition::Wait` -/
def conditionWait (c : κ) (conditionLock : μ) : List (Instr τ σ μ κ ξ) :=
  [.disable, .release conditionLock, .append c] ++ threadSleep ++ lockAcquire conditionLock ++
    [.returnWait c]

/-- `Condition::Signal` -/
def conditionSignal (c : κ) : List (Instr τ σ μ κ ξ) := [.disable, .signal c, .restore]

/-- `Condition::Broadcast` -/
def conditionBroadcast (c : κ) : List (Instr τ σ μ κ ξ) := [.disable, .broadcast c, .restore]

/-- `Thread::Yield` -/
def threadYield : List (Instr τ σ μ κ ξ) := [.disable, .yield, .restore]

/-- `Thread::Fork` after `StackAllocate`. -/
def threadFork (t : τ) : List (Instr τ σ μ κ ξ) := [.disable, .ready t, .restore]

/-- `Thread::Finish` -/
def threadFinish : List (Instr τ σ μ κ ξ) := [.off, .destroy] ++ threadSleep

/-- `Interrupt::OneTick`, when the handlers `due` are to be called and `timer` tells whether one of
them asked for a `Yield` on return. -/
def oneTick (due : List ξ) (timer : Bool) : List (Instr τ σ μ κ ξ) :=
  .disable :: (due.map .handle ++ .endTick :: if timer then threadYield else [])

end Instr

/-- The kernel's state, with a history: the threads created, finished and deleted so far, the
threads that went onto a waiting list and off it, in order, and how often a `Signal` has chosen a
thread since it last went onto one. -/
structure State (τ σ μ κ ξ δ : Type) where
  level : IntStatus
  currentThread : τ
  status : τ → ThreadStatus
  readyList : List τ
  /-- The semaphores; `Sum.inr l` is the member `lock` of the lock `l`. -/
  semaphore : σ ⊕ μ → Semaphore τ
  heldthread : μ → Option τ
  waitinglist : κ → List τ
  threadToBeDestroyed : Option τ
  globalThreadManager : GlobalThreadManager τ
  kernel : τ → List (Instr τ σ μ κ ξ)
  saved : τ → List IntStatus
  program : τ → List (Op τ σ μ κ ξ)
  data : δ
  created : τ → Bool
  finished : τ → Bool
  deleted : τ → Bool
  arrived : κ → List τ
  woken : κ → List τ
  chosen : τ → ℕ

/-- The threads' own code, and the interrupt handlers: what a piece of code can turn the data into,
and the calls it then makes. -/
structure Program (τ σ μ κ ξ δ : Type) where
  exec : τ → ξ → δ → δ → List (Op τ σ μ κ ξ) → Prop
  handle : ξ → δ → δ → List σ → Prop

namespace State

variable [DecidableEq τ] [DecidableEq σ] [DecidableEq μ] [DecidableEq κ]

/-- What is left of the routine the current thread is in. -/
def code (s : State τ σ μ κ ξ δ) : List (Instr τ σ μ κ ξ) := s.kernel s.currentThread

/-- The current thread has `k` left to do in the kernel. -/
def goto (s : State τ σ μ κ ξ δ) (k : List (Instr τ σ μ κ ξ)) : State τ σ μ κ ξ δ :=
  { s with kernel := Function.update s.kernel s.currentThread k }

/-- `Scheduler::ReadyToRun` -/
def readyToRun (s : State τ σ μ κ ξ δ) (t : τ) : State τ σ μ κ ξ δ :=
  { s with readyList := s.readyList ++ [t], status := Function.update s.status t .ready }

/-- `Scheduler::Run` up to `SWITCH`, for the thread that `FindNextToRun` took off the list. -/
def run (s : State τ σ μ κ ξ δ) (nextThread : τ) : State τ σ μ κ ξ δ :=
  { s with currentThread := nextThread, status := Function.update s.status nextThread .running }

/-- `Interrupt::SetLevel`, before the statements `k`: turning interrupts on calls `OneTick`. -/
def setLevel (s : State τ σ μ κ ξ δ) (now : IntStatus) (due : List ξ) (timer : Bool)
    (k : List (Instr τ σ μ κ ξ)) : State τ σ μ κ ξ δ :=
  { s.goto (if now = .intOn ∧ s.level = .intOff then Instr.oneTick due timer ++ k else k) with
    level := now }

/-- `SetLevel(oldLevel)`, for the innermost `oldLevel`; not reached with none on the stack. -/
def setOldLevel (s : State τ σ μ κ ξ δ) (due : List ξ) (timer : Bool)
    (k : List (Instr τ σ μ κ ξ)) : Option (State τ σ μ κ ξ δ) :=
  match s.saved s.currentThread with
  | oldLevel :: rest =>
    some { s.setLevel oldLevel due timer k with
      saved := Function.update s.saved s.currentThread rest }
  | [] => none

/-- One round of the loop of `P`. -/
def semP (s : State τ σ μ κ ξ δ) (x : σ ⊕ μ) (k : List (Instr τ σ μ κ ξ)) : State τ σ μ κ ξ δ :=
  { s.goto (if ((s.semaphore x).p s.currentThread).2 then k
      else Instr.threadSleep ++ .p x :: k) with
    semaphore := Function.update s.semaphore x ((s.semaphore x).p s.currentThread).1 }

/-- The body of `V`. -/
def semV (s : State τ σ μ κ ξ δ) (x : σ ⊕ μ) : State τ σ μ κ ξ δ :=
  match (s.semaphore x).v with
  | (y, some t) => { s.readyToRun t with semaphore := Function.update s.semaphore x y }
  | (y, none) => { s with semaphore := Function.update s.semaphore x y }

/-- The body of `Signal`. -/
def doSignal (s : State τ σ μ κ ξ δ) (c : κ) : State τ σ μ κ ξ δ :=
  match s.waitinglist c with
  | [] => s
  | next :: rest =>
    { s.readyToRun next with
      waitinglist := Function.update s.waitinglist c rest
      woken := Function.update s.woken c (s.woken c ++ [next])
      chosen := Function.update s.chosen next (s.chosen next + 1) }

/-- `waitinglist->Append(currentThread)` -/
def doAppend (s : State τ σ μ κ ξ δ) (c : κ) : State τ σ μ κ ξ δ :=
  { s with
    waitinglist := Function.update s.waitinglist c (s.waitinglist c ++ [s.currentThread])
    arrived := Function.update s.arrived c (s.arrived c ++ [s.currentThread])
    chosen := Function.update s.chosen s.currentThread 0 }

/-- `Run` after `SWITCH`. -/
def doReap (s : State τ σ μ κ ξ δ) : State τ σ μ κ ξ δ :=
  match s.threadToBeDestroyed with
  | some t =>
    { s with
      threadToBeDestroyed := none
      globalThreadManager := s.globalThreadManager.removeThreadFromList t
      deleted := Function.update s.deleted t true }
  | none => s

/-- One round of the loop of `Sleep`.  With nobody to run, `Idle` calls the handlers that are due and
the loop goes round; otherwise `Run` switches to the head of the ready list. -/
def doSleep (s : State τ σ μ κ ξ δ) (due : List ξ) (k : List (Instr τ σ μ κ ξ)) :
    State τ σ μ κ ξ δ :=
  match s.readyList with
  | [] => s.goto (due.map .handle ++ .sleep :: k)
  | next :: rest => { s.goto (.reap :: k) with readyList := rest }.run next

/-- The body of `Yield`. -/
def doYield (s : State τ σ μ κ ξ δ) (k : List (Instr τ σ μ κ ξ)) : State τ σ μ κ ξ δ :=
  match s.readyList with
  | [] => s.goto k
  | next :: rest =>
    ({ s.goto (.reap :: k) with readyList := rest }.readyToRun s.currentThread).run next

/-- The statement `i` of the current thread's routine, with `k` after it.  `due` and `timer` are what
a tick finds, if there is one; `none` stands for a failed `ASSERT`. -/
def exec (s : State τ σ μ κ ξ δ) (due : List ξ) (timer : Bool) (k : List (Instr τ σ μ κ ξ)) :
    Instr τ σ μ κ ξ → Option (State τ σ μ κ ξ δ)
  | .disable =>
    some { s.goto k with
      level := .intOff
      saved := Function.update s.saved s.currentThread (s.level :: s.saved s.currentThread) }
  | .restore => s.setOldLevel due timer k
  | .enable => some (s.setLevel .intOn due timer k)
  | .off => some { s.goto k with level := .intOff }
  | .handle _ => none
  | .endTick =>
    some { s.goto k with
      level := .intOn
      saved := Function.update s.saved s.currentThread (s.saved s.currentThread).tail }
  | .p x => some (s.semP x k)
  | .v x => some ((s.semV x).goto k)
  | .assign l =>
    some { s.goto k with heldthread := Function.update s.heldthread l (some s.currentThread) }
  | .release l =>
    some (if s.heldthread l = some s.currentThread then
      { s.goto (Instr.semaphoreV (.inr l) ++ k) with
        heldthread := Function.update s.heldthread l none }
    else s.goto k)
  | .append c => some ((s.doAppend c).goto k)
  | .returnWait _ => s.setOldLevel due timer k
  | .signal c => some ((s.doSignal c).goto k)
  | .broadcast c =>
    some (s.goto (if s.waitinglist c = [] then k else Instr.conditionSignal c ++ .broadcast c :: k))
  | .block =>
    if s.level = .intOff then
      some { s.goto k with status := Function.update s.status s.currentThread .blocked }
    else none
  | .sleep => some (s.doSleep due k)
  | .reap => some (s.doReap.goto k)
  | .yield => some (s.doYield k)
  | .ready t => some ((s.readyToRun t).goto k)
  | .destroy =>
    some { s.goto k with
      threadToBeDestroyed := some s.currentThread
      finished := Function.update s.finished s.currentThread true }

/-- `new Thread`: the thread takes a slot of the table, if there is a free one. -/
def newThread (s : State τ σ μ κ ξ δ) (t : τ) : State τ σ μ κ ξ δ :=
  { s with
    created := Function.update s.created t true
    globalThreadManager :=
      match s.globalThreadManager.addNewThreadtoList t with
      | some (m, _) => m
      | none => s.globalThreadManager }

/-- `StackAllocate`: a new stack, on which the thread will start in `ThreadRoot`, which enables
interrupts, calls `func` and then `Finish`. -/
def stackAllocate (s : State τ σ μ κ ξ δ) (t : τ) (func : ξ) : State τ σ μ κ ξ δ :=
  { s with
    kernel := Function.update s.kernel t [.enable]
    saved := Function.update s.saved t []
    program := Function.update s.program t [.own func, .finish] }

/-- The call `op` made by the current thread's own code. -/
def call (s : State τ σ μ κ ξ δ) (due : List ξ) (timer : Bool) :
    Op τ σ μ κ ξ → State τ σ μ κ ξ δ
  | .p x => s.goto (Instr.semaphoreP (.inl x))
  | .v x => s.goto (Instr.semaphoreV (.inl x))
  | .acquire l => s.goto (Instr.lockAcquire l)
  | .release l => s.goto [.release l]
  | .wait c l => s.goto (Instr.conditionWait c l)
  | .signal c => s.goto (Instr.conditionSignal c)
  | .broadcast c => s.goto (Instr.conditionBroadcast c)
  | .yield => s.goto Instr.threadYield
  | .create t => s.newThread t
  | .fork t func => (s.stackAllocate t func).goto (Instr.threadFork t)
  | .finish => s.goto Instr.threadFinish
  | .oneTick => s.goto (Instr.oneTick due timer)
  | .own _ => s

/-- The current thread's own code is `ops` from here on. -/
def proceed (s : State τ σ μ κ ξ δ) (ops : List (Op τ σ μ κ ξ)) : State τ σ μ κ ξ δ :=
  { s with program := Function.update s.program s.currentThread ops }

/-- The processor left alone by the devices, running threads whose own code `x` does `body x`. -/
def next (body : ξ → δ → Option (δ × List (Op τ σ μ κ ξ))) (s : State τ σ μ κ ξ δ) :
    Option (State τ σ μ κ ξ δ) :=
  match s.code with
  | i :: k => s.exec [] false k i
  | [] =>
    match s.program s.currentThread with
    | [] => none
    | .own x :: ops =>
      (body x s.data).map fun (d, more) => { s.proceed (more ++ ops) with data := d }
    | op :: ops => some ((s.proceed ops).call [] false op)

end State

variable [DecidableEq τ] [DecidableEq σ] [DecidableEq μ] [DecidableEq κ]

/-- A step of the processor. -/
inductive Step (P : Program τ σ μ κ ξ δ) : State τ σ μ κ ξ δ → State τ σ μ κ ξ δ → Prop where
  /-- The next statement of the routine the current thread is in. -/
  | exec {s s' i k due timer} (hcode : s.code = i :: k) (hexec : s.exec due timer k i = some s') :
      Step P s s'
  /-- An interrupt handler, and the calls of `V` it makes. -/
  | handle {s x k d vs} (hcode : s.code = .handle x :: k) (hhandle : P.handle x s.data d vs) :
      Step P s { s.goto (vs.flatMap (fun x => Instr.semaphoreV (.inl x)) ++ k) with data := d }
  /-- A piece of the current thread's own code. -/
  | own {s x ops d more} (hcode : s.code = []) (hprogram : s.program s.currentThread = .own x :: ops)
      (hexec : P.exec s.currentThread x s.data d more) :
      Step P s { s.proceed (more ++ ops) with data := d }
  /-- A call made by the current thread's own code. -/
  | call {s op ops due timer} (hcode : s.code = [])
      (hprogram : s.program s.currentThread = op :: ops) (hop : ∀ x, op ≠ .own x) :
      Step P s ((s.proceed ops).call due timer op)

/-- Own code that only makes calls. -/
def callsOnly (body : ξ → List (Op τ σ μ κ ξ)) (x : ξ) (d : δ) : Option (δ × List (Op τ σ μ κ ξ)) :=
  some (d, body x)

/-- A program whose code `x` does `body x`, and whose handlers do nothing. -/
def Program.ofBody (body : ξ → δ → Option (δ × List (Op τ σ μ κ ξ))) : Program τ σ μ κ ξ δ where
  exec _ x d d' ops := body x d = some (d', ops)
  handle _ d d' vs := d' = d ∧ vs = []

/-- `Initialize`: the thread `main` is RUNNING and about to enable interrupts; its own code is
`func`. -/
def start (main : τ) (func : ξ) (initialValue : σ → ℤ) (d : δ) : State τ σ μ κ ξ δ where
  level := .intOff
  currentThread := main
  status := Function.update (fun _ => .justCreated) main .running
  readyList := []
  semaphore := Sum.elim (fun x => Semaphore.new (initialValue x)) fun _ => Semaphore.new 1
  heldthread _ := none
  waitinglist _ := []
  threadToBeDestroyed := none
  globalThreadManager := match (GlobalThreadManager.new : GlobalThreadManager τ).addNewThreadtoList main with
    | some (m, _) => m
    | none => GlobalThreadManager.new
  kernel := Function.update (fun _ => []) main [.enable]
  saved _ := []
  program := Function.update (fun _ => []) main [.own func]
  data := d
  created := Function.update (fun _ => false) main true
  finished _ := false
  deleted _ := false
  arrived _ := []
  woken _ := []
  chosen _ := 0

/-- The runs of a program from `start`. -/
def system (P : Program τ σ μ κ ξ δ) (main : τ) (func : ξ) (initialValue : σ → ℤ) (d : δ) :
    Transition.System (State τ σ μ κ ξ δ) Unit where
  init s := s = start main func initialValue d
  step s _ s' := Step P s s'

end Kernel

end Nachos
