import Nachos.Threads.Lock

/-!
# Readers and writers of a sector (`filesys/synchdisk.cc`)

`SynchReaderStart`/`SynchReaderExit` and `SynchWriterStart`/`SynchWriterExit` guard the file whose
header is a given sector.  Each sector has a semaphore created with value `1`
(`readerWtiterSemap`) and a count of its readers (`readerNum`); one lock, `readerLock`, protects
all the counts.  The first reader of a sector waits for the sector's semaphore with `readerLock`
still held, and the last reader posts it, whichever thread that is.

A thread runs one pair of calls after the other, in any order and on any sectors, without nesting.
`Point` lists every place where another thread may run in between: inside the `P` of the lock and
of the semaphores, between the two halves of `Acquire` and of `Release`, and between any two
statements that read or write `readerNum`.
-/

namespace Nachos

namespace ReadersWriters

/-- `SynchReaderStart` or `SynchReaderExit`. -/
inductive Phase where
  | start
  | exit
  deriving DecidableEq

/-- Where a thread stands inside a `P`. -/
inductive Wait where
  /-- The loop test has not been evaluated yet. -/
  | call
  /-- Asleep on the queue. -/
  | asleep
  /-- Made ready by a `V`, about to re-test. -/
  | woken
  deriving DecidableEq

/-- Where a thread stands, with the sector it works on. -/
inductive Point (κ : Type) where
  /-- Between two pairs of calls. -/
  | idle
  /-- In the `P` of `readerLock->Acquire()`. -/
  | lockWait (ph : Phase) (w : Wait) (s : κ)
  /-- Past that `P`, before `heldthread` is assigned. -/
  | locked (ph : Phase) (s : κ)
  /-- Before `readerNum[s]++` (`start`) or `readerNum[s]--` (`exit`). -/
  | update (ph : Phase) (s : κ)
  /-- Before the comparison of `readerNum[s]` with `1` (`start`) or `0` (`exit`). -/
  | check (ph : Phase) (s : κ)
  /-- The first reader, in `readerWtiterSemap[s]->P()`. -/
  | semWait (w : Wait) (s : κ)
  /-- The last reader, before `readerWtiterSemap[s]->V()`. -/
  | semV (s : κ)
  /-- Before the test of `readerLock->Release()`. -/
  | release (ph : Phase) (s : κ)
  /-- Past that test, before `heldthread` is cleared. -/
  | clear (ph : Phase) (s : κ)
  /-- Before the `V` of `Release`. -/
  | unlock (ph : Phase) (s : κ)
  /-- `SynchReaderStart(s)` has returned. -/
  | reading (s : κ)
  /-- In the `P` of `SynchWriterStart(s)`. -/
  | writeWait (w : Wait) (s : κ)
  /-- `SynchWriterStart(s)` has returned. -/
  | writing (s : κ)
  deriving DecidableEq

/-- The effect of `ReadyToRun` on a sleeping thread. -/
def Point.wake {κ : Type} : Point κ → Point κ
  | .lockWait ph .asleep s => .lockWait ph .woken s
  | .semWait .asleep s => .semWait .woken s
  | .writeWait .asleep s => .writeWait .woken s
  | p => p

/-- The synchronization fields of `SynchDisk`, and the threads. -/
structure State (τ κ : Type) where
  readerLock : Lock τ
  readerWtiterSemap : κ → Semaphore τ
  readerNum : κ → ℤ
  point : τ → Point κ

/-- The steps of a run. -/
inductive Action (τ κ : Type) where
  /-- An idle thread calls `SynchReaderStart(s)`. -/
  | startReader (t : τ) (s : κ)
  /-- An idle thread calls `SynchWriterStart(s)`. -/
  | startWriter (t : τ) (s : κ)
  /-- A thread inside a pair of calls takes its next step. -/
  | run (t : τ)

variable {τ κ : Type} [DecidableEq τ] [DecidableEq κ]

/-- Make the thread `V` took off the queue ready. -/
def wakeUp (point : τ → Point κ) : Option τ → τ → Point κ
  | none => point
  | some u => Function.update point u (point u).wake

namespace State

variable (st : State τ κ)

/-- Thread `t` goes on to `p`. -/
def goto (t : τ) (p : Point κ) : State τ κ := { st with point := Function.update st.point t p }

/-- One round of the loop of the `P` in `readerLock->Acquire()`. -/
def lockP (t : τ) (ph : Phase) (s : κ) : State τ κ :=
  { st with
    readerLock := (st.readerLock.p t).1
    point := Function.update st.point t
      (if (st.readerLock.p t).2 then .locked ph s else .lockWait ph .asleep s) }

/-- The `V` in `readerLock->Release()`. -/
def lockV (t : τ) (next : Point κ) : State τ κ :=
  { st with
    readerLock := st.readerLock.v.1
    point := wakeUp (Function.update st.point t next) st.readerLock.v.2 }

/-- One round of the loop of `readerWtiterSemap[s]->P()`. -/
def semP (t : τ) (s : κ) (next sleep : Point κ) : State τ κ :=
  { st with
    readerWtiterSemap :=
      Function.update st.readerWtiterSemap s ((st.readerWtiterSemap s).p t).1
    point := Function.update st.point t
      (if ((st.readerWtiterSemap s).p t).2 then next else sleep) }

/-- `readerWtiterSemap[s]->V()`. -/
def semV (t : τ) (s : κ) (next : Point κ) : State τ κ :=
  { st with
    readerWtiterSemap := Function.update st.readerWtiterSemap s (st.readerWtiterSemap s).v.1
    point := wakeUp (Function.update st.point t next) (st.readerWtiterSemap s).v.2 }

/-- Where a thread is when `SynchReaderStart`, respectively `SynchReaderExit`, returns. -/
def returnPoint (s : κ) : Phase → Point κ
  | .start => .reading s
  | .exit => .idle

/-- The next step of thread `t`; `none` when it is idle or asleep. -/
def run (t : τ) : Option (State τ κ) :=
  match st.point t with
  | .idle => none
  | .lockWait ph .call s => some (st.lockP t ph s)
  | .lockWait _ .asleep _ => none
  | .lockWait ph .woken s => some (st.lockP t ph s)
  | .locked ph s => some ({ st with readerLock := st.readerLock.assign t }.goto t (.update ph s))
  | .update .start s =>
    some ({ st with readerNum := Function.update st.readerNum s (st.readerNum s + 1) }.goto t
      (.check .start s))
  | .update .exit s =>
    some ({ st with readerNum := Function.update st.readerNum s (st.readerNum s - 1) }.goto t
      (.check .exit s))
  | .check .start s =>
    some (st.goto t (if st.readerNum s = 1 then .semWait .call s else .release .start s))
  | .check .exit s => some (st.goto t (if st.readerNum s = 0 then .semV s else .release .exit s))
  | .semWait .call s => some (st.semP t s (.release .start s) (.semWait .asleep s))
  | .semWait .asleep _ => none
  | .semWait .woken s => some (st.semP t s (.release .start s) (.semWait .asleep s))
  | .semV s => some (st.semV t s (.release .exit s))
  | .release ph s =>
    some (st.goto t (if st.readerLock.isHeldBy t then .clear ph s else returnPoint s ph))
  | .clear ph s => some ({ st with readerLock := st.readerLock.clear }.goto t (.unlock ph s))
  | .unlock ph s => some (st.lockV t (returnPoint s ph))
  | .reading s => some (st.goto t (.lockWait .exit .call s))
  | .writeWait .call s => some (st.semP t s (.writing s) (.writeWait .asleep s))
  | .writeWait .asleep _ => none
  | .writeWait .woken s => some (st.semP t s (.writing s) (.writeWait .asleep s))
  | .writing s => some (st.semV t s .idle)

/-- The step function. -/
def step : Action τ κ → Option (State τ κ)
  | .startReader t s => if st.point t = .idle then some (st.goto t (.lockWait .start .call s)) else none
  | .startWriter t s => if st.point t = .idle then some (st.goto t (.writeWait .call s)) else none
  | .run t => st.run t

end State

/-- Any number of threads on any number of sectors, from the state the constructor of `SynchDisk`
sets up. -/
def system (τ κ : Type) [DecidableEq τ] [DecidableEq κ] :
    Transition.System (State τ κ) (Action τ κ) where
  init st := st = ⟨Lock.new, fun _ => Semaphore.new 1, fun _ => 0, fun _ => .idle⟩
  step st a st' := st.step a = some st'

end ReadersWriters

end Nachos
