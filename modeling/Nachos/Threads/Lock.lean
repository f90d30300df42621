import Mathlib.Data.Finset.Basic
import Nachos.Threads.Semaphore

/-!
# Locks (`threads/synch.cc`)

A `Lock` is a semaphore created with value `1` and the thread recorded as its holder.  The
interrupt disabling around `Acquire` and `Release` is commented out in the source, so neither is
atomic: a context switch can fall between the `P` of `Acquire` and the assignment of `heldthread`,
and between the clearing of `heldthread` in `Release` and its `V`.  Each of these is a step of its
own here.

`System` runs any number of threads that call `Acquire` and `Release` in any order, including
`Release` by a thread that does not hold the lock and `Acquire` by the thread that does.
-/

namespace Nachos

/-- `class Lock`: the inner semaphore `lock` and the recorded holder. -/
structure Lock (τ : Type) where
  lock : Semaphore τ
  heldthread : Option τ
  deriving DecidableEq

namespace Lock

variable {τ : Type}

/-- The constructor: FREE, held by nobody. -/
def new : Lock τ := ⟨Semaphore.new 1, none⟩

/-- One round of the loop of `lock->P()` in `Acquire`. -/
def p (l : Lock τ) (t : τ) : Lock τ × Bool := ({ l with lock := (l.lock.p t).1 }, (l.lock.p t).2)

/-- `heldthread = currentThread`, the rest of `Acquire`. -/
def assign (l : Lock τ) (t : τ) : Lock τ := { l with heldthread := some t }

/-- `heldthread = NULL` in `Release`. -/
def clear (l : Lock τ) : Lock τ := { l with heldthread := none }

/-- `lock->V()` in `Release`: the new lock and the thread made ready. -/
def v (l : Lock τ) : Lock τ × Option τ := ({ l with lock := l.lock.v.1 }, l.lock.v.2)

variable [DecidableEq τ]

/-- `isHeldByCurrentThread`, for the current thread `t`. -/
def isHeldBy (l : Lock τ) (t : τ) : Bool := l.heldthread = some t

/-! ### Threads calling `Acquire` and `Release` -/

/-- Where a thread stands. -/
inductive Point where
  /-- Outside both operations, free to make the next call. -/
  | idle
  /-- Asleep in the `P` of `Acquire`. -/
  | asleep
  /-- Made ready in the `P` of `Acquire`, about to re-test. -/
  | woken
  /-- Past the `P` of `Acquire`, before the assignment of `heldthread`. -/
  | acquired
  /-- In `Release`, past the test that the caller is the holder. -/
  | releasing
  /-- In `Release`, `heldthread` cleared, before the `V`. -/
  | released
  deriving DecidableEq

/-- The lock, its threads, and the threads that have completed the `P` of an `Acquire` and not yet
executed the `V` of a `Release`. -/
structure State (τ : Type) where
  lock : Lock τ
  point : τ → Point
  inside : Finset τ

/-- The steps of a run, each by the thread it names. -/
inductive Action (τ : Type) where
  /-- Call `Acquire` and evaluate the loop test of `P`. -/
  | callAcquire (t : τ)
  /-- Re-evaluate the loop test after a wake-up. -/
  | resumeP (t : τ)
  /-- Assign `heldthread` and return from `Acquire`. -/
  | assign (t : τ)
  /-- Call `Release` and test `isHeldByCurrentThread`; returns at once if it fails. -/
  | callRelease (t : τ)
  /-- Clear `heldthread`. -/
  | clear (t : τ)
  /-- Execute the `V` and return from `Release`. -/
  | v (t : τ)

/-- One round of the loop of `P` for `t`. -/
def State.tryP (s : State τ) (t : τ) : State τ :=
  { lock := (s.lock.p t).1
    point := Function.update s.point t (if (s.lock.p t).2 then .acquired else .asleep)
    inside := if (s.lock.p t).2 then insert t s.inside else s.inside }

/-- The `V` of `Release` by `t`. -/
def State.doV (s : State τ) (t : τ) : State τ :=
  { lock := s.lock.v.1
    point := match s.lock.v.2 with
      | some u => Function.update (Function.update s.point t .idle) u .woken
      | none => Function.update s.point t .idle
    inside := s.inside.erase t }

/-- The step function; `none` where the thread is not at that point. -/
def State.step (s : State τ) : Action τ → Option (State τ)
  | .callAcquire t => if s.point t = .idle then some (s.tryP t) else none
  | .resumeP t => if s.point t = .woken then some (s.tryP t) else none
  | .assign t =>
    if s.point t = .acquired then
      some { s with lock := s.lock.assign t, point := Function.update s.point t .idle }
    else none
  | .callRelease t =>
    if s.point t = .idle then
      some (if s.lock.isHeldBy t then { s with point := Function.update s.point t .releasing } else s)
    else none
  | .clear t =>
    if s.point t = .releasing then
      some { s with lock := s.lock.clear, point := Function.update s.point t .released }
    else none
  | .v t => if s.point t = .released then some (s.doV t) else none

/-- Any number of threads on a new lock. -/
def system (τ : Type) [DecidableEq τ] : Transition.System (State τ) (Action τ) where
  init s := s = ⟨new, fun _ => .idle, ∅⟩
  step s a s' := s.step a = some s'

end Lock

end Nachos
