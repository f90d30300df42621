import Mathlib.Data.Fintype.Basic
import Nachos.Lib.Transition

/-!
# Semaphores (`threads/synch.cc`)

A `Semaphore` is an `int` and the list of the threads asleep in `P`.  Interrupts are off inside
`P` and `V`, so the test-and-decrement of `P`, its append-and-sleep and the whole of `V` are each
one atomic step:

* `p t` is one evaluation of the loop test of `P` by thread `t`, with what follows it up to the
  next point where another thread can run: the decrement, or the append to the queue and `Sleep`;
* `v` removes the head of the queue (the thread `ReadyToRun` is called on) and increments.

A thread taken off the queue is not handed the unit: it goes back to the loop test when it next
runs, and by then some other thread may have taken it.

`System` runs any number of threads, each calling `P` and `V` in any order.
-/

namespace Nachos

/-- `class Semaphore`: the value and the threads waiting in `P`, longest wait first. -/
structure Semaphore (τ : Type) where
  value : ℤ
  queue : List τ
  deriving DecidableEq

namespace Semaphore

variable {τ : Type} {s : Semaphore τ}

/-- The constructor `Semaphore(debugName, initialValue)`. -/
def new (initialValue : ℤ) : Semaphore τ := ⟨initialValue, []⟩

/-- One round of the `while` loop of `P` run by thread `t`: the new semaphore, and whether `t`
got past the loop (`false`: it is asleep on the queue). -/
def p (s : Semaphore τ) (t : τ) : Semaphore τ × Bool :=
  if s.value = 0 then ({ s with queue := s.queue ++ [t] }, false)
  else ({ s with value := s.value - 1 }, true)

/-- `V`: the new semaphore and the thread made ready, if one was waiting. -/
def v (s : Semaphore τ) : Semaphore τ × Option τ :=
  ({ value := s.value + 1, queue := s.queue.tail }, s.queue.head?)

theorem p_of_eq_zero (t : τ) (h : s.value = 0) : s.p t = (⟨s.value, s.queue ++ [t]⟩, false) := if_pos h

theorem p_of_ne_zero (t : τ) (h : s.value ≠ 0) : s.p t = (⟨s.value - 1, s.queue⟩, true) := if_neg h

theorem v_of_nil (h : s.queue = []) : s.v = (⟨s.value + 1, s.queue⟩, none) := by
  rw [v, h]
  rfl

theorem v_of_cons {t : τ} {rest : List τ} (h : s.queue = t :: rest) :
    s.v = (⟨s.value + 1, rest⟩, some t) := by
  rw [v, h]
  rfl

/-! ### Threads calling `P` and `V` -/

/-- What a thread is doing. -/
inductive Status where
  /-- Outside `P`, free to make the next call. -/
  | running
  /-- Asleep on the queue, inside `P`. -/
  | asleep
  /-- Made ready by a `V`, still inside `P`: it re-tests when it next runs. -/
  | woken
  deriving DecidableEq

/-- The semaphore, its threads, and how many calls have been completed. -/
structure State (τ : Type) where
  sem : Semaphore τ
  status : τ → Status
  completedP : ℕ
  completedV : ℕ

/-- The steps of a run. -/
inductive Action (τ : Type) where
  /-- `t` calls `P` and evaluates the loop test for the first time. -/
  | callP (t : τ)
  /-- The woken thread `t` runs again and re-evaluates the loop test. -/
  | resumeP (t : τ)
  /-- `t` calls `V`. -/
  | callV (t : τ)

variable [DecidableEq τ]

/-- One round of the loop of `P` for `t`. -/
def State.tryP (s : State τ) (t : τ) : State τ :=
  { s with
    sem := (s.sem.p t).1
    status := Function.update s.status t (if (s.sem.p t).2 then .running else .asleep)
    completedP := if (s.sem.p t).2 then s.completedP + 1 else s.completedP }

/-- `V`, with the effect of `ReadyToRun` on the thread taken off the queue. -/
def State.doV (s : State τ) : State τ :=
  { s with
    sem := s.sem.v.1
    status := match s.sem.v.2 with
      | some u => Function.update s.status u .woken
      | none => s.status
    completedV := s.completedV + 1 }

/-- The step function; `none` where the thread is not at that point. -/
def State.step (s : State τ) : Action τ → Option (State τ)
  | .callP t => if s.status t = .running then some (s.tryP t) else none
  | .resumeP t => if s.status t = .woken then some (s.tryP t) else none
  | .callV t => if s.status t = .running then some s.doV else none

/-- Any number of threads on a semaphore created with `initialValue`. -/
def system (τ : Type) [DecidableEq τ] (initialValue : ℤ) : Transition.System (State τ) (Action τ) where
  init s := s = ⟨new initialValue, fun _ => .running, 0, 0⟩
  step s a s' := s.step a = some s'

end Semaphore

end Nachos
