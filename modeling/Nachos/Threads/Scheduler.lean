import Mathlib.Data.List.Nodup
import Mathlib.Logic.Function.Basic
import Nachos.Threads.Kernel

/-!
# Where the threads are

The scheduler seen from far away: which thread has the processor, how far it is into `Sleep`, and
which list every other thread is on.  `Placement` is that picture, for wait queues named by `κ`, and
`Placement.Step` the seven things that can happen to it.  A thread goes onto a wait queue as it
enters `Sleep`, and is BLOCKED only a moment later; it leaves the queue for the ready list, and may do
so while it is still in the loop of `Sleep`, idling, so that it can be the next thread it finds to
run.

`Placement.Partitioned` is what this keeps: no thread is lost, and none is in two places.
-/

namespace Nachos

/-- Where a thread is with respect to `Sleep`. -/
inductive Phase where
  /-- Not in it. -/
  | running
  /-- Called it, `status` not yet BLOCKED. -/
  | parking
  /-- In its loop. -/
  | sleeping
  deriving DecidableEq

/-- Where every thread is. -/
@[ext]
structure Placement (τ κ : Type) where
  currentThread : τ
  /-- How far the current thread is into `Sleep`. -/
  phase : Phase
  status : τ → ThreadStatus
  readyList : List τ
  queue : κ → List τ
  finished : τ → Bool

namespace Placement

variable {τ κ : Type}

/-- What can happen to the threads. -/
inductive Step [DecidableEq τ] [DecidableEq κ] (p : Placement τ κ) : Placement τ κ → Prop where
  /-- The current thread goes onto the queue `q` and calls `Sleep`. -/
  | wait (q : κ) (hphase : p.phase = .running) :
      Step p { p with
        queue := Function.update p.queue q (p.queue q ++ [p.currentThread])
        phase := .parking }
  /-- The thread that has been longest on `q` becomes ready. -/
  | wake (q : κ) {t : τ} {rest : List τ} (hphase : p.phase ≠ .parking)
      (hqueue : p.queue q = t :: rest) :
      Step p { p with
        queue := Function.update p.queue q rest
        readyList := p.readyList ++ [t]
        status := Function.update p.status t .ready }
  | fork {t : τ} (hphase : p.phase = .running) (hstatus : p.status t = .justCreated) :
      Step p { p with
        readyList := p.readyList ++ [t]
        status := Function.update p.status t .ready }
  | finish (hphase : p.phase = .running) :
      Step p { p with
        finished := Function.update p.finished p.currentThread true
        phase := .parking }
  | block (hphase : p.phase = .parking) :
      Step p { p with
        status := Function.update p.status p.currentThread .blocked
        phase := .sleeping }
  /-- `Sleep` finds a thread to run. -/
  | dispatch {next : τ} {rest : List τ} (hphase : p.phase = .sleeping)
      (hready : p.readyList = next :: rest) :
      Step p { p with
        currentThread := next
        phase := .running
        readyList := rest
        status := Function.update p.status next .running }
  | yield {next : τ} {rest : List τ} (hphase : p.phase = .running)
      (hready : p.readyList = next :: rest) :
      Step p { p with
        currentThread := next
        phase := .running
        readyList := rest ++ [p.currentThread]
        status := Function.update (Function.update p.status p.currentThread .ready) next .running }

/-- Every thread is in the one place its status says. -/
structure Partitioned (p : Placement τ κ) : Prop where
  ready_nodup : p.readyList.Nodup
  queue_nodup : ∀ q, (p.queue q).Nodup
  queue_unique : ∀ t q q', t ∈ p.queue q → t ∈ p.queue q' → q = q'
  mem_readyList : ∀ t, t ∈ p.readyList ↔ p.status t = .ready
  current_known : p.status p.currentThread ≠ .justCreated
  running_iff : ∀ t, p.status t = .running ↔ t = p.currentThread ∧ p.phase ≠ .sleeping
  /-- A thread on a wait queue is BLOCKED, or about to be. -/
  of_mem_queue : ∀ t q, t ∈ p.queue q →
    p.finished t = false ∧ (p.status t = .blocked ∨ t = p.currentThread ∧ p.phase = .parking)
  of_blocked : ∀ t, p.status t = .blocked → p.finished t = true ∨ ∃ q, t ∈ p.queue q
  of_parking : p.phase = .parking →
    p.finished p.currentThread = true ∨ ∃ q, p.currentThread ∈ p.queue q
  of_finished : ∀ t, p.finished t = true →
    p.status t = .blocked ∨ t = p.currentThread ∧ p.phase = .parking

end Placement

end Nachos
