import Nachos.Lib.Sync
import Nachos.Threads.Equiv.Mesa

/-!
# The kernel as a machine with atomic synchronisation

To the threads' own code, the kernel's routines are actions of the machine of `Sync`: `P`, `V`,
`Acquire`, `Release`, `Wait`, `Signal` and the rounds of `Broadcast` each happen at one moment,
and the rest of the routines, the scheduler included, is not seen.  `State.acts` is what a thread still
has to do, seen in this way.

`P` and `V` happen at their statement, `Acquire` at its `P`, `Release` at its `V`, or at its test when
the caller does not hold the lock.  `Wait` happens when the thread goes onto the waiting list: the
`Release` it begins with is a part of it, because interrupts are off in between.
-/

namespace Nachos.Kernel

variable {τ σ μ κ ξ δ : Type}

/-- What a call is to the threads' own code. -/
def Op.acts : Op τ σ μ κ ξ → List (Sync.Act τ σ μ κ ξ)
  | .p x => [.p x]
  | .v x => [.v x]
  | .acquire l => [.acquire l]
  | .release l => [.release l]
  | .wait c l => [.wait c, .acquire l]
  | .signal c => [.signal c]
  | .broadcast c => [.broadcast c]
  | .fork t func => [.fork t func]
  | .own x => [.own x]
  | .yield => []
  | .create _ => []
  | .finish => []
  | .oneTick => []

def Instr.isAppend : Instr τ σ μ κ ξ → Bool
  | .append _ => true
  | _ => false

/-- What is left to happen of a routine. -/
def acts : List (Instr τ σ μ κ ξ) → List (Sync.Act τ σ μ κ ξ)
  | [] => []
  | .p (.inl x) :: k => .p x :: acts k
  | .p (.inr l) :: k => .acquire l :: acts k
  | .v (.inl x) :: k => .v x :: acts k
  | .v (.inr l) :: k => if k.any Instr.isAppend then acts k else .release l :: acts k
  | .release l :: k => if k.any Instr.isAppend then acts k else .release l :: acts k
  | .append c :: k => .wait c :: acts k
  | .signal c :: k => .signal c :: acts k
  | .broadcast c :: k => .broadcast c :: acts k
  | _ :: k => acts k

/-- What the thread `t` has left to do. -/
def State.acts (s : State τ σ μ κ ξ δ) (t : τ) : List (Sync.Act τ σ μ κ ξ) :=
  Kernel.acts (s.kernel t) ++ (s.program t).flatMap Op.acts

/-- The threads' own code, over the atomic actions. -/
def Program.atomic (P : Program τ σ μ κ ξ δ) (lockOf : κ → μ) : Sync.Program τ σ μ κ ξ δ where
  lockOf := lockOf
  exec t x d d' more := ∃ ops, P.exec t x d d' ops ∧ more = ops.flatMap Op.acts
  handle := P.handle

/-- Nothing follows a call of `Finish`. -/
def State.FinishLast (s : State τ σ μ κ ξ δ) : Prop :=
  match s.code, s.program s.currentThread with
  | [], .finish :: ops => ops = []
  | _, _ => True

/-- How threads are expected to use the kernel. -/
structure State.Disciplined (lockOf : κ → μ) (s : State τ σ μ κ ξ δ) : Prop where
  forkOnce : s.ForkOnce
  oneLock : s.OneLock lockOf
  finishLast : s.FinishLast

/-- Own code in which every condition is used with one lock, nothing follows `Finish`, and nothing
follows the code that `last` says calls `Finish`. -/
def Tidy (lockOf : κ → μ) (last : ξ → Bool) : List (Op τ σ μ κ ξ) → Prop
  | [] => True
  | .wait c l :: ops => l = lockOf c ∧ Tidy lockOf last ops
  | .finish :: ops => ops = []
  | .own x :: ops => (last x = true → ops = []) ∧ Tidy lockOf last ops
  | .fork _ func :: ops => last func = false ∧ Tidy lockOf last ops
  | _ :: ops => Tidy lockOf last ops

/-- How often a call forks the thread `t`, when the code `x` does so `forks t x` times. -/
def Op.forks [DecidableEq τ] (forks : τ → ξ → ℕ) (t : τ) : Op τ σ μ κ ξ → ℕ
  | .fork u func => (if u = t then 1 else 0) + forks t func
  | .own x => forks t x
  | _ => 0

/-- Threads whose own code uses the kernel as expected: every thread is forked at most once, and not
`main`. -/
structure Program.Disciplined [DecidableEq τ] (P : Program τ σ μ κ ξ δ) (lockOf : κ → μ) (last : ξ → Bool)
    (forks : τ → ξ → ℕ) (main : τ) (func : ξ) : Prop where
  tidy : ∀ t x d d' ops more, P.exec t x d d' ops → Tidy lockOf last (.own x :: more) →
    Tidy lockOf last (ops ++ more)
  forks_le : ∀ t u x d d' ops, P.exec u x d d' ops → (ops.map (Op.forks forks t)).sum ≤ forks t x
  once : ∀ t, forks t func ≤ if t = main then 0 else 1

/-- The processor is in the loop of `Sleep`, and finds nobody to run. -/
def State.NobodyReady (s : State τ σ μ κ ξ δ) : Prop :=
  s.readyList = [] ∧ ∃ k, s.code = .sleep :: k

end Nachos.Kernel
