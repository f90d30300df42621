import Nachos.Threads.Lock

/-!
# Threads as scripts of calls

The devices' drivers (`synchdisk.cc`, `console.cc`, `post.cc`) are short routines that lock, work on
some data, wait for a semaphore and unlock, while interrupt handlers work on the same data and post
the semaphores.  Here a thread is the list of the statements it has left, one for each place where
another thread or a handler may run in between: a `P` (which may put the thread to sleep, to re-test
when it has been woken), a `V`, the two halves of `Acquire`, the three of `Release`, and pieces of
code of its own.  A handler runs with interrupts off, so that it is one step with the calls of `V` it
makes.

Threads, handlers and calls come in any order; what the kernel's scheduler would choose is among that.
-/

namespace Nachos.Process

/-- Semaphores are named by `σ`, locks by `μ` and the threads' own code by `ξ`. -/
inductive Stmt (σ μ ξ : Type) where
  /-- `P` -/
  | p (x : σ)
  /-- `V` -/
  | v (x : σ)
  /-- `Acquire`, in its `P` -/
  | acquire (l : μ)
  /-- `heldthread = currentThread`, the rest of `Acquire` -/
  | assign (l : μ)
  /-- `Release`, before its test -/
  | release (l : μ)
  /-- `heldthread = NULL` of `Release` -/
  | clear (l : μ)
  /-- The `V` of `Release` -/
  | unlock (l : μ)
  | own (x : ξ)
  deriving DecidableEq

/-- The routines that threads `τ` call (`γ`), the code in them, and the interrupt handlers (`ε`). -/
structure Program (τ σ μ ξ ε γ δ : Type) where
  body : γ → List (Stmt σ μ ξ)
  /-- The new data, and what the code goes on with; `none` when an `ASSERT` fails. -/
  exec : τ → ξ → δ → Option (δ × List (Stmt σ μ ξ))
  /-- Whether the code can run, or has to wait. -/
  ready : ξ → δ → Bool
  /-- Whether the handler is to be called some time. -/
  pending : ε → δ → Bool
  /-- The new data, and the semaphores the handler posts; `none` when an `ASSERT` fails. -/
  handle : ε → δ → Option (δ × List σ)

structure State (τ σ μ ξ δ : Type) where
  semaphore : σ → Semaphore τ
  lock : μ → Lock τ
  code : τ → List (Stmt σ μ ξ)
  asleep : τ → Bool
  data : δ

inductive Action (τ ε γ : Type) where
  /-- A thread with nothing left to do calls a routine. -/
  | call (t : τ) (c : γ)
  /-- The next statement of a thread. -/
  | run (t : τ)
  | interrupt (e : ε)

variable {τ σ μ ξ ε γ δ : Type} [DecidableEq τ] [DecidableEq σ] [DecidableEq μ]

namespace State

variable (s : State τ σ μ ξ δ)

/-- `ReadyToRun`, for the thread that a `V` takes off the queue. -/
def wake : Option τ → τ → Bool
  | some u => Function.update s.asleep u false
  | none => s.asleep

def goto (t : τ) (k : List (Stmt σ μ ξ)) : State τ σ μ ξ δ :=
  { s with code := Function.update s.code t k }

/-- `semaphore->V()` -/
def post (x : σ) : State τ σ μ ξ δ :=
  { s with
    semaphore := Function.update s.semaphore x (s.semaphore x).v.1
    asleep := s.wake (s.semaphore x).v.2 }

/-- One round of the loop of `P`. -/
def tryP (t : τ) (x : σ) (k : List (Stmt σ μ ξ)) : State τ σ μ ξ δ :=
  { s.goto t (if ((s.semaphore x).p t).2 then k else .p x :: k) with
    semaphore := Function.update s.semaphore x ((s.semaphore x).p t).1
    asleep := Function.update s.asleep t (!((s.semaphore x).p t).2) }

/-- One round of the loop of the `P` in `Acquire`. -/
def tryAcquire (t : τ) (l : μ) (k : List (Stmt σ μ ξ)) : State τ σ μ ξ δ :=
  { s.goto t (if ((s.lock l).p t).2 then .assign l :: k else .acquire l :: k) with
    lock := Function.update s.lock l ((s.lock l).p t).1
    asleep := Function.update s.asleep t (!((s.lock l).p t).2) }

/-- The next statement of thread `t`; `none` when it has none, is asleep, has to wait, or fails an
`ASSERT`. -/
def run (P : Program τ σ μ ξ ε γ δ) (t : τ) : Option (State τ σ μ ξ δ) :=
  if s.asleep t then none
  else
    match s.code t with
    | [] => none
    | .p x :: k => some (s.tryP t x k)
    | .v x :: k => some ((s.post x).goto t k)
    | .acquire l :: k => some (s.tryAcquire t l k)
    | .assign l :: k =>
      some { s.goto t k with lock := Function.update s.lock l ((s.lock l).assign t) }
    | .release l :: k =>
      some (s.goto t (if (s.lock l).isHeldBy t then .clear l :: .unlock l :: k else k))
    | .clear l :: k => some { s.goto t k with lock := Function.update s.lock l (s.lock l).clear }
    | .unlock l :: k =>
      some { s.goto t k with
        lock := Function.update s.lock l (s.lock l).v.1
        asleep := s.wake (s.lock l).v.2 }
    | .own x :: k =>
      if P.ready x s.data then
        (P.exec t x s.data).map fun (d, more) => { s.goto t (more ++ k) with data := d }
      else none

def step (P : Program τ σ μ ξ ε γ δ) : Action τ ε γ → Option (State τ σ μ ξ δ)
  | .call t c =>
    match s.code t with
    | [] => some (s.goto t (P.body c))
    | _ :: _ => none
  | .run t => s.run P t
  | .interrupt e =>
    if P.pending e s.data then
      (P.handle e s.data).map fun (d, posted) => posted.foldl post { s with data := d }
    else none

end State

/-- Threads that start with the code `start`, over new locks and semaphores. -/
def system (P : Program τ σ μ ξ ε γ δ) (initialValue : σ → ℤ) (start : τ → List (Stmt σ μ ξ)) (d : δ) :
    Transition.System (State τ σ μ ξ δ) (Action τ ε γ) where
  init s := s = ⟨fun x => Semaphore.new (initialValue x), fun _ => Lock.new, start, fun _ => false, d⟩
  step s a s' := s.step P a = some s'

/-- No `ASSERT` is about to fail in `s`. -/
structure Safe (P : Program τ σ μ ξ ε γ δ) (s : State τ σ μ ξ δ) : Prop where
  exec : ∀ t x k, s.code t = .own x :: k → P.ready x s.data = true → (P.exec t x s.data).isSome
  handle : ∀ e, P.pending e s.data = true → (P.handle e s.data).isSome

end Nachos.Process
