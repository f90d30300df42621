import Nachos.Threads.Kernel

/-!
# The thread tests (`threads/threadtest.cc`)

Threads that share a counter, chopsticks or a barrier, and the routines that fork them.  A loop is a
piece of own code that puts its body and itself back, with the loop's variable as an argument; what is
printed is left out.
-/

namespace Nachos.ThreadTest

open Kernel (Op)

/-- The semaphores of the file. -/
inductive Sem where
  | mutex
  | empty
  | full
  | chopsticks (i : Fin 4)
  deriving DecidableEq

inductive Lck where
  | proConLock
  | barrierLock
  deriving DecidableEq

inductive Cond where
  | con
  | barrierCond
  deriving DecidableEq

/-- The file's variables that threads share. -/
structure Data where
  itemnum : ℤ
  countnum : ℤ
  barrierFlag : Fin 4 → ℤ
  deriving DecidableEq

/-- The values the semaphores are constructed with. -/
def initialValue : Sem → ℤ
  | .mutex => 1
  | .empty => 10
  | .full => 0
  | .chopsticks _ => 1

/-- The lock that is passed with a condition. -/
def lockOf : Cond → Lck
  | .con => .proConLock
  | .barrierCond => .barrierLock

/-- The threads' own code. -/
inductive Code where
  /-- `ThreadTest2` and `ThreadTest3`, which differ in the threads they fork. -/
  | threadTest
  | threadTest4
  | producerSemaphore (loop : ℕ)
  | consumerSemaphore (loop : ℕ)
  | producerCond (loop : ℕ)
  | consumerCond (loop : ℕ)
  /-- `itemnum++` -/
  | produce
  /-- `itemnum--` -/
  | consume
  /-- `if (itemnum<=0) con->Wait(pro_con_lock)` -/
  | waitIfEmpty
  | philosopherDeadlock (which : Fin 4) (i : ℕ)
  | philosopher (which : Fin 4) (i : ℕ)
  | barrierFunction (which : Fin 4) (i : ℕ)
  /-- The inner loop of `barrier_function`, and what follows it. -/
  | barrierCount (which : Fin 4) (i : ℕ) (thiscountnum : ℤ)
  /-- `barrier_flag[which] = 1` and the test after it. -/
  | arrive (which : Fin 4)
  /-- `countnum += thiscountnum` and `barrier_flag[which] = 0`. -/
  | add (which : Fin 4) (thiscountnum : ℤ)
  deriving DecidableEq

/-- `all_thread_ready` -/
def allThreadReady (d : Data) : Bool := (List.finRange 4).all fun i => d.barrierFlag i = 1

/-- `(which-1+4)%4` -/
def left (which : Fin 4) : Fin 4 := which - 1

/-- What a test does: the threads it creates and those it forks, in order, and the number of times the
main thread yields before it finishes. -/
structure Test (τ : Type) where
  created : List τ
  forked : List (τ × Code)
  rounds : ℕ

variable {τ : Type}

/-- `server_get` -/
def serverGet (which : Fin 4) : List (Op τ Sem Lck Cond Code) :=
  [.p (.chopsticks (left which)), .yield, .p (.chopsticks which)]

/-- `server_ret` -/
def serverRet (which : Fin 4) : List (Op τ Sem Lck Cond Code) :=
  [.v (.chopsticks (left which)), .yield, .v (.chopsticks which)]

/-- The body of the loop of `Producer_semaphore`. -/
def produceSemaphore : List (Op τ Sem Lck Cond Code) :=
  [.p .empty, .yield, .p .mutex, .yield, .own .produce, .yield, .v .mutex, .yield, .v .full]

/-- The body of the loop of `Consumer_semaphore`. -/
def consumeSemaphore : List (Op τ Sem Lck Cond Code) :=
  [.p .full, .yield, .p .mutex, .yield, .own .consume, .v .mutex, .yield, .v .empty]

/-- The body of the loop of `Producer_cond`. -/
def produceCond : List (Op τ Sem Lck Cond Code) :=
  [.acquire .proConLock, .yield, .own .produce, .yield, .release .proConLock, .yield, .broadcast .con]

/-- The body of the loop of `Consumer_cond`. -/
def consumeCond : List (Op τ Sem Lck Cond Code) :=
  [.acquire .proConLock, .yield, .own .waitIfEmpty, .yield, .own .consume, .yield,
    .release .proConLock, .yield]

/-- The body of the loop of `Philosopher_deadlock`. -/
def dineDeadlock (which : Fin 4) : List (Op τ Sem Lck Cond Code) :=
  [.p (.chopsticks (left which)), .yield, .p (.chopsticks which), .yield, .yield,
    .v (.chopsticks (left which)), .yield, .v (.chopsticks which), .yield]

/-- The body of the loop of `Philosopher`. -/
def dine (which : Fin 4) : List (Op τ Sem Lck Cond Code) :=
  .p .mutex :: (serverGet which ++ .v .mutex :: .p .mutex :: (serverRet which ++ [.v .mutex]))

/-- What follows the inner loop of `barrier_function`, up to the end of the outer one. -/
def passBarrier (which : Fin 4) (thiscountnum : ℤ) : List (Op τ Sem Lck Cond Code) :=
  [.acquire .barrierLock, .own (.arrive which), .own (.add which thiscountnum), .yield,
    .release .barrierLock, .yield, .broadcast .barrierCond]

/-- The calls of a test's main thread; `main` calls `Finish` after `ThreadTest`. -/
def Test.main (T : Test τ) : List (Op τ Sem Lck Cond Code) :=
  T.created.map .create ++ T.forked.map (fun p => .fork p.1 p.2) ++ List.replicate T.rounds .yield ++
    [.finish]

/-- What a piece of code does. -/
def Test.body (T : Test τ) : Code → Data → Data × List (Op τ Sem Lck Cond Code)
  | .threadTest, d => (d, T.main)
  -- `init_flag`
  | .threadTest4, d => ({ d with barrierFlag := fun _ => 0 }, T.main)
  | .producerSemaphore loop, d =>
    (d, if loop ≤ 5 then produceSemaphore ++ [.own (.producerSemaphore (loop + 1))] else [])
  | .consumerSemaphore loop, d =>
    (d, if loop ≤ 10 then consumeSemaphore ++ [.own (.consumerSemaphore (loop + 1))] else [])
  | .producerCond loop, d =>
    (d, if loop ≤ 5 then produceCond ++ [.own (.producerCond (loop + 1))] else [])
  | .consumerCond loop, d =>
    (d, if loop ≤ 5 then consumeCond ++ [.own (.consumerCond (loop + 1))] else [])
  | .produce, d => ({ d with itemnum := d.itemnum + 1 }, [])
  | .consume, d => ({ d with itemnum := d.itemnum - 1 }, [])
  | .waitIfEmpty, d => (d, if d.itemnum ≤ 0 then [.wait .con .proConLock] else [])
  | .philosopherDeadlock which i, d =>
    (d, if i < 20 then dineDeadlock which ++ [.own (.philosopherDeadlock which (i + 1))] else [])
  | .philosopher which i, d =>
    (d, if i < 10 then dine which ++ [.own (.philosopher which (i + 1))] else [])
  | .barrierFunction which i, d => (d, if i < 2 then [.own (.barrierCount which (i + 1) which.val)] else [])
  | .barrierCount which i thiscountnum, d =>
    (d, if thiscountnum < 5 then [.yield, .own (.barrierCount which i (thiscountnum + 1))]
      else passBarrier which thiscountnum ++ [.own (.barrierFunction which i)])
  | .arrive which, d =>
    let d' := { d with barrierFlag := Function.update d.barrierFlag which 1 }
    (d', if allThreadReady d' then [] else [.wait .barrierCond .barrierLock])
  | .add which thiscountnum, d =>
    ({ d with
      countnum := d.countnum + thiscountnum
      barrierFlag := Function.update d.barrierFlag which 0 }, [])

/-- The threads of a test, with no devices. -/
def Test.program (T : Test τ) : Kernel.Program τ Sem Lck Cond Code Data :=
  .ofBody fun x d => some (T.body x d)

/-- The variables' initial values. -/
def Data.start : Data := ⟨0, 0, fun _ => 0⟩

/-- The runs of a test, from the code `func` of its main thread. -/
def Test.system [DecidableEq τ] (T : Test τ) (main : τ) (func : Code) :
    Transition.System (Kernel.State τ Sem Lck Cond Code Data) Unit :=
  Kernel.system T.program main func initialValue Data.start

end Nachos.ThreadTest
