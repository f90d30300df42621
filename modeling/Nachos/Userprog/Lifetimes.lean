import Nachos.Threads.Kernel
import Nachos.Userprog.Paging

/-!
# User threads that come and go

The thread kernel and the memory together.  Creating a thread gives it a pid, the index of its slot in
the table of threads, and deleting it frees the slot.  The page table knows threads by their pids only,
and `AddrSpace::~AddrSpace` leaves it as it is.

`filler` is a history: the thread whose page fault filled the frame last.
-/

namespace Nachos.Lifetimes

open Kernel Machine

structure State (τ σ μ κ ξ δ : Type) where
  kernel : Kernel.State τ σ μ κ ξ δ
  memory : Paging.State
  /-- The member `new_add_pid`. -/
  pid : τ → ℤ
  filler : ℕ → Option τ

variable {τ σ μ κ ξ δ : Type} [DecidableEq τ] [DecidableEq σ] [DecidableEq μ] [DecidableEq κ]

namespace State

/-- The thread that the current thread creates next, if that is what it does. -/
def creating (s : State τ σ μ κ ξ δ) : Option τ :=
  match s.kernel.code, s.kernel.program s.kernel.currentThread with
  | [], .create t :: _ => some t
  | _, _ => none

/-- The pids after a step of the kernel.  A thread that finds the table full has `garbage` for its
pid. -/
def newPid (s : State τ σ μ κ ξ δ) (garbage : ℤ) : τ → ℤ :=
  match s.creating with
  | some t =>
    Function.update s.pid t
      (match s.kernel.globalThreadManager.addNewThreadtoList t with
        | some (_, i) => i
        | none => garbage)
  | none => s.pid

/-- The fillers after the current thread's access: a page fault takes a frame. -/
def newFiller (s : State τ σ μ κ ξ δ) (m : Paging.State) : Paging.Event → ℕ → Option τ
  | .fault pid _ =>
    match m.serving pid with
    | some (_, newPhysicPage) =>
      Function.update s.filler newPhysicPage (some s.kernel.currentThread)
    | none => s.filler
  | _ => s.filler

end State

/-- The kernel makes a step, or the current thread, outside the kernel, one of an access.  While the
thread is in the page fault handler, it waits for the disk in the kernel. -/
inductive Step (P : Program τ σ μ κ ξ δ) (s : State τ σ μ κ ξ δ) : State τ σ μ κ ξ δ → Prop where
  | kernel {k garbage} (h : Kernel.Step P s.kernel k) :
      Step P s { s with kernel := k, pid := s.newPid garbage }
  | access {virtualMemory e m} (hcode : s.kernel.code = [])
      (hcreated : s.kernel.created s.kernel.currentThread = true)
      (hpid : e.pid = s.pid s.kernel.currentThread)
      (h : Paging.Step virtualMemory s.memory e m) :
      Step P s { s with memory := m, filler := s.newFiller m e }

/-- The main thread has the first slot. -/
def start (main : τ) (func : ξ) (initialValue : σ → ℤ) (d : δ) (garbage : ℕ → BitVec 32) :
    State τ σ μ κ ξ δ where
  kernel := Kernel.start main func initialValue d
  memory := ⟨.new garbage, fun _ => none⟩
  pid _ := 0
  filler _ := none

def system (P : Program τ σ μ κ ξ δ) (main : τ) (func : ξ) (initialValue : σ → ℤ) (d : δ)
    (garbage : ℕ → BitVec 32) : Transition.System (State τ σ μ κ ξ δ) Unit where
  init s := s = start main func initialValue d garbage
  step s _ s' := Step P s s'

end Nachos.Lifetimes
