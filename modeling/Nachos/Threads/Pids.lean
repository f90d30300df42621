import Mathlib.Data.Int.Notation
import Mathlib.Logic.Function.Basic
import Nachos.Lib.Transition
import Nachos.Threads.GlobalThreadManager

/-!
# Creating and deleting threads (`threads/thread.cc`)

The constructor of a thread asks for a slot of the table, and the index of the slot is the pid.  When
the table is full the constructor calls the destructor and carries on: the object is there like any
other, and its pid is what the memory held.  Threads are the addresses of their objects, so that a new
thread can be where one was deleted.
-/

namespace Nachos.Pids

structure State (τ : Type) where
  globalThreadManager : GlobalThreadManager τ
  /-- The member `new_add_pid`. -/
  pid : τ → ℤ
  /-- The objects that have been constructed and not deleted; `Fork` can be called for them. -/
  constructed : τ → Bool

inductive Event (τ : Type) where
  /-- `new Thread`; `garbage` is what the memory held in place of the pid. -/
  | create (t : τ) (garbage : ℤ)
  /-- `delete t` -/
  | delete (t : τ)

variable {τ : Type} [DecidableEq τ]

namespace State

/-- `~Thread` -/
def destructor (s : State τ) (t : τ) : State τ :=
  { s with globalThreadManager := s.globalThreadManager.removeThreadFromList t }

/-- `Thread::Thread` -/
def construct (s : State τ) (t : τ) (garbage : ℤ) : State τ :=
  let constructed := Function.update s.constructed t true
  match s.globalThreadManager.addNewThreadtoList t with
  | some (m, i) => ⟨m, Function.update s.pid t i, constructed⟩
  | none =>
    -- the destructor returns to the constructor
    destructor { s with pid := Function.update s.pid t garbage, constructed } t

/-- An object is created where there is none, and deleted where there is one. -/
def next (s : State τ) : Event τ → Option (State τ)
  | .create t garbage => if s.constructed t then none else some (s.construct t garbage)
  | .delete t =>
    if s.constructed t then
      some { s.destructor t with constructed := Function.update s.constructed t false }
    else none

/-- A slot is NULL. -/
def HasRoom (s : State τ) : Prop := none ∈ s.globalThreadManager.globalThreadList

end State

/-- Nothing has been constructed, not even `main`. -/
def start (garbage : τ → ℤ) : State τ := ⟨.new, garbage, fun _ => false⟩

def system (garbage : τ → ℤ) : Transition.System (State τ) (Event τ) where
  init s := s = start garbage
  step s e s' := s.next e = some s'

/-- The constructor is called only when there is a free slot. -/
def Room (s : State τ) : Event τ → Prop
  | .create _ _ => s.HasRoom
  | .delete _ => True

/-- Every constructed thread has a pid in range that no other has. -/
def State.Unique (s : State τ) : Prop :=
  ∀ t, s.constructed t = true → (0 ≤ s.pid t ∧ s.pid t < maxThreadNum) ∧
    ∀ u, s.constructed u = true → s.pid u = s.pid t → u = t

end Nachos.Pids
