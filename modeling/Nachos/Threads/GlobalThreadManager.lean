import Mathlib.Data.List.Basic

/-!
# The table of threads (`threads/scheduler.cc`)

`GlobalThreadManager` keeps a pointer to every live thread in the first free of 128 slots; the
index of the slot is the thread's pid.
-/

namespace Nachos

/-- `MAXTHREADNUM` -/
def maxThreadNum : ℕ := 128

/-- `class GlobalThreadManager`; `none` is a NULL slot. -/
structure GlobalThreadManager (τ : Type) where
  globalThreadList : List (Option τ)
  length_eq : globalThreadList.length = maxThreadNum

namespace GlobalThreadManager

variable {τ : Type}

/-- The constructor: every slot NULL. -/
def new : GlobalThreadManager τ := ⟨List.replicate maxThreadNum none, List.length_replicate⟩

/-- The store `GlobalThreadList[i] = x`. -/
def set (m : GlobalThreadManager τ) (i : ℕ) (x : Option τ) : GlobalThreadManager τ :=
  ⟨m.globalThreadList.set i x, by rw [List.length_set, m.length_eq]⟩

/-- `AddNewThreadtoList`: the first NULL slot is taken, and its index becomes the pid; `none` when
the table is full. -/
def addNewThreadtoList (m : GlobalThreadManager τ) (t : τ) : Option (GlobalThreadManager τ × ℕ) :=
  (m.globalThreadList.findIdx? (·.isNone)).map fun i => (m.set i (some t), i)

/-- `RemoveThreadFromList`: the first slot that holds the thread is cleared. -/
def removeThreadFromList [DecidableEq τ] (m : GlobalThreadManager τ) (t : τ) : GlobalThreadManager τ :=
  match m.globalThreadList.findIdx? (· == some t) with
  | some i => m.set i none
  | none => m

/-- The thread has a slot. -/
def Holds (m : GlobalThreadManager τ) (t : τ) : Prop := some t ∈ m.globalThreadList

end GlobalThreadManager

end Nachos
