import Nachos.Lib.Transition
import Nachos.Threads.Utility

/-!
# Replacement in the TLB (`machine/machine.cc`)

Each slot has a counter, which is reset when the slot is used and grows with every use of any other.
`Swaptlb` looks for the largest counter in the same loop that increments them.  An increment past the
range of `int` is undefined, which is `none` here.
-/

namespace Nachos.Tlb

/-- `tlbflag[i] = i`, in the constructor of the machine. -/
def initial (i : ℕ) : ℤ := i

/-- `tlbflag[i]++`. -/
def increment (tlbflag : ℕ → ℤ) (i : ℕ) : Option (ℕ → ℤ) :=
  if tlbflag i < 2 ^ 31 - 1 then some (Function.update tlbflag i (tlbflag i + 1)) else none

/-- The loop of `Swaptlb`, up to slot `i`: the counters and `max`. -/
def swapLoop (tlbflag : ℕ → ℤ) : ℕ → Option ((ℕ → ℤ) × ℕ)
  | 0 => some (tlbflag, 0)
  | i + 1 => do
    let (tlbflag, max) ← swapLoop tlbflag i
    let tlbflag ← increment tlbflag i
    return (tlbflag, if tlbflag i > tlbflag max then i else max)

def swaptlb (tlbSize : ℕ) (tlbflag : ℕ → ℤ) : Option (ℕ × (ℕ → ℤ)) := do
  let (tlbflag, max) ← swapLoop tlbflag tlbSize
  return (max, Function.update tlbflag max 0)

/-- The loop of `Hittlb`, up to slot `i`. -/
def hitLoop (tlbflag : ℕ → ℤ) : ℕ → Option (ℕ → ℤ)
  | 0 => some tlbflag
  | i + 1 => do
    let tlbflag ← hitLoop tlbflag i
    increment tlbflag i

def hittlb (tlbSize : ℕ) (tlbflag : ℕ → ℤ) (hiti : ℕ) : Option (ℕ → ℤ) := do
  let tlbflag ← hitLoop tlbflag tlbSize
  return Function.update tlbflag hiti 0

/-- The counters, and the slots used so far, the latest first. -/
structure State where
  tlbflag : ℕ → ℤ
  history : List ℕ

inductive Event where
  /-- A call of `Hittlb`. -/
  | hit (slot : ℕ)
  /-- A call of `Swaptlb`, which returns the slot. -/
  | swap (slot : ℕ)

inductive Step (tlbSize : ℕ) (s : State) : Event → State → Prop where
  | hit {slot tlbflag} (hslot : slot < tlbSize)
      (hhit : hittlb tlbSize s.tlbflag slot = some tlbflag) :
      Step tlbSize s (.hit slot) ⟨tlbflag, slot :: s.history⟩
  | swap {slot tlbflag} (hswap : swaptlb tlbSize s.tlbflag = some (slot, tlbflag)) :
      Step tlbSize s (.swap slot) ⟨tlbflag, slot :: s.history⟩

/-- The histories in which no counter leaves the range of `int`. -/
def system (tlbSize : ℕ) : Transition.System State Event where
  init s := s = ⟨initial, []⟩
  step := Step tlbSize

end Nachos.Tlb
