import Nachos.Userprog.Paging

/-!
# What virtual memory is for

Every thread has an array of bytes of its own, which at first is the file `VirtualMemory`, with zeros
after its end.  Reads return the little-endian value of the bytes, signed when there is only one;
writes store the low-order bytes of the value.
-/

namespace Nachos.FlatMemory

open Paging

/-- The value of the `size` bytes at `a`. -/
def value (mem : Buf) (a : ℕ) : ℕ → Option CInt
  | 1 => some (BitVec.ofInt 32 (mem a).toInt)
  | 2 => some (BitVec.ofNat 32 ((mem a).toNat + 2 ^ 8 * (mem (a + 1)).toNat))
  | 4 => some (BitVec.ofNat 32 ((mem a).toNat + 2 ^ 8 * (mem (a + 1)).toNat +
      2 ^ 16 * (mem (a + 2)).toNat + 2 ^ 24 * (mem (a + 3)).toNat))
  | _ => none

/-- The array after the low-order `size` bytes of `v` have been stored at `a`. -/
def store (mem : Buf) (a size : ℕ) (v : CInt) : Buf := fun x =>
  if a ≤ x ∧ x < a + size then BitVec.ofNat 8 (v.toNat / 2 ^ (8 * (x - a))) else mem x

/-- Page faults cannot be seen, and no access fails. -/
inductive Step (mem : ℤ → Buf) : Event → (ℤ → Buf) → Prop where
  | fault {pid access} : Step mem (.fault pid access) mem
  | read {pid a size v} (h : value (mem pid) a.toNat size = some v) :
      Step mem (.done pid (.read a size) (some v)) mem
  | write {pid a size v} (h : size = 1 ∨ size = 2 ∨ size = 4) :
      Step mem (.done pid (.write a size v) none)
        (Function.update mem pid (store (mem pid) a.toNat size v))

def system (virtualMemory : File) : Transition.System (ℤ → Buf) Event where
  init mem := mem = fun _ => virtualMemory.byteAt
  step := Step

end Nachos.FlatMemory

namespace Nachos.Paging

open Machine

/-- Aligned accesses of 1, 2 or 4 bytes, in the lower half of the addresses. -/
def Access.Regular (access : Access) : Prop :=
  (access.size = 1 ∨ access.size = 2 ∨ access.size = 4) ∧
    misaligned access.addr access.size = false ∧ access.addr.toNat < 2 ^ 31

/-- The thread is in the handler, and the frame is mapped but not filled yet. -/
abbrev State.Loading (s : State) (pid : ℤ) (j : ℕ) : Prop := (s.serving pid).map Prod.snd = some j

/-- The array of the thread `pid`: what is in its frames, and the file where it has none. -/
def State.view (virtualMemory : File) (s : State) (pid : ℤ) : Buf := fun a =>
  match s.machine.entryFor pid (vpn (BitVec.ofNat 32 a)) with
  | some j =>
    if a < 2 ^ 31 ∧ ¬ s.Loading pid j then s.machine.mainMemory (j * PageSize + a % PageSize)
    else virtualMemory.byteAt a
  | none => virtualMemory.byteAt a

end Nachos.Paging
