import Nachos.Filesys.Equiv.Volume
import Nachos.Lib.Interleaving

/-!
# Threads that write to files of their own

Any number of threads call `Write`, each through a handle of its own file, and another thread may run
at every sector that is read or written.  `Write` holds the semaphore of its header sector, which no
other thread here asks for; nothing protects the free map.

A thread is *extending* its file from where it reads the header of the free map until it writes the
map back.  Which threads are is part of the history that a state keeps, and `alone` is the condition
on a step that they do this one at a time.
-/

namespace Nachos

open Storage

/-- Calls of `Write`, one after the other. -/
def OpenFile.writes (f : OpenFile) : List (Buf × ℤ) → FsProg OpenFile
  | [] => return f
  | (data, n) :: calls => do
    let (_, f) ← f.write data n
    f.writes calls

namespace ConcurrentGrowth

open FileHeader (sectorsFor)

/-- The values of the semaphores of `SynchDisk`, and the threads that are extending their file. -/
structure Shared (τ : Type) where
  readerWtiterSemap : ℤ → ℕ
  extending : τ → Bool

abbrev State (τ : Type) := Threads τ ℕ Sector Buf SyncCall OpenFile (Shared τ)

variable {τ : Type}

def disk (st : State τ) : Disk := st.store

/-- All calls have returned. -/
def Finished (st : State τ) : Prop := ∀ t, ∃ f, st.pool t = .ret f

/-- The threads before their calls. -/
structure Setup (τ : Type) where
  disk : Disk
  entry : τ → Fin NumDirEntries
  handle : τ → OpenFile
  calls : τ → List (Buf × ℤ)

/-- A consistent disk, on which each thread has opened a file of its own. -/
structure Setup.Proper (S : Setup τ) : Prop where
  consistent : ∃ o, S.disk.Holds o
  own : Function.Injective S.entry
  opened : ∀ t, ∃ s : ℕ, S.disk.headerSector (.entry (S.entry t)) = some (s : ℤ) ∧
    (S.handle t).hdr.SameFile (S.disk.header s) ∧ 0 ≤ (S.handle t).seekPosition

/-- The writes extend a file of `len` bytes, the cursor being at `pos`, by at most one sector each,
and to at most 25 sectors. -/
def Modest (len pos : ℕ) : List (Buf × ℤ) → Prop
  | [] => True
  | (_, n) :: calls =>
    if n ≤ 0 then Modest len pos calls
    else sectorsFor (pos + n.toNat) ≤ sectorsFor len + 1 ∧ sectorsFor (pos + n.toNat) < NumDirect ∧
      Modest (max len (pos + n.toNat)) (pos + n.toNat) calls

def Setup.Modest (S : Setup τ) : Prop := ∀ t, sectorsFor (S.handle t).length.toNat < NumDirect ∧
  ConcurrentGrowth.Modest (S.handle t).length.toNat (S.handle t).seekPosition.toNat (S.calls t)

variable [DecidableEq τ]

/-- What an event of thread `t` does to the semaphores and to the history.  `P` waits for a positive
value; readers do not occur. -/
def after (d : Disk) (c : Shared τ) (t : τ) : Event ℕ Sector SyncCall → Shared τ → Prop
  | .read x _, c' => c' =
    if (x : ℤ) = FreeMapSector then { c with extending := Function.update c.extending t true } else c
  | .write x _, c' => c' =
    if (x : ℤ) ∈ (d.header FreeMapSector).listed d then
      { c with extending := Function.update c.extending t false }
    else c
  | .ask, c' => c' = c
  | .sync (.writerStart s), c' => 0 < c.readerWtiterSemap s ∧ c' =
    { c with readerWtiterSemap := Function.update c.readerWtiterSemap s (c.readerWtiterSemap s - 1) }
  | .sync (.writerExit s), c' => c' =
    { c with readerWtiterSemap := Function.update c.readerWtiterSemap s (c.readerWtiterSemap s + 1) }
  | .sync (.readerStart _), _ => False
  | .sync (.readerExit _), _ => False

def Setup.start (S : Setup τ) : State τ :=
  ⟨fun t => (S.handle t).writes (S.calls t), S.disk, ⟨fun _ => 1, fun _ => false⟩⟩

def Setup.system (S : Setup τ) : Transition.System (State τ) (τ × Event ℕ Sector SyncCall) :=
  interleaving after S.start

/-- A thread starts to extend its file only when no other thread is doing so, and there is a clear
sector. -/
def alone (st : State τ) : τ × Event ℕ Sector SyncCall → Prop
  | (t, .read x _) => (x : ℤ) = FreeMapSector →
    (∀ t', t' ≠ t → st.shared.extending t' = false) ∧ 0 < (disk st).freeMap.numClear
  | _ => True

end ConcurrentGrowth

end Nachos
