import Nachos.Filesys.SynchDisk
import Nachos.Threads.Process

/-!
# Disk requests by several threads (`filesys/synchdisk.cc`, `machine/disk.cc`)

`ReadSector` and `WriteSector` hold the lock of the `SynchDisk` from start to end.  A request makes the
disk `active` and schedules an interrupt, whose handler, `HandleInterrupt`, makes the disk inactive and
posts the semaphore for which the thread waits.  A read that is served from the cache makes no request
and calls `HandleInterrupt` itself.

The calls are numbered in the order in which they get to their request.  `completed` is a history of
the calls of `HandleInterrupt`, and `returned` one of the calls of `P` that have returned.
-/

namespace Nachos.SynchDisk

/-- The disk with its cache, and the interrupts it has scheduled, by the number of the request. -/
structure Device (τ : Type) where
  synchDisk : SynchDisk
  active : Bool
  pending : List ℕ
  requests : ℕ
  /-- The number of each thread's last call. -/
  number : τ → ℕ
  completed : List ℕ
  returned : List ℕ

namespace Device

variable {τ : Type}

def new (sd : SynchDisk) : Device τ := ⟨sd, false, [], 0, fun _ => 0, [], []⟩

/-- `Disk::HandleInterrupt` up to the call of `RequestDone`, which is `semaphore->V()`. -/
def handleInterrupt (d : Device τ) (r : ℕ) : Device τ :=
  { d with active := false, completed := d.completed ++ [r] }

/-- The end of `ReadRequest` and `WriteRequest`. -/
def issue (d : Device τ) (r : ℕ) (sd : SynchDisk) : Device τ :=
  { d with synchDisk := sd, active := true, pending := d.pending ++ [r] }

end Device

/-- A call for a sector of the disk. -/
abbrev ValidCall := { c : Call // Disk.InRange c.sector }

/-- The code of `ReadSector` and `WriteSector` between the synchronization. -/
inductive Code where
  /-- From `Acquire` to `P`, with the `V` of a read served from the cache left over. -/
  | request (c : ValidCall)
  /-- `P` has returned. -/
  | finish

variable {τ : Type} [DecidableEq τ]

def Code.exec (t : τ) (d : Device τ) : Code → Option (Device τ × List (Process.Stmt Unit Unit Code))
  | .request ⟨c, _⟩ =>
    let r := d.requests
    let d := { d with requests := r + 1, number := Function.update d.number t r }
    match c with
    | .read s =>
      match d.synchDisk.find s with
      | none =>
        if d.active then none
        else (d.synchDisk.readSector s).map fun (_, sd) => (d.issue r sd, [])
      | some _ => some (d.handleInterrupt r, [.v ()])
    | .write s data =>
      if d.active then none
      else (d.synchDisk.writeSector s data).map fun sd => (d.issue r sd, [])
  | .finish => some ({ d with returned := d.returned ++ [d.number t] }, [])

/-- The calls of threads, and the disk's interrupts. -/
def program : Process.Program τ Unit Unit Code ℕ ValidCall (Device τ) where
  body c := [.acquire (), .own (.request c), .p (), .own .finish, .release ()]
  exec t x d := x.exec t d
  ready _ _ := true
  pending r d := r ∈ d.pending
  handle r d := some ({ d.handleInterrupt r with pending := d.pending.erase r }, [()])

/-- Any number of threads using the disk; the semaphore is created with value 0. -/
def requests (τ : Type) [DecidableEq τ] (sd : SynchDisk) :
    Transition.System (Process.State τ Unit Unit Code (Device τ)) (Process.Action τ ℕ ValidCall) :=
  Process.system program (fun _ => 0) (fun _ => []) (.new sd)

end Nachos.SynchDisk
