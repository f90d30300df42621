import Nachos.Lib.Transition
import Nachos.Userprog.Exception

/-!
# Threads that use memory

User threads, named by their pids, read and write virtual memory.  `ReadMem` and `WriteMem` translate
the address; on a page fault they call the handler and translate again.  A thread in the handler waits
for the disk between its two halves (`serving`), and other threads run.  Otherwise an access is not
interrupted.
-/

namespace Nachos.Paging

/-- A call of `ReadMem` or `WriteMem`. -/
inductive Access where
  | read (addr : CInt) (size : ℕ)
  | write (addr : CInt) (size : ℕ) (value : CInt)

namespace Access

def addr : Access → CInt
  | .read addr _ => addr
  | .write addr _ _ => addr

def size : Access → ℕ
  | .read _ size => size
  | .write _ size _ => size

def writing : Access → Bool
  | .read _ _ => false
  | .write _ _ _ => true

end Access

/-- The first or second translation of an access. -/
def translate (m : Machine) (pid : ℤ) (access : Access) :
    Option (Except ExceptionType (ℕ × Machine)) :=
  m.translate pid access.addr access.size access.writing

/-- The rest of an access, with its result: the value, for `ReadMem`. -/
def perform (m : Machine) (physicalAddress : ℕ) : Access → Option (Option CInt × Machine)
  | .read _ size => (m.readValue physicalAddress size).map fun value => (some value, m)
  | .write _ size value => (m.writeValue physicalAddress value size).map fun m => (none, m)

/-- The machine, and for each thread in the handler the access and the frame. -/
structure State where
  machine : Machine
  serving : ℤ → Option (Access × ℕ)

/-- What can be seen of a step. -/
inductive Event where
  /-- The handler is called. -/
  | fault (pid : ℤ) (access : Access)
  /-- The access returns TRUE. -/
  | done (pid : ℤ) (access : Access) (result : Option CInt)
  /-- The access returns FALSE. -/
  | failed (pid : ℤ) (access : Access)

def Event.access : Event → Access
  | .fault _ access => access
  | .done _ access _ => access
  | .failed _ access => access

def Event.pid : Event → ℤ
  | .fault pid _ => pid
  | .done pid _ _ => pid
  | .failed pid _ => pid

inductive Step (virtualMemory : File) (s : State) : Event → State → Prop where
  | hit {pid access physicalAddress m result m'} (hidle : s.serving pid = none)
      (htranslate : translate s.machine pid access = some (.ok (physicalAddress, m)))
      (hperform : perform m physicalAddress access = some (result, m')) :
      Step virtualMemory s (.done pid access result) { s with machine := m' }
  | fault {pid access newPhysicPage m} (hidle : s.serving pid = none)
      (htranslate : translate s.machine pid access = some (.error .pageFaultException))
      (hallocate : s.machine.allocatePage pid access.addr = some (newPhysicPage, m)) :
      Step virtualMemory s (.fault pid access)
        ⟨m, Function.update s.serving pid (some (access, newPhysicPage))⟩
  | served {pid access newPhysicPage m₀ physicalAddress m result m'}
      (hserving : s.serving pid = some (access, newPhysicPage))
      (hload : s.machine.loadPage virtualMemory newPhysicPage access.addr = some m₀)
      (htranslate : translate m₀ pid access = some (.ok (physicalAddress, m)))
      (hperform : perform m physicalAddress access = some (result, m')) :
      Step virtualMemory s (.done pid access result) ⟨m', Function.update s.serving pid none⟩
  | failed {pid access newPhysicPage m₀ exception}
      (hserving : s.serving pid = some (access, newPhysicPage))
      (hload : s.machine.loadPage virtualMemory newPhysicPage access.addr = some m₀)
      (htranslate : translate m₀ pid access = some (.error exception)) :
      Step virtualMemory s (.failed pid access) ⟨m₀, Function.update s.serving pid none⟩

/-- The runs from the constructor of the machine, when the file `VirtualMemory` is one of `files` at
each page fault. -/
def system (garbage : ℕ → BitVec 32) (files : File → Prop) : Transition.System State Event where
  init s := s = ⟨.new garbage, fun _ => none⟩
  step s e s' := ∃ virtualMemory, files virtualMemory ∧ Step virtualMemory s e s'

end Nachos.Paging
