import Nachos.Threads.Process
import Nachos.Threads.Utility

/-!
# The console (`machine/console.cc`)

The console device has a buffer for one character, `incoming`, in which `EOF` stands for "empty".  An
interrupt that is scheduled again and again polls the input: it reads a character if the buffer is empty
and one is there, and posts `readAvail`.  `SynchConsole::GetChar` waits for `readAvail` with the lock of
the console held, and then empties the buffer; `PutChar` waits for the interrupt that its own request
schedules.

A `char` is signed, so that the byte 255 compares equal to `EOF`.

`read` and `returned` are a history: the characters that were put into the buffer, and those that
`GetChar` has returned.
-/

namespace Nachos.Console

abbrev EOF : ℤ := -1

structure Device where
  incoming : Byte
  putBusy : Bool
  /-- The input that has not been read. -/
  input : List Byte
  output : List Byte
  /-- How many write interrupts are pending. -/
  writing : ℕ
  read : List Byte
  returned : List Byte

namespace Device

/-- The constructor. -/
def new (input : List Byte) : Device := ⟨BitVec.ofInt 8 EOF, false, input, [], 0, [], []⟩

/-- `Console::GetChar` -/
def getChar (d : Device) : Device :=
  { d with incoming := BitVec.ofInt 8 EOF, returned := d.returned ++ [d.incoming] }

/-- `Console::PutChar` -/
def putChar (d : Device) (ch : Byte) : Option Device :=
  if d.putBusy then none
  else some { d with output := d.output ++ [ch], putBusy := true, writing := d.writing + 1 }

end Device

inductive Sem where
  | readAvail
  | writeDone
  deriving DecidableEq

inductive Code where
  | getChar
  | putChar (ch : Byte)

inductive Call where
  | getChar
  | putChar (ch : Byte)

inductive Interrupt where
  /-- `ConsoleReadPoll`, with the answer of `PollFile` -/
  | readPoll (available : Bool)
  /-- `ConsoleWriteDone` -/
  | writeDone

/-- `Console::CheckCharAvail` -/
def checkCharAvail (available : Bool) (d : Device) : Option (Device × List Sem) :=
  if d.incoming.toInt ≠ EOF ∨ ¬ available then some (d, [])
  else
    match d.input with
    | c :: rest => some ({ d with incoming := c, input := rest, read := d.read ++ [c] }, [.readAvail])
    | [] => none

/-- `Console::WriteDone` -/
def writeDone (d : Device) : Option (Device × List Sem) :=
  some ({ d with putBusy := false, writing := d.writing - 1 }, [.writeDone])

/-- The calls of threads and the console's interrupts.  A poll is always scheduled, and finds a character
only if there is one. -/
def program (τ : Type) : Process.Program τ Sem Unit Code Interrupt Call Device where
  body
    | .getChar => [.acquire (), .p .readAvail, .own .getChar, .release ()]
    | .putChar ch => [.acquire (), .own (.putChar ch), .p .writeDone, .release ()]
  exec _ x d :=
    match x with
    | .getChar => some (d.getChar, [])
    | .putChar ch => (d.putChar ch).map fun d => (d, [])
  ready _ _ := true
  pending e d :=
    match e with
    | .readPoll available => !available || !d.input.isEmpty
    | .writeDone => 0 < d.writing
  handle e d :=
    match e with
    | .readPoll available => checkCharAvail available d
    | .writeDone => writeDone d

/-- Any number of threads that use the `SynchConsole`, with the keyboard's input. -/
def system (τ : Type) [DecidableEq τ] (input : List Byte) :
    Transition.System (Process.State τ Sem Unit Code Device) (Process.Action τ Interrupt Call) :=
  Process.system (program τ) (fun _ => 0) (fun _ => []) (.new input)

end Nachos.Console
