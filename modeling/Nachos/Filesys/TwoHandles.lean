import Nachos.Filesys.ArrayFile
import Nachos.Filesys.Equiv.Volume

/-!
# Two handles on one file

Two `OpenFile`s that have been opened on the same header sector are used in turn.  `SharedFile` is
what their users expect: one file with two cursors, in which every call sees all earlier writes.  A
state of the system keeps both, the handles with their disk and the file they should be.

Each handle has a copy of the header of its own.  `Current` is the condition on a call under which the
copy is good enough for it.
-/

namespace Nachos

open Storage

/-- A file with two cursors; the bytes that nobody has written yet are `none`. -/
structure SharedFile where
  length : ℕ
  bytes : ℕ → Option Byte
  cursor : Bool → ℕ

namespace TwoHandles

inductive Call where
  | file (c : FileCall)
  | length

inductive Answer where
  | file (a : FileAnswer)
  | length (n : ℤ)

def call (f : OpenFile) : Call → FsProg (Answer × OpenFile)
  | .file c => do
    let (a, f) ← f.call c
    return (.file a, f)
  | .length => return (.length f.length, f)

end TwoHandles

namespace SharedFile

open TwoHandles (Call Answer)

def write (a : SharedFile) (data : Buf) (n : ℤ) (pos : ℕ) : SharedFile :=
  if n ≤ 0 then a
  else
    { a with
      length := max a.length (pos + n.toNat)
      bytes := fun p => if pos ≤ p ∧ p < pos + n.toNat then some (data (p - pos)) else a.bytes p }

def seek (a : SharedFile) (b : Bool) (pos : ℕ) : SharedFile :=
  { a with cursor := Function.update a.cursor b pos }

/-- The file after the call `c` with the cursor `b`. -/
def next (a : SharedFile) (b : Bool) : Call → SharedFile
  | .file (.seek position) => a.seek b position.toNat
  | .file (.read _ n) => a.seek b (a.cursor b + ArrayFile.avail a.length n (a.cursor b))
  | .file (.write data n) => (a.write data n (a.cursor b)).seek b (a.cursor b + n.toNat)
  | .file (.readAt _ _ _) => a
  | .file (.writeAt data n position) => a.write data n position.toNat
  | .length => a

/-- A read of `n` bytes at `pos` delivers the bytes before the end of the file. -/
def Delivers (a : SharedFile) (into : Buf) (n : ℤ) (pos : ℕ) (count : ℤ) (into' : Buf) : Prop :=
  count = ArrayFile.avail a.length n pos ∧
    (∀ k < ArrayFile.avail a.length n pos, ∀ v, a.bytes (pos + k) = some v → into' k = v) ∧
    ∀ k, ArrayFile.avail a.length n pos ≤ k → into' k = into k

/-- The answer to a call is what it should be. -/
def Agrees (a : SharedFile) (b : Bool) : Call → Answer → Prop
  | .file (.seek _), .file .done => True
  | .file (.read into n), .file (.count m into') => a.Delivers into n (a.cursor b) m into'
  | .file (.readAt into n position), .file (.count m into') =>
    a.Delivers into n position.toNat m into'
  | .file (.write _ n), .file (.written m) => m = n.toNat
  | .file (.writeAt _ n _), .file (.written m) => m = n.toNat
  | .length, .length n => n = a.length
  | _, _ => False

end SharedFile

namespace TwoHandles

open FileHeader (sectorsFor)

structure State where
  handle : Bool → OpenFile
  disk : Disk
  file : SharedFile

namespace State

/-- A write of `n` bytes at `pos` that stays within the file, or extends it by at most one sector
within the direct table, with room on the disk. -/
def Extends (st : State) (n : ℤ) (pos : ℕ) : Prop :=
  n ≤ 0 ∨ pos + n.toNat ≤ st.file.length ∨
    sectorsFor (pos + n.toNat) ≤ sectorsFor st.file.length + 1 ∧
    sectorsFor (pos + n.toNat) ≤ NumDirect ∧
    sectorsFor (pos + n.toNat) ≤ sectorsFor st.file.length + st.disk.freeMap.numClear

/-- The calls with non-negative positions that stay in the range of `int`, and whose writes extend
the file a little at most. -/
def Allowed (st : State) (b : Bool) : Call → Prop
  | .file (.seek position) => 0 ≤ position
  | .file (.read _ n) => st.file.cursor b + n < 2 ^ 31
  | .file (.write _ n) => st.Extends n (st.file.cursor b)
  | .file (.readAt _ n position) => 0 ≤ position ∧ position + n < 2 ^ 31
  | .file (.writeAt _ n position) => 0 ≤ position ∧ st.Extends n position.toNat
  | .length => True

/-- The end of the last block of a write of `n` bytes at `pos`. -/
def blockEnd (n : ℤ) (pos : ℕ) : ℕ := sectorsFor (pos + n.toNat) * SectorSize

/-- The handle knows the length of the file, or the bytes read are before the end it knows. -/
def CurrentRead (st : State) (b : Bool) (n : ℤ) (pos : ℕ) : Prop :=
  (st.handle b).length = st.file.length ∨ pos + n ≤ (st.handle b).length

/-- The handle knows the length of the file, or all blocks written are before the end it knows. -/
def CurrentWrite (st : State) (b : Bool) (n : ℤ) (pos : ℕ) : Prop :=
  n ≤ 0 ∨ sectorsFor (pos + n.toNat) < NumDirect ∧
    ((st.handle b).length = st.file.length ∨ blockEnd n pos ≤ (st.handle b).length)

/-- The file has at most 25 sectors, with those of the call, and the handle is good enough for the
call. -/
def Current (st : State) (b : Bool) (c : Call) : Prop :=
  sectorsFor st.file.length < NumDirect ∧
    match c with
    | .file (.seek _) => True
    | .file (.read _ n) => st.CurrentRead b n (st.file.cursor b)
    | .file (.write _ n) => st.CurrentWrite b n (st.file.cursor b)
    | .file (.readAt _ n position) => st.CurrentRead b n position.toNat
    | .file (.writeAt _ n position) => st.CurrentWrite b n position.toNat
    | .length => (st.handle b).length = st.file.length

/-- The disk is consistent, and the header on it is that of the file, with all that has been
written. -/
def Stored (st : State) (i : Fin NumDirEntries) : Prop :=
  st.disk.Consistent ∧ ∃ s, st.disk.headerSector (.entry i) = some s ∧
    (st.disk.header s).numBytes.toInt = st.file.length ∧
    ∀ p < st.file.length, ∀ v, st.file.bytes p = some v → (st.disk.header s).content st.disk p = v

end State

/-- Two handles opened on the file of entry `i` of a consistent disk. -/
def system (i : Fin NumDirEntries) : Transition.System State (Bool × Call × Answer) where
  init st := ∃ (o : Ownership Disk.Owner ℕ) (s len : ℕ), st.disk.Holds o ∧
    st.disk.headerSector (.entry i) = some (s : ℤ) ∧
    (∀ b, (OpenFile.new s).Yields st.disk (st.handle b) st.disk) ∧
    (st.disk.header s).numBytes.toInt = len ∧
    st.file = ⟨len, fun p => if p < len then some ((st.disk.header s).content st.disk p) else none,
      fun _ => 0⟩
  step st | (b, c, a), st' => ∃ f, (call (st.handle b) c).Yields st.disk (a, f) st'.disk ∧
    st'.handle = Function.update st.handle b f ∧ st'.file = st.file.next b c

end TwoHandles

end Nachos
