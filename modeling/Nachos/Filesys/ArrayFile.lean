import Nachos.Filesys.OpenFile

/-!
# Calls on an open file, and an array with a cursor

`FileCall` lists the calls a user of an `OpenFile` makes; a run answers each with a count and, for
reads, with the memory at `into`.  `ArrayFile len` is what an open file of `len` bytes is for: an
array of bytes with a cursor.  Reads stop at the end of the array.
-/

namespace Nachos

open Storage

inductive FileCall where
  | seek (position : ℤ)
  | read (into : Buf) (numBytes : ℤ)
  | write (data : Buf) (numBytes : ℤ)
  | readAt (into : Buf) (numBytes position : ℤ)
  | writeAt (data : Buf) (numBytes position : ℤ)

inductive FileAnswer where
  | done
  | count (numBytes : ℤ) (into : Buf)
  | written (numBytes : ℤ)

namespace OpenFile

def call (f : OpenFile) : FileCall → FsProg (FileAnswer × OpenFile)
  | .seek position => return (.done, f.seek position)
  | .read into numBytes => do
    let (n, into, f) ← f.read into numBytes
    return (.count n into, f)
  | .write data numBytes => do
    let (n, f) ← f.write data numBytes
    return (.written n, f)
  | .readAt into numBytes position => do
    let (n, into, f) ← f.readAt into numBytes position
    return (.count n into, f)
  | .writeAt data numBytes position => do
    let (n, f) ← f.writeAt data numBytes position
    return (.written n, f)

def calls (f : OpenFile) : List FileCall → FsProg (List FileAnswer × OpenFile)
  | [] => return ([], f)
  | c :: cs => do
    let (a, f) ← f.call c
    let (as, f) ← f.calls cs
    return (a :: as, f)

end OpenFile

/-- An array of `len` bytes with a cursor. -/
structure ArrayFile (len : ℕ) where
  bytes : Fin len → Byte
  cursor : ℕ

namespace ArrayFile

variable {len : ℕ}

/-- The number of bytes a read of `n` bytes at `pos` delivers. -/
def avail (len : ℕ) (n : ℤ) (pos : ℕ) : ℕ := min n.toNat (len - pos)

/-- The memory at `into` after a read. -/
def load (a : ArrayFile len) (into : Buf) (n : ℤ) (pos : ℕ) : Buf := fun k =>
  if h : k < avail len n pos then a.bytes ⟨pos + k, by unfold avail at h; omega⟩ else into k

/-- The array after `n` bytes have been written at `pos`. -/
def store (a : ArrayFile len) (data : Buf) (n : ℤ) (pos : ℕ) : Fin len → Byte := fun k =>
  if pos ≤ k ∧ k < pos + n.toNat then data (k - pos) else a.bytes k

def call (a : ArrayFile len) : FileCall → FileAnswer × ArrayFile len
  | .seek position => (.done, { a with cursor := position.toNat })
  | .read into n =>
    (.count (avail len n a.cursor) (a.load into n a.cursor),
      { a with cursor := a.cursor + avail len n a.cursor })
  | .write data n =>
    (.written n.toNat, ⟨a.store data n a.cursor, a.cursor + n.toNat⟩)
  | .readAt into n position =>
    (.count (avail len n position.toNat) (a.load into n position.toNat), a)
  | .writeAt data n position =>
    (.written n.toNat, { a with bytes := a.store data n position.toNat })

def calls (a : ArrayFile len) : List FileCall → List FileAnswer × ArrayFile len
  | [] => ([], a)
  | c :: cs => ((a.call c).1 :: ((a.call c).2.calls cs).1, ((a.call c).2.calls cs).2)

/-- The calls with non-negative positions that stay in the range of `int`, and whose writes end
within the array. -/
def Allowed (a : ArrayFile len) : FileCall → Prop
  | .seek position => 0 ≤ position
  | .read _ n => a.cursor + n < 2 ^ 31
  | .write _ n => a.cursor + n ≤ len
  | .readAt _ n position => 0 ≤ position ∧ position + n < 2 ^ 31
  | .writeAt _ n position => 0 ≤ position ∧ position + n ≤ len

/-- Every call of the sequence is allowed when its turn comes. -/
def AllowedAll (a : ArrayFile len) : List FileCall → Prop
  | [] => True
  | c :: cs => a.Allowed c ∧ (a.call c).2.AllowedAll cs

end ArrayFile

end Nachos
