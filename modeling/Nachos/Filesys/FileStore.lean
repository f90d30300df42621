import Nachos.Threads.Utility

/-!
# Files of the host (`filesys/filesys.h`, `filesys/openfile.h`)

The builds of `userprog` and `vm` define `FILESYS_STUB`, and their file system is that of the host: a
call of `Create`, `ReadAt` or `WriteAt` is one or two calls to UNIX.  A file is an array of bytes.  `read`
stops at its end, and `write` past the end makes it longer, with zeros in between.  `lseek` to a position
in front of the file fails an `ASSERT`, which is `none` here.
-/

namespace Nachos

open Memory

/-- The contents of a file. -/
structure File where
  length : ℕ
  bytes : Buf

namespace File

/-- The byte at `a`, and 0 past the end. -/
def byteAt (f : File) (a : ℕ) : Byte := if a < f.length then f.bytes a else 0

/-- `ReadAt`: the memory at `into` afterwards. -/
def readAt (f : File) (into : Buf) (numBytes position : ℤ) : Option Buf :=
  if position < 0 then none
  else some ((f.bytes.offset position.toNat).copy into 0
    (min numBytes.toNat (f.length - position.toNat)))

/-- `WriteAt` -/
def writeAt (f : File) (data : Buf) (numBytes position : ℤ) : Option File :=
  if position < 0 then none
  else if numBytes ≤ 0 then some f
  else some {
    length := max f.length (position.toNat + numBytes.toNat)
    bytes := data.copy f.byteAt position.toNat numBytes.toNat }

theorem exists_readAt (f : File) (into : Buf) (n : ℤ) (pos : ℕ) :
    ∃ into', f.readAt into n pos = some into' := by
  unfold readAt
  rw [if_neg (show ¬ (pos : ℤ) < 0 by omega)]
  exact ⟨_, rfl⟩

/-- What is read, byte by byte. -/
theorem readAt_apply {f : File} {into into' : Buf} {n pos k : ℕ}
    (h : f.readAt into n pos = some into') (hk : k < n) :
    into' k = if pos + k < f.length then f.bytes (pos + k) else into k := by
  unfold readAt at h
  split_ifs at h with hneg
  cases h
  unfold Bytes.copy Bytes.offset
  simp only [Int.toNat_natCast]
  split_ifs
  · congr 2
  · omega
  · omega
  · rfl

end File

/-- The files, by name. -/
abbrev FileStore := String → Option File

/-- `Create`, which opens the file with `O_TRUNC`; `initialSize` is not used. -/
def FileStore.create (s : FileStore) (name : String) (_initialSize : ℕ) : Bool × FileStore :=
  (true, Function.update s name (some ⟨0, fun _ => 0⟩))

end Nachos
