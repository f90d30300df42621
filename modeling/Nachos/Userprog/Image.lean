import Mathlib.Data.Set.Defs
import Nachos.Userprog.AddrSpace
import Nachos.Userprog.Exception

/-!
# What loading a program is for

`image` is what an executable says is in memory when the program starts: the bytes of the code and of
the initialised data at their virtual addresses, and zeros.  `Loads` says that the program gets this
from its page faults, and `Unaffected` that what a thread gets does not depend on the programs that are
loaded after its own.
-/

namespace Nachos

/-- The address is in the segment. -/
def Segment.Covers (segment : Segment) (a : ℕ) : Prop :=
  segment.virtualAddr.toNat ≤ a ∧ a < segment.virtualAddr.toNat + segment.size.toNat

instance (segment : Segment) (a : ℕ) : Decidable (segment.Covers a) := by
  unfold Segment.Covers
  infer_instance

namespace NoffHeader

/-- The size of the address space, before rounding. -/
def total (h : NoffHeader) : ℕ :=
  h.code.size.toNat + h.initData.size.toNat + h.uninitData.size.toNat + UserStackSize

/-- The segments are disjoint and inside the address space, which has less than `2^31` bytes. -/
structure Valid (h : NoffHeader) : Prop where
  small : h.total + PageSize ≤ 2 ^ 31
  inside : ∀ a, h.code.Covers a ∨ h.initData.Covers a → a < h.total
  disjoint : ∀ a, ¬ (h.code.Covers a ∧ h.initData.Covers a)

/-- The segments have the same addresses and sizes; where they are in the file may differ. -/
structure SameLayout (h h' : NoffHeader) : Prop where
  codeAddr : h.code.virtualAddr = h'.code.virtualAddr
  codeSize : h.code.size = h'.code.size
  dataAddr : h.initData.virtualAddr = h'.initData.virtualAddr
  dataSize : h.initData.size = h'.initData.size
  uninitSize : h.uninitData.size = h'.uninitData.size

end NoffHeader

namespace File

def header (executable : File) : NoffHeader := .ofBytes executable.bytes

/-- Byte `k` of a segment. -/
def contents (executable : File) (segment : Segment) (k : ℕ) : Byte :=
  executable.bytes (segment.inFileAddr.toNat + k)

/-- A file in the format: the header is there, and so are the bytes of the segments. -/
structure IsNoff (executable : File) : Prop where
  length : noffHeaderSize ≤ executable.length
  magic : executable.header.noffMagic = noffMagicNumber
  inFile : ∀ segment ∈ [executable.header.code, executable.header.initData], 0 < segment.size.toNat →
    0 ≤ segment.inFileAddr.toInt ∧
      segment.inFileAddr.toNat + segment.size.toNat ≤ executable.length

/-- The byte at the virtual address `a`. -/
def image (executable : File) (a : ℕ) : Byte :=
  if executable.header.code.Covers a then
    executable.contents executable.header.code (a - executable.header.code.virtualAddr.toNat)
  else if executable.header.initData.Covers a then
    executable.contents executable.header.initData
      (a - executable.header.initData.virtualAddr.toNat)
  else 0

end File

/-- A frame that has just been mapped. -/
structure Machine.FreshFrame (m : Machine) (f : ℕ) : Prop where
  physical : (m.pageTable f).physicalPage.toNat = f
  zero : ∀ k < PageSize, m.mainMemory (f * PageSize + k) = 0

namespace AddrSpace

/-- The constructor returns, and every page fault below `numPages` loads a page of the image. -/
def Loads (garbage : Buf) (s : FileStore) (executable : File) : Prop :=
  ∃ space s' virtualMemory, new garbage executable s = some (space, s') ∧
    s' "VirtualMemory" = some virtualMemory ∧
    ∀ (m : Machine) f addr, m.FreshFrame f → (Machine.vpn addr).toNat < space.numPages.toNat →
      ∃ m', m.loadPage virtualMemory f addr = some m' ∧
        ∀ k < PageSize, m'.mainMemory (f * PageSize + k) =
          executable.image ((Machine.vpn addr).toNat * PageSize + k)

/-- In one run a program with the layout `h` is loaded into the store `s`, in another one with the
layout `h'`.  The pages that the faults of another thread bring in afterwards are the same. -/
def Unaffected (garbage : Buf) (s : FileStore) (h h' : NoffHeader) (faults : Set CInt) : Prop :=
  ∀ b b' : File, b.IsNoff → b.header.SameLayout h → b'.IsNoff → b'.header.SameLayout h' →
    ∀ space s₁ space' s₁' virtualMemory virtualMemory',
      new garbage b s = some (space, s₁) → s₁ "VirtualMemory" = some virtualMemory →
      new garbage b' s = some (space', s₁') → s₁' "VirtualMemory" = some virtualMemory' →
      ∀ addr ∈ faults, ∀ (m : Machine) f, m.FreshFrame f →
        m.loadPage virtualMemory f addr = m.loadPage virtualMemory' f addr

end AddrSpace

end Nachos
