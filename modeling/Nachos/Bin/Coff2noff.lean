import Nachos.Userprog.Image

/-!
# Converting executables (`bin/coff2noff.c`)

The converter reads the headers of a COFF file, copies the sections with contents one after the other
behind the header of the NOFF file, and writes the header last.  There is one segment of each kind; what
the header says about a segment that does not occur was never assigned.

The host has 32 bits and is little-endian.  A position in a file is a `long`: `lseek` to a negative one
fails, which is not checked, and a file has less than 2^31 bytes.  No buffer of 2^31 bytes or more is
ever filled.  `Except` holds the reason for `exit(1)`, or that a sum of `int`s overflows.
-/

namespace Nachos

open Memory

/-- `struct scnhdr`, as far as it is used.  `sName` is the memory from the name on. -/
structure Scnhdr where
  sName : Buf
  sPaddr : CInt
  sSize : CInt
  sScnptr : CInt

/-- A string constant in memory. -/
def cstring (s : String) : Buf := fun k => BitVec.ofNat 8 ((s.toList.map Char.toNat).getD k 0)

/-- `!strcmp(s, literal)` -/
def strcmp (s : Buf) (literal : String) : Bool := strncmp s (cstring literal) (literal.length + 1)

namespace Coff2noff

/-- Why the converter stops. -/
inductive Failure where
  /-- "File is too short" -/
  | tooShort
  /-- "File is not a MIPSEL COFF file" -/
  | notMipsel
  /-- "File is not a OMAGIC file" -/
  | notOmagic
  /-- "Unable to write file" -/
  | unableToWrite
  /-- "Can't handle both data and rdata" -/
  | dataAndRdata
  /-- "Can't handle both bss and sbss" -/
  | bssAndSbss
  /-- "Unknown segment type" -/
  | unknownSegment
  /-- A sum of `int`s leaves the range. -/
  | overflow
  deriving DecidableEq

/-- The segment a section goes to. -/
inductive Kind where
  | code
  | initData
  | uninitData
  deriving DecidableEq

/-! ### The headers -/

def mipselMagic : BitVec 16 := 0x0162

def omagic : BitVec 16 := 0o407

/-- `sizeof(struct filehdr)` -/
abbrev filehdrSize : ℕ := 20

/-- `sizeof(struct aouthdr)` -/
abbrev aouthdrSize : ℕ := 56

/-- `sizeof(struct scnhdr)` -/
abbrev scnhdrSize : ℕ := 40

/-- An `unsigned short` in memory. -/
def short (b : Buf) : BitVec 16 := b 1 ++ b 0

/-- `fileh.f_nscns` -/
def numsections (coff : File) : ℕ := (short (coff.bytes.offset 2)).toNat

/-- Where the section headers begin. -/
abbrev sectionsAddr : ℕ := filehdrSize + aouthdrSize

/-- The section header found in memory. -/
def scnhdr (b : Buf) : Scnhdr where
  sName := b
  sPaddr := Layout.decode (b.offset 8)
  sSize := Layout.decode (b.offset 16)
  sScnptr := Layout.decode (b.offset 20)

/-- `sections` -/
def sections (coff : File) : List Scnhdr :=
  (List.range (numsections coff)).map fun i =>
    scnhdr (coff.bytes.offset (sectionsAddr + scnhdrSize * i))

/-- Everything up to the section headers. -/
def readHeaders (coff : File) : Except Failure (List Scnhdr) :=
  if coff.length < filehdrSize then .error .tooShort
  else if short coff.bytes ≠ mipselMagic then .error .notMipsel
  else if coff.length < sectionsAddr then .error .tooShort
  else if short (coff.bytes.offset filehdrSize) ≠ omagic then .error .notOmagic
  else if coff.length < sectionsAddr + scnhdrSize * numsections coff then .error .tooShort
  else .ok (sections coff)

/-! ### The sections -/

/-- The variables of the loop, the positions in the two files, and the file written so far. -/
structure Conversion where
  noffH : NoffHeader
  inNoffFile : CInt
  fdIn : ℕ
  fdOut : ℕ
  noff : File

/-- The comparisons of the name. -/
def kind (s : Scnhdr) : Option Kind :=
  if strcmp s.sName ".text" then some .code
  else if strcmp s.sName ".data" || strcmp s.sName ".rdata" then some .initData
  else if strcmp s.sName ".bss" || strcmp s.sName ".sbss" then some .uninitData
  else none

/-- The copying of a section, in both branches that copy one.  A negative size is not described: `read`
fails for it, and its `-1` is what `Read` expects when the size is `-1`. -/
def copySection (coff : File) (c : Conversion) (s : Scnhdr) : Except Failure Conversion :=
  -- `lseek(fdIn, s_scnptr, 0)` may fail
  let fdIn := if 0 ≤ s.sScnptr.toInt then s.sScnptr.toNat else c.fdIn
  let size := s.sSize.toNat
  if s.sSize.toInt < 0 ∨ coff.length < fdIn + size then .error .tooShort
  else if 2 ^ 31 ≤ c.fdOut + size then .error .unableToWrite
  else .ok { c with
    fdIn := fdIn + size
    fdOut := c.fdOut + size
    noff := ⟨c.fdOut + size, (coff.bytes.offset fdIn).copy c.noff.bytes c.fdOut size⟩
    inNoffFile := c.inNoffFile + s.sSize }

/-- The branch of `.bss` and `.sbss`, for `noffH.uninitData`. -/
def mergeSection (uninitData : Segment) (s : Scnhdr) : Except Failure Segment :=
  if uninitData.size ≠ 0 then
    if wrap (uninitData.virtualAddr.toInt + uninitData.size.toInt) ≠
        uninitData.virtualAddr.toInt + uninitData.size.toInt then .error .overflow
    else if s.sPaddr = uninitData.virtualAddr + uninitData.size then .error .bssAndSbss
    else if wrap (uninitData.size.toInt + s.sSize.toInt) ≠ uninitData.size.toInt + s.sSize.toInt then
      .error .overflow
    else .ok { uninitData with size := uninitData.size + s.sSize }
  else .ok { uninitData with virtualAddr := s.sPaddr, size := s.sSize }

/-- One turn of the loop. -/
def convertSection (coff : File) (c : Conversion) (s : Scnhdr) : Except Failure Conversion :=
  if s.sSize = 0 then .ok c
  else
    match kind s with
    | some .code =>
      let noffH := { c.noffH with code := ⟨s.sPaddr, c.inNoffFile, s.sSize⟩ }
      copySection coff { c with noffH } s
    | some .initData =>
      if c.noffH.initData.size ≠ 0 then .error .dataAndRdata
      else
        let noffH := { c.noffH with initData := ⟨s.sPaddr, c.inNoffFile, s.sSize⟩ }
        copySection coff { c with noffH } s
    | some .uninitData => do
      let uninitData ← mergeSection c.noffH.uninitData s
      return { c with noffH := { c.noffH with uninitData } }
    | none => .error .unknownSegment

def convertSections (coff : File) (c : Conversion) (l : List Scnhdr) : Except Failure Conversion :=
  l.foldlM (convertSection coff) c

/-- Before the loop; `garbage` is what is on the stack where `noffH` is. -/
def start (coff : File) (garbage : NoffHeader) : Conversion where
  noffH := {
    noffMagic := noffMagicNumber
    code := { garbage.code with size := 0 }
    initData := { garbage.initData with size := 0 }
    uninitData := { garbage.uninitData with size := 0 } }
  inNoffFile := BitVec.ofNat 32 noffHeaderSize
  fdIn := sectionsAddr + scnhdrSize * numsections coff
  fdOut := noffHeaderSize
  noff := ⟨0, fun _ => 0⟩

/-- The header in memory, ten words. -/
def headerBytes (h : NoffHeader) : Buf :=
  Layout.encodeArray fun i => [h.noffMagic, h.code.virtualAddr, h.code.inFileAddr, h.code.size,
    h.initData.virtualAddr, h.initData.inFileAddr, h.initData.size, h.uninitData.virtualAddr,
    h.uninitData.inFileAddr, h.uninitData.size].getD i (0 : CInt)

/-- `lseek(fdOut, 0, 0)`, and the header is written. -/
def writeHeader (c : Conversion) : File :=
  ⟨max c.noff.length noffHeaderSize, (headerBytes c.noffH).copy c.noff.bytes 0 noffHeaderSize⟩

/-- `main`, from one file to the other. -/
def main (coff : File) (garbage : NoffHeader) : Except Failure File := do
  let sections ← readHeaders coff
  let c ← convertSections coff (start coff garbage) sections
  return writeHeader c

/-! ### What the output is for -/

/-- A section that is not empty, for a segment of kind `k`. -/
def Is (k : Kind) (s : Scnhdr) : Prop := s.sSize ≠ 0 ∧ kind s = some k

instance decidableIs (k : Kind) (s : Scnhdr) : Decidable (Is k s) :=
  inferInstanceAs (Decidable (_ ∧ _))

/-- The section's addresses. -/
def Covers (s : Scnhdr) (a : ℕ) : Prop := s.sPaddr.toNat ≤ a ∧ a < s.sPaddr.toNat + s.sSize.toNat

/-- The segment has the address and the size of the section, and its bytes. -/
structure Holds (coff noff : File) (segment : Segment) (s : Scnhdr) : Prop where
  virtualAddr : segment.virtualAddr = s.sPaddr
  size : segment.size = s.sSize
  contents : ∀ k < s.sSize.toNat, 0 ≤ s.sScnptr.toInt ∧ s.sScnptr.toNat + k < coff.length ∧
    0 ≤ segment.inFileAddr.toInt ∧ segment.inFileAddr.toNat + k < noff.length ∧
    noff.contents segment k = coff.bytes (s.sScnptr.toNat + k)

/-- The output describes the sections of the input. -/
structure Faithful (coff noff : File) : Prop where
  code : ∀ s ∈ sections coff, Is .code s → Holds coff noff noff.header.code s
  initData : ∀ s ∈ sections coff, Is .initData s → Holds coff noff noff.header.initData s
  uninitData : ∀ a, noff.header.uninitData.Covers a ↔
    ∃ s ∈ sections coff, Is .uninitData s ∧ Covers s a

/-- The sections whose sizes are added up. -/
def uninits (l : List Scnhdr) : List Scnhdr := l.filter fun s => Is .uninitData s

/-- The non-empty `.bss` and `.sbss` sections, in the order of the file. -/
def bss (coff : File) : List Scnhdr := uninits (sections coff)

/-- The other sections. -/
def others (l : List Scnhdr) : List Scnhdr := l.filter fun s => ¬ Is .uninitData s

/-- Two sections with the same bytes at the same addresses. -/
structure Same (coff : File) (s s' : Scnhdr) : Prop where
  addr : s.sPaddr = s'.sPaddr
  size : s.sSize = s'.sSize
  bytes : ∀ k < s.sSize.toNat, coff.bytes (s.sScnptr.toNat + k) = coff.bytes (s'.sScnptr.toNat + k)

/-- What the three segments can describe: sections with code are all the same; what is copied is in the
file; and the uninitialised data, laid out in some order without gaps, begin with the first section. -/
structure Describable (coff : File) : Prop where
  code : ∀ s ∈ sections coff, ∀ s' ∈ sections coff, Is .code s → Is .code s' → Same coff s s'
  pointers : ∀ s ∈ sections coff, Is .code s ∨ Is .initData s → 0 ≤ s.sScnptr.toInt
  uninitData : ∀ first ∈ (bss coff).head?, ∀ a, (∃ s ∈ bss coff, Covers s a) ↔
    first.sPaddr.toNat ≤ a ∧
      a < first.sPaddr.toNat + ((bss coff).map fun s => s.sSize.toNat).sum

/-- Each section begins where the one before it ends. -/
def Contiguous (l : List Scnhdr) : Prop :=
  l.IsChain fun s s' => s.sPaddr.toNat + s.sSize.toNat = s'.sPaddr.toNat

end Coff2noff

end Nachos
