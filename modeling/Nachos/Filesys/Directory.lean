import Nachos.Filesys.OpenFile

/-!
# The directory (`filesys/directory.cc`)

A table of entries of 20 bytes: `inUse` at byte 0, `sector` at 4, `name` at 8 and `type` at 18.  The
bytes in between are padding; they go to disk with the rest.  `inUse` and `type` are `bool`s, kept
here as the bytes they occupy.
-/

namespace Nachos

open Storage Memory

abbrev FileNameMaxLen : ℕ := 9

/-- Under this name, so that indices into a name are the same terms in all modules. -/
instance neZero_name : NeZero 10 := inferInstance

@[ext]
structure DirectoryEntry where
  inUse : Byte
  padding₁ : Fin 3 → Byte
  sector : CInt
  name : Fin (FileNameMaxLen + 1) → Byte
  type : Byte
  padding₂ : Byte

namespace DirectoryEntry

def encode (e : DirectoryEntry) : Buf := fun k =>
  if k = 0 then e.inUse
  else if k < 4 then e.padding₁ (Fin.ofNat 3 (k - 1))
  else if k < 8 then Layout.encode e.sector (k - 4)
  else if k < 18 then e.name (Fin.ofNat 10 (k - 8))
  else if k = 18 then e.type
  else e.padding₂

def decode (b : Buf) : DirectoryEntry where
  inUse := b 0
  padding₁ j := b (1 + j)
  sector := Layout.decode (b.offset 4)
  name j := b (8 + j)
  type := b 18
  padding₂ := b 19

end DirectoryEntry

structure Directory where
  tableSize : ℕ
  table : ℕ → DirectoryEntry

namespace Directory

/-- The constructor; `garbage` is what the entries hold when they are allocated. -/
def new (garbage : ℕ → DirectoryEntry) (size : ℕ) : Directory :=
  ⟨size, fun i => { garbage i with inUse := 0 }⟩

/-- The name of entry `i`, as a C string. -/
def nameOf (dir : Directory) (i : ℕ) : Buf := fun k => (dir.table i).name (Fin.ofNat 10 k)

def findIndex (dir : Directory) (name : Buf) : Option ℕ :=
  (List.range dir.tableSize).find? fun i =>
    (dir.table i).inUse ≠ 0 ∧ strncmp (dir.nameOf i) name FileNameMaxLen

/-- `-1` when there is no such name. -/
def find (dir : Directory) (name : Buf) : ℤ :=
  match dir.findIndex name with
  | some i => (dir.table i).sector.toInt
  | none => -1

/-- Entry `i` after `Add` has filled it in. -/
def addAt (dir : Directory) (i : ℕ) (name : Buf) (newSector : ℤ) : Directory :=
  { dir with
    table := Function.update dir.table i
      { dir.table i with
        inUse := 1
        name := fun k => strncpy (dir.nameOf i) name FileNameMaxLen k
        type := 0
        sector := int newSector } }

def add (dir : Directory) (name : Buf) (newSector : ℤ) : Bool × Directory :=
  if (dir.findIndex name).isSome then (false, dir)
  else
    match (List.range dir.tableSize).find? fun i => (dir.table i).inUse = 0 with
    | some i => (true, dir.addAt i name newSector)
    | none => (false, dir)

def remove (dir : Directory) (name : Buf) : Bool × Directory :=
  match dir.findIndex name with
  | some i =>
    (true, { dir with table := Function.update dir.table i { dir.table i with inUse := 0 } })
  | none => (false, dir)

end Directory

/-! ### The table on disk -/

namespace DirectoryEntry

theorem decode_congr {b b' : Bytes} (h : ∀ j < 20, b j = b' j) : decode b = decode b' := by
  refine DirectoryEntry.ext (h 0 (by decide)) ?_ ?_ ?_ (h 18 (by decide)) (h 19 (by decide))
  · funext j
    exact h (1 + j) (by have := j.isLt; omega)
  · exact Layout.decode_congr fun j hj => h (4 + j) (by have hj : j < 4 := hj; omega)
  · funext j
    exact h (8 + j) (by have hj : (j : ℕ) < 10 := j.isLt; omega)

theorem decode_encode (e : DirectoryEntry) : decode (encode e) = e := by
  refine DirectoryEntry.ext rfl ?_ ?_ ?_ rfl rfl
  · funext j
    have hj := j.isLt
    show encode e (1 + j) = e.padding₁ j
    rw [encode, if_neg (by omega), if_pos (by omega), Nat.add_sub_cancel_left,
      Fin.ofNat_val_eq_self]
  · refine Layout.decode_eq_of_encode fun j hj => ?_
    have hj : j < 4 := hj
    show encode e (4 + j) = _
    rw [encode, if_neg (by omega), if_neg (by omega), if_pos (by omega), Nat.add_sub_cancel_left]
  · funext j
    have hj : (j : ℕ) < 10 := j.isLt
    show encode e (8 + j) = e.name j
    rw [encode, if_neg (by omega), if_neg (by omega), if_neg (by omega), if_pos (by omega),
      Nat.add_sub_cancel_left]
    exact congrArg e.name (Fin.ofNat_val_eq_self j)

theorem encode_decode {b : Bytes} {k : ℕ} (hk : k < 20) : encode (decode b) k = b k := by
  unfold encode
  split_ifs with h0 h1 h2 h3 h4
  · subst h0; rfl
  · show b (1 + (k - 1) % 3) = b k
    congr 1
    omega
  · have hlt : k - 4 < Layout.size CInt := by
      show k - 4 < 4
      omega
    show Layout.encode (Layout.decode (b.offset 4) : CInt) (k - 4) = b k
    rw [Layout.encode_decode hlt, Bytes.offset]
    congr 1
    omega
  · show b (8 + (k - 8) % 10) = b k
    congr 1
    omega
  · subst h4; rfl
  · have h19 : k = 19 := by omega
    subst h19
    rfl

instance : Layout DirectoryEntry where
  size := 20
  size_pos := by decide
  encode := encode
  decode := decode
  decode_congr := decode_congr
  decode_encode := decode_encode
  encode_decode := encode_decode

end DirectoryEntry

namespace Directory

/-- The table in memory. -/
def bytes (dir : Directory) : Buf := Layout.encodeArray dir.table

/-- `new Directory(size)`. -/
def newDirectory (size : ℕ) : FsProg Directory := do
  let garbage ← newBytes
  return new (Layout.decodeArray garbage) size

def fetchFrom (dir : Directory) (file : OpenFile) : FsProg (Directory × OpenFile) := do
  let (_, into, file) ← file.readAt dir.bytes (dir.tableSize * 20) 0
  return ({ dir with table := Layout.decodeArray into }, file)

def writeBack (dir : Directory) (file : OpenFile) : FsProg OpenFile := do
  let (_, file) ← file.writeAt dir.bytes (dir.tableSize * 20) 0
  return file

end Directory

end Nachos
