import Mathlib.Data.List.Range
import Mathlib.Logic.Function.Basic
import Nachos.Threads.Utility

/-!
# Bitmaps (`userprog/bitmap.cc`)

An array of bits in 32-bit words.  `Mark`, `Clear` and `Test` fail an `ASSERT` outside
`[0, numBits)`, which is `none` here.  `Find` and `NumClear` only test bits in range.  `FirstFind`
does not: its inner loop runs over all of `[i, i + size)`, past the end of the bitmap if need be.
-/

namespace Nachos

abbrev BitsInByte : ℕ := 8

abbrev BitsInWord : ℕ := 32

structure BitMap where
  numBits : ℕ
  map : ℕ → BitVec 32

namespace BitMap

def numWords (m : BitMap) : ℤ := divRoundUp m.numBits BitsInWord

/-- `map[which / BitsInWord] & (1 << (which % BitsInWord))`. -/
def bit (m : BitMap) (which : ℕ) : Bool :=
  m.map (which / BitsInWord) &&& 1#32 <<< (which % BitsInWord) ≠ 0

/-- `map[which / BitsInWord] |= 1 << (which % BitsInWord)`. -/
def setBit (m : BitMap) (which : ℕ) : BitMap :=
  { m with
    map := Function.update m.map (which / BitsInWord)
      (m.map (which / BitsInWord) ||| 1#32 <<< (which % BitsInWord)) }

/-- `map[which / BitsInWord] &= ~(1 << (which % BitsInWord))`. -/
def clearBit (m : BitMap) (which : ℕ) : BitMap :=
  { m with
    map := Function.update m.map (which / BitsInWord)
      (m.map (which / BitsInWord) &&& ~~~(1#32 <<< (which % BitsInWord))) }

/-- The `ASSERT` of `Mark`, `Clear` and `Test`. -/
abbrev InRange (m : BitMap) (which : ℤ) : Prop := 0 ≤ which ∧ which < m.numBits

/-- The constructor; `garbage` is what the words hold when they are allocated. -/
def new (garbage : ℕ → BitVec 32) (nitems : ℕ) : BitMap :=
  (List.range nitems).foldl clearBit ⟨nitems, garbage⟩

def mark (m : BitMap) (which : ℤ) : Option BitMap :=
  if m.InRange which then some (m.setBit which.toNat) else none

def clear (m : BitMap) (which : ℤ) : Option BitMap :=
  if m.InRange which then some (m.clearBit which.toNat) else none

def test (m : BitMap) (which : ℤ) : Option Bool :=
  if m.InRange which then some (m.bit which.toNat) else none

def find (m : BitMap) : ℤ × BitMap :=
  match (List.range m.numBits).find? fun i => !m.bit i with
  | some i => (i, m.setBit i)
  | none => (-1, m)

/-- The loop of `FirstFind` that computes `flag` for the start `i`. -/
def runFlag (m : BitMap) (i : ℕ) : ℕ → Option Bool
  | 0 => some true
  | j + 1 => do
    let flag ← m.runFlag i j
    let t ← m.test (i + j : ℕ)
    return flag && !t

/-- The loop of `FirstFind` that marks the run it returns. -/
def markRun (m : BitMap) (i : ℕ) : ℕ → Option BitMap
  | 0 => some m
  | j + 1 => do
    let m' ← m.markRun i j
    m'.mark (i + j : ℕ)

/-- The outer loop of `FirstFind`, over the starts that are left. -/
def firstFindFrom (m : BitMap) (size : ℕ) : List ℕ → Option (ℤ × BitMap)
  | [] => some (-1, m)
  | i :: starts => do
    let flag ← m.runFlag i size
    if flag then
      let m' ← m.markRun i size
      return ((i : ℤ), m')
    else m.firstFindFrom size starts

def firstFind (m : BitMap) (size : ℤ) : Option (ℤ × BitMap) :=
  m.firstFindFrom size.toNat (List.range m.numBits)

def numClear (m : BitMap) : ℕ := (List.range m.numBits).countP fun i => !m.bit i

/-- `n` calls of `Find`, as the loops over a table of sectors make them. -/
def findMany : ℕ → BitMap → List ℤ × BitMap
  | 0, m => ([], m)
  | n + 1, m => (m.find.1 :: (findMany n m.find.2).1, (findMany n m.find.2).2)

end BitMap

end Nachos
