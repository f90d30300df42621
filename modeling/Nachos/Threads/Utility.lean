import Mathlib.Data.Int.Init
import Nachos.Lib.Layout

/-!
# C arithmetic and strings (`threads/utility.h`)

`int` is 32 bits wide.  Values of variables are integers (`ℤ`); what is stored in a structure that
goes to disk is a `CInt`.  A sum that could leave the range of `int` is taken modulo `2^32` (`wrap`).
-/

namespace Nachos

/-- `char`.  It is signed on the host: its value as an `int` is `toInt`. -/
abbrev Byte := BitVec 8

/-- `int` (and `time_t`) of the 32-bit layout. -/
abbrev CInt := BitVec 32

/-- The memory a `char *` points to. -/
abbrev Buf := Memory.Bytes

/-- The `int` that holds `x`. -/
def int (x : ℤ) : CInt := BitVec.ofInt 32 x

/-- The value of a sum of `int`s. -/
def wrap (x : ℤ) : ℤ := (int x).toInt

def divRoundDown (n s : ℤ) : ℤ := n.tdiv s

def divRoundUp (n s : ℤ) : ℤ := n.tdiv s + if n.tmod s > 0 then 1 else 0

/-- `!strncmp(s1, s2, n)`. -/
def strncmp (s1 s2 : Buf) : ℕ → Bool
  | 0 => true
  | n + 1 =>
    if s1 0 ≠ s2 0 then false
    else if s1 0 = 0 then true
    else strncmp (s1.offset 1) (s2.offset 1) n

/-- `strncpy(dst, src, n)`: after the end of `src` the copy is filled with zeros. -/
def strncpy (dst src : Buf) (n : ℕ) : Buf := fun k =>
  if k < n then if (List.range (k + 1)).any (src · = 0) then 0 else src k else dst k

/-! ### Small facts -/

theorem toInt_int {x : ℤ} (h1 : -2 ^ 31 ≤ x) (h2 : x < 2 ^ 31) : (int x).toInt = x := by
  rw [int, BitVec.toInt_ofInt]
  exact Int.bmod_eq_of_le (by omega) (by omega)

theorem wrap_eq {x : ℤ} (h1 : -2 ^ 31 ≤ x) (h2 : x < 2 ^ 31) : wrap x = x := toInt_int h1 h2

theorem int_toInt (w : CInt) : int w.toInt = w := BitVec.ofInt_toInt

theorem toInt_int_natCast {n : ℕ} (h : n < 2 ^ 31) : (int n).toInt = n :=
  toInt_int (by omega) (by omega)

theorem toNat_int_natCast {n : ℕ} (h : n < 2 ^ 32) : (int n).toNat = n := by
  rw [int, BitVec.ofInt_natCast, BitVec.toNat_ofNat, Nat.mod_eq_of_lt h]

theorem toNat_of_toInt {w : CInt} {n : ℕ} (h : w.toInt = n) : w.toNat = n := by
  have hpos : 2 * w.toNat < 2 ^ 32 := BitVec.toInt_pos_iff.mp (by omega)
  rw [BitVec.toInt_eq_toNat_of_lt hpos] at h
  omega

theorem divRoundDown_natCast (n s : ℕ) : divRoundDown n s = (n / s : ℕ) := by
  rw [divRoundDown, ← Int.ofNat_tdiv]

theorem divRoundUp_natCast (n s : ℕ) :
    divRoundUp n s = (n / s + if n % s > 0 then 1 else 0 : ℕ) := by
  rw [divRoundUp, ← Int.ofNat_tdiv, ← Int.ofNat_tmod]
  simp only [gt_iff_lt, Int.natCast_pos]
  push_cast
  rfl

/-- The number of blocks of `s` bytes that `n` bytes need. -/
theorem divRoundUp_eq (n : ℕ) {s : ℕ} (hs : 0 < s) : divRoundUp n s = ((n + s - 1) / s : ℕ) := by
  rw [divRoundUp_natCast]
  congr 1
  have hdm := Nat.div_add_mod n s
  have hlt := Nat.mod_lt n hs
  symm
  rw [Nat.div_eq_iff hs]
  split_ifs with h
  · rw [Nat.add_mul, Nat.mul_comm (n / s) s]
    omega
  · rw [Nat.add_zero, Nat.mul_comm (n / s) s]
    omega

end Nachos
