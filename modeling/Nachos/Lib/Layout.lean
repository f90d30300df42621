import Mathlib.Data.BitVec
import Mathlib.Data.Nat.Notation

/-!
# Values in byte-addressed memory

`Bytes` is what memory holds from some address on.  `Layout α` fixes the byte representation of a
type of fixed size, as a compiler lays out a structure: `encode` and `decode` are inverse to each
other on the bytes of the representation, so reading a value from memory and writing it back changes
nothing.  Arrays (`encodeArray`, `decodeArray`) put the elements one after the other.  Words of 32
bits are little-endian.
-/

namespace Memory

abbrev Bytes := ℕ → BitVec 8

namespace Bytes

/-- The memory `j` bytes further on. -/
def offset (b : Bytes) (j : ℕ) : Bytes := fun k => b (j + k)

/-- Copy the first `n` bytes of `src` to the address `j` of `dst`. -/
def copy (src dst : Bytes) (j n : ℕ) : Bytes := fun k =>
  if j ≤ k ∧ k < j + n then src (k - j) else dst k

/-- The first `n` bytes. -/
def first (b : Bytes) (n : ℕ) : List (BitVec 8) := (List.range n).map b

theorem first_congr {b b' : Bytes} {n : ℕ} (h : ∀ k < n, b k = b' k) : b.first n = b'.first n :=
  List.map_congr_left fun k hk => h k (List.mem_range.1 hk)

variable {src dst : Bytes} {j n k : ℕ}

theorem copy_of_mem (h1 : j ≤ k) (h2 : k < j + n) : copy src dst j n k = src (k - j) :=
  if_pos ⟨h1, h2⟩

theorem copy_of_lt (h : k < j) : copy src dst j n k = dst k :=
  if_neg fun hk => absurd hk.1 (Nat.not_le.mpr h)

theorem copy_of_le (h : j + n ≤ k) : copy src dst j n k = dst k :=
  if_neg fun hk => absurd hk.2 (Nat.not_lt.mpr h)

theorem offset_copy (h : k < n) : (copy src dst j n).offset j k = src k := by
  rw [offset, copy_of_mem (Nat.le_add_right j k) (Nat.add_lt_add_left h j), Nat.add_sub_cancel_left]

end Bytes

/-- A byte representation of the values of `α`. -/
class Layout (α : Type) where
  size : ℕ
  size_pos : 0 < size
  encode : α → Bytes
  decode : Bytes → α
  decode_congr {b b' : Bytes} : (∀ j < size, b j = b' j) → decode b = decode b'
  decode_encode (a : α) : decode (encode a) = a
  encode_decode {b : Bytes} {j : ℕ} : j < size → encode (decode b) j = b j

namespace Layout

variable {α : Type} [Layout α]

theorem decode_eq_of_encode {b : Bytes} {a : α} (h : ∀ j < size α, b j = encode a j) :
    decode b = a := by
  rw [decode_congr h, decode_encode]

/-- A value in memory with other bytes after it. -/
theorem decode_copy_encode (a : α) (src dst : Bytes) (n : ℕ) :
    decode (src.copy ((encode a).copy dst 0 (size α)) (size α) n) = a := by
  apply decode_eq_of_encode
  intro j hj
  rw [Bytes.copy_of_lt hj, Bytes.copy_of_mem (Nat.zero_le j) (by omega), Nat.sub_zero]

/-- The bytes of an array. -/
def encodeArray (t : ℕ → α) : Bytes := fun k => encode (t (k / size α)) (k % size α)

/-- The array found in memory. -/
def decodeArray (b : Bytes) (i : ℕ) : α := decode (b.offset (size α * i))

theorem encodeArray_decodeArray (b : Bytes) : encodeArray (decodeArray b : ℕ → α) = b := by
  funext k
  rw [encodeArray, decodeArray, encode_decode (Nat.mod_lt _ size_pos), Bytes.offset,
    Nat.div_add_mod]

/-- An element depends on its own bytes only. -/
theorem decodeArray_congr {b b' : Bytes} {i : ℕ}
    (h : ∀ j < size α, b (size α * i + j) = b' (size α * i + j)) :
    (decodeArray b i : α) = decodeArray b' i :=
  decode_congr h

theorem decodeArray_encodeArray (t : ℕ → α) (i : ℕ) : decodeArray (encodeArray t) i = t i := by
  refine decode_eq_of_encode fun j hj => ?_
  rw [Bytes.offset, encodeArray, Nat.mul_add_div size_pos, Nat.div_eq_of_lt hj, Nat.add_zero,
    Nat.mul_add_mod, Nat.mod_eq_of_lt hj]

/-- An array read back from memory that agrees with its bytes on the first `n` elements. -/
theorem decodeArray_eq {b : Bytes} {t : ℕ → α} {n i : ℕ} (hi : i < n)
    (h : ∀ k < size α * n, b k = encodeArray t k) : decodeArray b i = t i := by
  rw [← decodeArray_encodeArray t i]
  refine decodeArray_congr fun j hj => h _ ?_
  calc size α * i + j < size α * i + size α := Nat.add_lt_add_left hj _
    _ = size α * (i + 1) := (Nat.mul_succ _ _).symm
    _ ≤ size α * n := Nat.mul_le_mul_left _ hi

end Layout

/-! ### Words -/

/-- The four bytes of a little-endian word. -/
def wordOfBytes (b : Bytes) : BitVec 32 := b 3 ++ (b 2 ++ (b 1 ++ b 0))

theorem getLsbD_wordOfBytes (b : Bytes) {i : ℕ} (hi : i < 32) :
    (wordOfBytes b).getLsbD i = (b (i / 8)).getLsbD (i % 8) := by
  have hcases : i / 8 = 0 ∨ i / 8 = 1 ∨ i / 8 = 2 ∨ i / 8 = 3 := by omega
  unfold wordOfBytes
  simp only [BitVec.getLsbD_append]
  rcases hcases with h | h | h | h <;> rw [h] <;> split_ifs <;> first | omega | (congr 1; omega)

theorem extractLsb_wordOfBytes (b : Bytes) {j : ℕ} (hj : j < 4) :
    (wordOfBytes b).extractLsb' (8 * j) 8 = b j := by
  apply BitVec.eq_of_getLsbD_eq
  intro i hi
  rw [BitVec.getLsbD_extractLsb', getLsbD_wordOfBytes b (by omega)]
  have h1 : (8 * j + i) / 8 = j := by omega
  have h2 : (8 * j + i) % 8 = i := by omega
  simp [hi, h1, h2]

theorem wordOfBytes_extractLsb (w : BitVec 32) :
    wordOfBytes (fun j => w.extractLsb' (8 * j) 8) = w := by
  apply BitVec.eq_of_getLsbD_eq
  intro i hi
  rw [getLsbD_wordOfBytes _ hi, BitVec.getLsbD_extractLsb']
  have h1 : 8 * (i / 8) + i % 8 = i := by omega
  have h2 : i % 8 < 8 := by omega
  simp [h1, h2]

instance : Layout (BitVec 32) where
  size := 4
  size_pos := by decide
  encode w := fun j => w.extractLsb' (8 * j) 8
  decode := wordOfBytes
  decode_congr := by
    intro b b' h
    unfold wordOfBytes
    rw [h 0 (by decide), h 1 (by decide), h 2 (by decide), h 3 (by decide)]
  decode_encode := wordOfBytes_extractLsb
  encode_decode := fun hj => extractLsb_wordOfBytes _ hj

/-- Bit `i` of an array of words is bit `i % 8` of byte `i / 8`. -/
theorem getLsbD_decodeArray (b : Bytes) (i : ℕ) :
    (Layout.decodeArray b (i / 32) : BitVec 32).getLsbD (i % 32) = (b (i / 8)).getLsbD (i % 8) := by
  show (wordOfBytes (b.offset (4 * (i / 32)))).getLsbD (i % 32) = _
  rw [getLsbD_wordOfBytes _ (Nat.mod_lt _ (by decide)), Bytes.offset]
  have h1 : 4 * (i / 32) + i % 32 / 8 = i / 8 := by omega
  have h2 : i % 32 % 8 = i % 8 := by omega
  rw [h1, h2]

end Memory
