import Mathlib.Data.Finset.Max
import Nachos.Lib.Calls
import Nachos.Userprog.Equiv.Bitmap

/-!
# Bitmaps refine finite sets

Over any history of calls, a bitmap of `n` bits answers as a set of numbers below `n` does, whatever
the words held when they were allocated.  The bits of the last word from `n` on stay what they were.
-/

namespace Nachos.BitMap

/-- A call of a bitmap. -/
inductive Call where
  | mark (which : ℤ)
  | clear (which : ℤ)
  | test (which : ℤ)
  | find
  | numClear

/-- What a call returns. -/
inductive Answer where
  | void
  | bool (result : Bool)
  | int (result : ℤ)
  deriving DecidableEq

def call (m : BitMap) : Call → Option (Answer × BitMap)
  | .mark which => (m.mark which).map fun m => (.void, m)
  | .clear which => (m.clear which).map fun m => (.void, m)
  | .test which => (m.test which).map fun result => (.bool result, m)
  | .find => some (.int m.find.1, m.find.2)
  | .numClear => some (.int m.numClear, m)

/-- The indices of a call lie in the bitmap. -/
def Call.InRange (n : ℕ) : Call → Prop
  | .mark which => 0 ≤ which ∧ which < n
  | .clear which => 0 ≤ which ∧ which < n
  | .test which => 0 ≤ which ∧ which < n
  | .find => True
  | .numClear => True

/-- The numbers below `n` that are not in the set. -/
def missing (n : ℕ) (S : Finset ℕ) : Finset ℕ := Finset.range n \ S

/-- The calls of a set of numbers below `n`. -/
def setCall (n : ℕ) (S : Finset ℕ) : Call → Answer × Finset ℕ
  | .mark which => (.void, insert which.toNat S)
  | .clear which => (.void, S.erase which.toNat)
  | .test which => (.bool (which.toNat ∈ S), S)
  | .find =>
    if h : (missing n S).Nonempty then
      (.int ((missing n S).min' h), insert ((missing n S).min' h) S)
    else (.int (-1), S)
  | .numClear => (.int (n - S.card), S)

/-- The bitmap stands for the set, and has kept the bits of `garbage` past its end. -/
structure Represents (garbage : ℕ → BitVec 32) (n : ℕ) (m : BitMap) (S : Finset ℕ) : Prop where
  numBits : m.numBits = n
  subset : S ⊆ Finset.range n
  bit : ∀ i < n, m.bit i = decide (i ∈ S)
  rest : ∀ i, n ≤ i → m.bit i = BitMap.bit ⟨n, garbage⟩ i

namespace Represents

variable {garbage : ℕ → BitVec 32} {n : ℕ} {m : BitMap} {S : Finset ℕ}

theorem new (garbage : ℕ → BitVec 32) (n : ℕ) : Represents garbage n (BitMap.new garbage n) ∅ where
  numBits := numBits_new garbage n
  subset := Finset.empty_subset _
  bit i hi := by
    rw [bit_new garbage hi]
    simp
  rest i hi := by
    rw [BitMap.new, (foldl_clearBit _ _).2]
    simp [hi]

theorem setBit (h : Represents garbage n m S) {i : ℕ} (hi : i < n) :
    Represents garbage n (m.setBit i) (insert i S) where
  numBits := h.numBits
  subset := Finset.insert_subset (Finset.mem_range.2 hi) h.subset
  bit j hj := by
    rw [bit_setBit, h.bit j hj]
    simp
  rest j hj := by
    rw [bit_setBit, h.rest j hj, decide_eq_false (by omega), Bool.false_or]

theorem clearBit (h : Represents garbage n m S) {i : ℕ} (hi : i < n) :
    Represents garbage n (m.clearBit i) (S.erase i) where
  numBits := h.numBits
  subset := (Finset.erase_subset i S).trans h.subset
  bit j hj := by
    rw [bit_clearBit, h.bit j hj]
    simp
  rest j hj := by
    rw [bit_clearBit, h.rest j hj, decide_eq_true (by omega), Bool.true_and]

theorem toFinset_clears (h : Represents garbage n m S) : m.clears.toFinset = missing n S := by
  ext i
  rw [List.mem_toFinset, mem_clears, missing, Finset.mem_sdiff, Finset.mem_range, h.numBits]
  apply and_congr_right
  intro hi
  rw [h.bit i hi, decide_eq_false_iff_not]

theorem numClear_eq (h : Represents garbage n m S) : (m.numClear : ℤ) = n - S.card := by
  have hcard : (missing n S).card = n - S.card := by
    rw [missing, Finset.card_sdiff_of_subset h.subset, Finset.card_range]
  have hle := Finset.card_le_card h.subset
  rw [Finset.card_range] at hle
  rw [BitMap.numClear_eq, ← List.toFinset_card_of_nodup m.clears_nodup, h.toFinset_clears, hcard]
  omega

/-- The least missing number is the first clear bit. -/
theorem clears_of_nonempty (h : Represents garbage n m S) (hmissing : (missing n S).Nonempty) :
    ∃ l, m.clears = (missing n S).min' hmissing :: l := by
  have hset := h.toFinset_clears
  cases hclears : m.clears with
  | nil =>
    rw [hclears, List.toFinset_nil] at hset
    rw [← hset] at hmissing
    exact absurd hmissing Finset.not_nonempty_empty
  | cons i l =>
    have hsorted := m.clears_sorted
    rw [hclears, List.pairwise_cons] at hsorted
    have hmem : ∀ j, j ∈ missing n S ↔ j = i ∨ j ∈ l := by
      intro j
      rw [← hset, hclears, List.mem_toFinset, List.mem_cons]
    have hmin : (missing n S).min' hmissing = i := by
      apply le_antisymm
      · exact Finset.min'_le _ _ ((hmem i).2 (Or.inl rfl))
      · apply Finset.le_min'
        intro j hj
        rcases (hmem j).1 hj with rfl | hj
        · exact le_rfl
        · exact (hsorted.1 j hj).le
    exact ⟨l, by rw [hmin]⟩

theorem clears_of_empty (h : Represents garbage n m S) (hfull : ¬ (missing n S).Nonempty) :
    m.clears = [] := by
  rw [← List.toFinset_eq_empty_iff, h.toFinset_clears]
  exact Finset.not_nonempty_iff_eq_empty.1 hfull

/-- A call in range answers as the set does. -/
theorem refines (garbage : ℕ → BitVec 32) (n : ℕ) :
    Calls.Refines call (setCall n) (Call.InRange n) (Represents garbage n) := by
  intro m S c hrange h
  cases c with
  | mark which =>
    obtain ⟨i, rfl⟩ := Int.eq_ofNat_of_zero_le hrange.1
    have hi : i < n := Int.ofNat_lt.1 hrange.2
    refine ⟨m.setBit i, ?_, h.setBit hi⟩
    simp only [call, setCall, m.mark_natCast (h.numBits.symm ▸ hi), Option.map_some]
  | clear which =>
    obtain ⟨i, rfl⟩ := Int.eq_ofNat_of_zero_le hrange.1
    have hi : i < n := Int.ofNat_lt.1 hrange.2
    refine ⟨m.clearBit i, ?_, h.clearBit hi⟩
    simp only [call, setCall, m.clear_natCast (h.numBits.symm ▸ hi), Option.map_some]
  | test which =>
    obtain ⟨i, rfl⟩ := Int.eq_ofNat_of_zero_le hrange.1
    have hi : i < n := Int.ofNat_lt.1 hrange.2
    refine ⟨m, ?_, h⟩
    simp only [call, setCall, m.test_natCast (h.numBits.symm ▸ hi), h.bit i hi, Option.map_some,
      Int.toNat_natCast]
  | find =>
    by_cases hmissing : (missing n S).Nonempty
    · obtain ⟨l, hclears⟩ := h.clears_of_nonempty hmissing
      have hmin := Finset.min'_mem _ hmissing
      have hlt : (missing n S).min' hmissing < n :=
        Finset.mem_range.1 (Finset.mem_sdiff.1 hmin).1
      refine ⟨m.setBit ((missing n S).min' hmissing), ?_, ?_⟩
      · simp only [call, setCall, find_of_clears hclears, dif_pos hmissing]
      · simpa only [setCall, dif_pos hmissing] using h.setBit hlt
    · have hfind := find_of_full (h.clears_of_empty hmissing)
      refine ⟨m, ?_, ?_⟩
      · simp only [call, setCall, hfind, dif_neg hmissing]
      · simpa only [setCall, dif_neg hmissing] using h
  | numClear =>
    refine ⟨m, ?_, h⟩
    simp only [call, setCall, h.numClear_eq]

end Represents

/-- **A bitmap refines a finite set**: after the constructor, whatever the words held, any sequence of
calls with indices in range is answered as by the set.  Then `Test` tells what is in the set, `NumClear`
how much is missing, and the bits past the end are what they were before. -/
theorem refines_set (garbage : ℕ → BitVec 32) (n : ℕ) (calls : List Call)
    (h : ∀ c ∈ calls, c.InRange n) :
    ∃ m, Calls.run call (new garbage n) calls = some ((Calls.runSpec (setCall n) ∅ calls).1, m) ∧
      (Calls.runSpec (setCall n) ∅ calls).2 ⊆ Finset.range n ∧
      (∀ i < n, m.test i = some (decide (i ∈ (Calls.runSpec (setCall n) ∅ calls).2))) ∧
      (m.numClear : ℤ) = n - (Calls.runSpec (setCall n) ∅ calls).2.card ∧
      ∀ i, n ≤ i → m.bit i = bit ⟨n, garbage⟩ i := by
  obtain ⟨m, hrun, hend⟩ :=
    (Represents.refines garbage n).run calls h (Represents.new garbage n)
  refine ⟨m, hrun, hend.subset, ?_, hend.numClear_eq, hend.rest⟩
  intro i hi
  rw [m.test_natCast (hend.numBits.symm ▸ hi), hend.bit i hi]

/-- Bits of two words that are all set to begin with. -/
theorem refines_set_twoWords :
    ∃ m, Calls.run call (new (fun _ => 0xFFFFFFFF) 33) [.mark 0, .mark 32, .find, .test 31, .clear 0,
        .find, .numClear] =
      some ([.void, .void, .int 1, .bool false, .void, .int 0, .int 30], m) := by
  obtain ⟨m, hrun, -⟩ := refines_set (fun _ => 0xFFFFFFFF) 33
    [.mark 0, .mark 32, .find, .test 31, .clear 0, .find, .numClear] (by simp [Call.InRange])
  refine ⟨m, hrun.trans ?_⟩
  congr 1

end Nachos.BitMap
