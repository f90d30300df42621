import Nachos.Lib.DoubleWord
import Nachos.Machine.Mipssim

/-!
# Multiplication (`Mult` in `machine/mipssim.cc`)

The loop goes through the bits of `a` and adds a shifted `b`.  Before a round with `n` rounds left, the
words `hi` and `lo` and what is still to be added, the lowest `n` bits of `a` times the words `bHi` and
`bLo`, make up the product (`multLoop_eq`).  `a` is an `int`, so ones are shifted into a negative `a`;
these bits are not reached.  The loop is left early when no bits are left.

Products of numbers with a sign are computed from the absolute values, read as numbers without a sign:
there the absolute value of `-2 ^ 31` exists.
-/

namespace Nachos.Mips

open DoubleWord

/-! ### Bits of a word -/

theorem and_signBit_ne_zero_iff (x : CInt) : x &&& signBit ≠ 0 ↔ x.msb = true := by
  have htwoPow : signBit = BitVec.twoPow 32 31 := rfl
  rw [htwoPow, BitVec.and_twoPow, BitVec.msb_eq_getLsbD_last]
  cases x.getLsbD (32 - 1) <;> decide

theorem and_one_ne_zero_iff (x : CInt) : x &&& 1 ≠ 0 ↔ x.toNat % 2 = 1 := by
  rw [ne_eq, ← BitVec.toNat_inj, BitVec.toNat_and]
  show ¬ x.toNat &&& 1 = 0 ↔ _
  rw [Nat.and_one_is_mod]
  omega

/-- No bits are left but the lowest. -/
theorem toNat_eq_one {x : CInt} (hodd : x &&& 1 ≠ 0) (hrest : x &&& 0xfffffffe = 0) :
    x.toNat = 1 := by
  have hsplit : x = (x &&& 1) ||| (x &&& 0xfffffffe) := by
    rw [← BitVec.and_or_distrib_left]
    exact (BitVec.and_allOnes).symm
  rw [and_one_ne_zero_iff] at hodd
  rw [hsplit, hrest]
  show (x &&& 1 ||| 0#32).toNat = 1
  rw [BitVec.or_zero, BitVec.toNat_and]
  exact (Nat.and_one_is_mod _).trans hodd

/-- `a >>= 1`, without the bits shifted in. -/
theorem toNat_sshiftRight_mod {n : ℕ} (hn : n < 32) (a : CInt) :
    (a.sshiftRight 1).toNat % 2 ^ n = a.toNat / 2 % 2 ^ n := by
  apply Nat.eq_of_testBit_eq
  intro i
  rw [Nat.testBit_mod_two_pow, Nat.testBit_mod_two_pow, Nat.testBit_div_two, BitVec.testBit_toNat,
    BitVec.testBit_toNat, BitVec.getLsbD_sshiftRight]
  by_cases hi : i < n
  · simp [hi, show i + 1 < 32 by omega, show i < 32 by omega, Nat.add_comm]
  · simp [hi]

/-! ### The loop -/

/-- **The invariant of the loop**: the sum so far, and the lowest `n` bits of `a` times the shifted
`b`, make up the result. -/
theorem multLoop_eq {n : ℕ} (hn : n ≤ 32) (a bLo bHi lo hi : CInt) :
    join (multLoop n a bLo bHi lo hi).1 (multLoop n a bLo bHi lo hi).2 =
      join hi lo + ((a.toNat % 2 ^ n : ℕ) : BitVec (32 + 32)) * join bHi bLo := by
  induction n generalizing a bLo bHi lo hi with
  | zero =>
    rw [pow_zero, Nat.mod_one, Nat.cast_zero, zero_mul, add_zero]
    rfl
  | succ n ih =>
    have hbits : a.toNat % 2 ^ (n + 1) = a.toNat % 2 + 2 * ((a.sshiftRight 1).toNat % 2 ^ n) := by
      rw [toNat_sshiftRight_mod (by omega), pow_succ', Nat.mod_mul]
    have hdouble : join (if bLo &&& 0x80000000 ≠ 0 then (bHi <<< 1) ||| 1 else bHi <<< 1) (bLo <<< 1) =
        join bHi bLo + join bHi bLo := by
      rw [← join_double]
      simp only [and_signBit_ne_zero_iff]
      rfl
    have hadd := join_add hi lo bHi bLo
    rw [hbits]
    unfold multLoop
    dsimp only
    by_cases hodd : a &&& 1 ≠ 0
    · have hbit := (and_one_ne_zero_iff a).1 hodd
      rw [if_pos hodd, if_pos hodd, hbit]
      by_cases hrest : a &&& 0xfffffffe = 0
      · have hzero : (a.sshiftRight 1).toNat % 2 ^ n = 0 := by
          rw [toNat_sshiftRight_mod (by omega), toNat_eq_one hodd hrest]
          exact Nat.zero_mod _
        rw [if_pos ⟨hodd, hrest⟩, hzero, mul_zero, add_zero, Nat.cast_one, one_mul]
        exact hadd
      · rw [if_neg (fun h => hrest h.2), ih (by omega), hdouble]
        refine (congrArg (· + _) hadd).trans ?_
        rw [Nat.cast_add, Nat.cast_mul, Nat.cast_one, Nat.cast_ofNat]
        ring
    · have hbit : a.toNat % 2 = 0 := by
        rw [and_one_ne_zero_iff] at hodd
        omega
      rw [if_neg hodd, if_neg hodd, if_neg (fun h => hodd h.1), ih (by omega), hdouble, hbit,
        Nat.zero_add, Nat.cast_mul, Nat.cast_ofNat]
      ring

/-! ### `Mult` -/

theorem toNat_magnitude (a : CInt) : (if a.slt 0 then -a else a).toNat = a.toInt.natAbs := by
  have hlt := a.isLt
  simp only [BitVec.slt_eq_decide, decide_eq_true_iff]
  rw [show (0 : CInt).toInt = 0 from rfl]
  split_ifs with hneg
  · rw [BitVec.toNat_neg]
    rw [BitVec.toInt_eq_toNat_cond] at hneg ⊢
    split_ifs at hneg ⊢ <;> omega
  · rw [BitVec.toInt_eq_toNat_cond] at hneg ⊢
    split_ifs at hneg ⊢ <;> omega

/-- The loop from the start. -/
theorem multLoop_start (a b : CInt) :
    join (multLoop 32 a b 0 0 0).1 (multLoop 32 a b 0 0 0).2 =
      ((a.toNat * b.toNat : ℕ) : BitVec (32 + 32)) := by
  have hb : join 0 b = ((b.toNat : ℕ) : BitVec (32 + 32)) := by
    rw [join_eq_ofNat_self]
    show BitVec.ofNat _ (0 * 2 ^ 32 + b.toNat) = _
    rw [Nat.zero_mul, Nat.zero_add]
    rfl
  rw [multLoop_eq le_rfl, Nat.mod_eq_of_lt a.isLt, hb, Nat.cast_mul]
  exact BitVec.zero_add _

theorem toNat_mul_lt (a b : CInt) : a.toNat * b.toNat < 2 ^ (32 + 32) := by
  rw [pow_add]
  exact Nat.mul_lt_mul'' a.isLt b.isLt

theorem mult_unsigned (a b : CInt) :
    (mult a b false).1.toNat * 2 ^ 32 + (mult a b false).2.toNat = a.toNat * b.toNat := by
  unfold mult
  by_cases hzero : a = 0 ∨ b = 0
  · have hproduct : a.toNat * b.toNat = 0 := by
      rcases hzero with rfl | rfl
      · exact Nat.zero_mul _
      · exact Nat.mul_zero _
    rw [if_pos hzero, hproduct]
    rfl
  · rw [if_neg hzero]
    simp only [Bool.false_and, Bool.false_eq_true, if_false]
    rw [← toNat_join, multLoop_start, BitVec.natCast_eq_ofNat, BitVec.toNat_ofNat,
      Nat.mod_eq_of_lt (toNat_mul_lt a b)]

/-- The sign of the result, as it is computed before the loop. -/
theorem mul_eq_of_signs (a b : CInt) :
    a.toInt * b.toInt = if a.slt 0 != b.slt 0 then -((a.toInt * b.toInt).natAbs : ℤ)
      else ((a.toInt * b.toInt).natAbs : ℤ) := by
  simp only [BitVec.slt_eq_decide, show (0 : CInt).toInt = 0 from rfl]
  rcases lt_or_ge a.toInt 0 with ha | ha <;> rcases lt_or_ge b.toInt 0 with hb | hb
  · have hpos := Int.mul_pos_of_neg_of_neg ha hb
    simp only [ha, hb, bne_self_eq_false, Bool.false_eq_true, if_false]
    omega
  · have hneg := Int.mul_nonpos_of_nonpos_of_nonneg ha.le hb
    simp only [ha, not_lt.2 hb, decide_true, decide_false, Bool.true_bne,
      Bool.not_false, if_true]
    omega
  · have hneg := Int.mul_nonpos_of_nonneg_of_nonpos ha hb.le
    simp only [not_lt.2 ha, hb, decide_true, decide_false, Bool.false_bne, if_true]
    omega
  · have hpos := Int.mul_nonneg ha hb
    simp only [not_lt.2 ha, not_lt.2 hb, bne_self_eq_false, Bool.false_eq_true, if_false]
    omega

theorem mult_signed (a b : CInt) :
    (mult a b true).1 ++ (mult a b true).2 = BitVec.ofInt 64 (a.toInt * b.toInt) := by
  have hproduct := multLoop_start (if a.slt 0 then -a else a) (if b.slt 0 then -b else b)
  rw [toNat_magnitude, toNat_magnitude, ← Int.natAbs_mul] at hproduct
  have hsigns := mul_eq_of_signs a b
  unfold mult
  by_cases hzero : a = 0 ∨ b = 0
  · rw [if_pos hzero]
    rcases hzero with rfl | rfl <;> simp
  rw [if_neg hzero]
  simp only [Bool.true_and]
  generalize multLoop 32 (if a.slt 0 then -a else a) (if b.slt 0 then -b else b) 0 0 0 = r at hproduct
  obtain ⟨hi, lo⟩ := r
  by_cases hnegative : (a.slt 0 != b.slt 0) = true
  · rw [if_pos hnegative] at hsigns
    rw [if_pos hnegative, hsigns, BitVec.ofInt_neg, BitVec.ofInt_natCast]
    have hneg := join_neg (by decide) hi lo
    rw [show join hi lo = _ from hproduct] at hneg
    exact hneg
  · rw [if_neg hnegative] at hsigns
    rw [if_neg hnegative, hsigns, BitVec.ofInt_natCast]
    exact hproduct

/-- **`Mult` is exact**: without a sign the two words are the product, and with a sign they are its
representation in 64 bits. -/
theorem mult_exact (a b : CInt) :
    (mult a b false).1.toNat * 2 ^ 32 + (mult a b false).2.toNat = a.toNat * b.toNat ∧
      (mult a b true).1 ++ (mult a b true).2 = BitVec.ofInt 64 (a.toInt * b.toInt) :=
  ⟨mult_unsigned a b, mult_signed a b⟩

end Nachos.Mips
