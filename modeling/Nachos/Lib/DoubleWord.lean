import Mathlib.Data.BitVec
import Mathlib.Tactic.Ring

/-!
# Numbers of two words

Programs without a type for numbers of `w + w` bits keep a high and a low word, and carry by hand.
`join` is the number that the two words stand for.

* `join_add`: the carry is seen in the sum of the low words, which is below one of them.
* `join_double`: the sign bit of the low word goes to the high one.
* `join_neg`: the complement of both words, and one more.
-/

namespace DoubleWord

variable {w : ℕ}

/-- The number with the words `hi` and `lo`. -/
def join (hi lo : BitVec w) : BitVec (w + w) := hi ++ lo

theorem toNat_join (hi lo : BitVec w) : (join hi lo).toNat = hi.toNat * 2 ^ w + lo.toNat := by
  unfold join
  rw [BitVec.toNat_append, ← Nat.shiftLeft_add_eq_or_of_lt lo.isLt, Nat.shiftLeft_eq]

/-- The words are known when their number is, up to multiples of `2 ^ w * 2 ^ w`. -/
theorem join_eq_ofNat {hi lo : BitVec w} {x d : ℕ}
    (h : hi.toNat * 2 ^ w + lo.toNat + d * (2 ^ w * 2 ^ w) = x) : join hi lo = BitVec.ofNat (w + w) x := by
  apply BitVec.eq_of_toNat_eq
  rw [BitVec.toNat_ofNat, ← h, pow_add, Nat.add_mul_mod_self_right, ← pow_add, ← toNat_join,
    Nat.mod_eq_of_lt (join hi lo).isLt]

theorem join_eq_ofNat_self (hi lo : BitVec w) :
    join hi lo = BitVec.ofNat (w + w) (hi.toNat * 2 ^ w + lo.toNat) := by
  rw [← toNat_join, BitVec.ofNat_toNat, BitVec.setWidth_eq]

/-- A sum of words is below one of them when it has overflowed. -/
theorem toNat_add_carry (a b : BitVec w) :
    (a + b).toNat + (if a + b < b then 1 else 0) * 2 ^ w = a.toNat + b.toNat := by
  have ha := a.isLt
  have hb := b.isLt
  simp only [BitVec.lt_def, BitVec.toNat_add]
  by_cases hover : a.toNat + b.toNat < 2 ^ w
  · rw [Nat.mod_eq_of_lt hover, if_neg (by omega)]
    omega
  · rw [Nat.mod_eq_sub_mod (by omega), Nat.mod_eq_of_lt (by omega), if_pos (by omega)]
    omega

theorem join_add (hi lo hi' lo' : BitVec w) :
    join ((if lo + lo' < lo' then hi + 1#w else hi) + hi') (lo + lo') = join hi lo + join hi' lo' := by
  have hlow := toNat_add_carry lo lo'
  set carry : ℕ := if lo + lo' < lo' then 1 else 0 with hcarry
  have hhigh : (if lo + lo' < lo' then hi + 1#w else hi) + hi' =
      BitVec.ofNat w (hi.toNat + carry + hi'.toNat) := by
    rw [BitVec.ofNat_add, BitVec.ofNat_add, BitVec.ofNat_toNat, BitVec.setWidth_eq,
      BitVec.ofNat_toNat, BitVec.setWidth_eq, hcarry]
    split_ifs
    · rfl
    · rw [BitVec.add_zero]
  rw [join_eq_ofNat_self hi lo, join_eq_ofNat_self hi' lo', ← BitVec.ofNat_add, hhigh]
  -- the carry out of the high word is lost
  have hdiv := Nat.mod_add_div (hi.toNat + carry + hi'.toNat) (2 ^ w)
  set lost := (hi.toNat + carry + hi'.toNat) / 2 ^ w
  set high := (hi.toNat + carry + hi'.toNat) % 2 ^ w with hmod
  apply join_eq_ofNat (d := lost)
  rw [BitVec.toNat_ofNat, ← hmod]
  calc high * 2 ^ w + (lo + lo').toNat + lost * (2 ^ w * 2 ^ w)
      = (high + 2 ^ w * lost) * 2 ^ w + (lo + lo').toNat := by ring
    _ = hi.toNat * 2 ^ w + hi'.toNat * 2 ^ w + ((lo + lo').toNat + carry * 2 ^ w) := by
      rw [hdiv]
      ring
    _ = hi.toNat * 2 ^ w + lo.toNat + (hi'.toNat * 2 ^ w + lo'.toNat) := by
      rw [hlow]
      ring

theorem join_not (hi lo : BitVec w) : join (~~~hi) (~~~lo) = ~~~join hi lo := by
  unfold join
  exact BitVec.not_append.symm

/-- A sum of a word and itself overflows when the first bit is set. -/
theorem add_self_lt_iff (lo : BitVec w) : lo + lo < lo ↔ lo.msb = true := by
  have hlow := toNat_add_carry lo lo
  have hlt := (lo + lo).isLt
  rw [BitVec.msb_eq_decide, decide_eq_true_iff]
  cases w with
  | zero => simp [BitVec.eq_nil lo]
  | succ n =>
    rw [Nat.add_sub_cancel]
    rw [pow_succ] at hlow hlt
    split_ifs at hlow with hcarry
    · exact iff_of_true hcarry (by omega)
    · exact iff_of_false hcarry (by omega)

theorem shiftLeft_one (x : BitVec w) : x <<< 1 = x + x := by
  apply BitVec.eq_of_toNat_eq
  rw [BitVec.toNat_shiftLeft, Nat.shiftLeft_eq, pow_one, Nat.mul_two, BitVec.toNat_add]

theorem shiftLeft_one_or (x : BitVec w) : x <<< 1 ||| 1#w = x <<< 1 + 1#w := by
  symm
  apply BitVec.add_eq_or_of_and_eq_zero
  ext i hi
  simp only [BitVec.getElem_and, BitVec.getElem_shiftLeft, BitVec.getElem_one, BitVec.getElem_zero]
  cases i <;> simp

theorem join_double (hi lo : BitVec w) :
    join (if lo.msb then hi <<< 1 ||| 1#w else hi <<< 1) (lo <<< 1) = join hi lo + join hi lo := by
  rw [← join_add, shiftLeft_one_or, shiftLeft_one, shiftLeft_one]
  congr 1
  simp only [add_self_lt_iff]
  split_ifs
  · ring
  · rfl

theorem join_neg (hw : 0 < w) (hi lo : BitVec w) :
    join (if ~~~lo + 1#w = 0#w then ~~~hi + 1#w else ~~~hi) (~~~lo + 1#w) = -join hi lo := by
  have hpow : 1 < 2 ^ w := Nat.one_lt_two_pow hw.ne'
  have hone : join 0#w 1#w = 1#(w + w) := by
    have hpow' : 1 < 2 ^ (w + w) := Nat.one_lt_two_pow (by omega)
    apply BitVec.eq_of_toNat_eq
    rw [toNat_join, BitVec.toNat_ofNat, BitVec.toNat_ofNat, BitVec.toNat_ofNat, Nat.zero_mod,
      Nat.zero_mul, Nat.zero_add, Nat.mod_eq_of_lt hpow, Nat.mod_eq_of_lt hpow']
  have hlt : ∀ x : BitVec w, x < 1#w ↔ x = 0#w := by
    intro x
    rw [BitVec.lt_def, BitVec.toNat_ofNat, Nat.mod_eq_of_lt hpow, Nat.lt_one_iff,
      ← BitVec.toNat_inj, BitVec.toNat_ofNat, Nat.zero_mod]
  have hadd := join_add (~~~hi) (~~~lo) 0#w 1#w
  simp only [hlt, BitVec.add_zero] at hadd
  rw [hadd, hone, join_not, BitVec.neg_eq_not_add]

end DoubleWord
