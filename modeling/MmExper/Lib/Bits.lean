import MmExper.Lib.Words

/-!
# Bits and fields of machine words

A word that holds flags and numbers side by side: a flag is tested with the mask of its bit, and a number
is cut out with a shift and a mask of the lowest bits.
-/

namespace MmExper.Lib

variable {w : Nat} {x : BitVec w} {i j k : Nat}

/-! ## Flags -/

theorem toNat_bit (h : i < w) : (1#w <<< i).toNat = 2 ^ i := by
  rw [← BitVec.twoPow_eq, BitVec.toNat_twoPow, Nat.mod_eq_of_lt (Nat.pow_lt_pow_right (by decide) h)]

theorem bit_ne_zero (h : i < w) : 1#w <<< i ≠ 0#w := by
  intro e
  have hzero := toNat_bit h
  rw [e] at hzero
  exact absurd hzero.symm (Nat.two_pow_pos i).ne'

theorem getLsbD_bit (h : i < w) : (1#w <<< i).getLsbD j = decide (j = i) := by
  rw [← BitVec.twoPow_eq, BitVec.getLsbD_twoPow, decide_eq_true h, Bool.true_and]
  exact decide_eq_decide.mpr eq_comm

theorem and_bit (x : BitVec w) (i : Nat) : x &&& (1#w <<< i) = if x.getLsbD i then 1#w <<< i else 0#w := by
  rw [← BitVec.twoPow_eq, BitVec.and_twoPow]

/-- The test that compares with the mask. -/
theorem and_bit_eq_iff (h : i < w) : x &&& (1#w <<< i) = 1#w <<< i ↔ x.getLsbD i = true := by
  rw [and_bit]
  cases x.getLsbD i with
  | true => simp
  | false => simpa using (bit_ne_zero h).symm

/-- The test for any bit of the mask. -/
theorem and_bit_ne_zero_iff (h : i < w) : x &&& (1#w <<< i) ≠ 0#w ↔ x.getLsbD i = true := by
  rw [and_bit]
  cases x.getLsbD i with
  | true => simpa using bit_ne_zero h
  | false => simp

/-! ## Numbers -/

/-- A number in the lowest bits. -/
theorem toNat_and_low (h : k < w) : (x &&& ((1#w <<< k) - 1#w)).toNat = x.toNat % 2 ^ k :=
  toNat_and_sub_one (toNat_bit h)

/-- A number above others. -/
theorem toNat_shift_and_low (h : k < w) : ((x >>> j) &&& ((1#w <<< k) - 1#w)).toNat = x.toNat / 2 ^ j % 2 ^ k := by
  rw [toNat_and_low h, BitVec.toNat_ushiftRight, Nat.shiftRight_eq_div_pow]

/-- The same number, masked first. -/
theorem toNat_and_low_shift (h : k < w) : ((x &&& ((1#w <<< k) - 1#w)) >>> j).toNat = x.toNat % 2 ^ k / 2 ^ j := by
  rw [BitVec.toNat_ushiftRight, toNat_and_low h, Nat.shiftRight_eq_div_pow]

theorem getLsbD_and_low (h : k < w) : (x &&& ((1#w <<< k) - 1#w)).getLsbD i = (decide (i < k) && x.getLsbD i) := by
  rw [BitVec.getLsbD, toNat_and_low h, Nat.testBit_mod_two_pow]
  rfl

/-- What is above the lowest bits. -/
theorem getLsbD_and_not_low (h : k < w) :
    (x &&& ~~~((1#w <<< k) - 1#w)).getLsbD i = (decide (k ≤ i) && x.getLsbD i) := by
  by_cases hi : i < w
  · have hlow : ((1#w <<< k) - 1#w).getLsbD i = decide (i < k) := by
      rw [BitVec.getLsbD, toNat_sub_one (toNat_bit h), Nat.testBit_two_pow_sub_one]
    rw [BitVec.getLsbD_and, BitVec.getLsbD_not, hlow, decide_eq_true hi, Bool.true_and, Bool.and_comm,
      ← decide_not]
    simp only [not_lt]
  · rw [BitVec.getLsbD_of_ge _ _ (Nat.le_of_not_lt hi), BitVec.getLsbD_of_ge _ _ (Nat.le_of_not_lt hi),
      Bool.and_false]

end MmExper.Lib
