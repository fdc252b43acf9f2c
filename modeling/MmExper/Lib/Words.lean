import Mathlib.Algebra.Order.Ring.Nat
import Mathlib.Data.Nat.Bitwise
import Mathlib.Tactic.Ring

/-!
# Masks, alignment and tag bits of machine words

The idioms of systems code on unsigned words, as arithmetic: `x & (a - 1)` and `x & ~(a - 1)` for a
power of two `a` are remainder and rounding down, and a word whose lowest bit is a flag stores an
even number next to it. Words are `BitVec w`; the statements go through `toNat`, so that the rest of
a proof is linear arithmetic.
-/

namespace MmExper.Lib

variable {w : Nat} {x a : BitVec w} {k : Nat}

theorem toNat_ofNat_of_lt {n : Nat} (h : n < 2 ^ w) : (BitVec.ofNat w n).toNat = n := by
  rw [BitVec.toNat_ofNat, Nat.mod_eq_of_lt h]

/-! ## Masks of a power of two -/

theorem toNat_sub_one (h : a.toNat = 2 ^ k) : (a - 1#w).toNat = 2 ^ k - 1 := by
  have hpos : 0 < 2 ^ k := Nat.two_pow_pos k
  have hlt : a.toNat < 2 ^ w := a.isLt
  have hw : 1 ≤ w := by
    rcases Nat.eq_zero_or_pos w with rfl | hw
    · simp only [Nat.pow_zero] at hlt
      omega
    · exact hw
  have h1 : 1 < 2 ^ w := Nat.one_lt_two_pow (by omega)
  rw [BitVec.toNat_sub, BitVec.toNat_ofNat, Nat.mod_eq_of_lt h1, h]
  rw [h] at hlt
  rw [show 2 ^ w - 1 + 2 ^ k = (2 ^ k - 1) + 2 ^ w by omega, Nat.add_mod_right]
  exact Nat.mod_eq_of_lt (by omega)

/-- `x & (a - 1)` is the remainder. -/
theorem toNat_and_sub_one (h : a.toNat = 2 ^ k) : (x &&& (a - 1#w)).toNat = x.toNat % 2 ^ k := by
  rw [BitVec.toNat_and, toNat_sub_one h, Nat.and_two_pow_sub_one_eq_mod]

/-- Masking and its complement add up to the word. -/
theorem and_add_and_not (x m : BitVec w) : (x &&& m) + (x &&& ~~~m) = x := by
  rw [BitVec.add_eq_or_of_and_eq_zero]
  · ext i
    simp only [BitVec.getElem_or, BitVec.getElem_and, BitVec.getElem_not]
    grind
  · ext i
    simp only [BitVec.getElem_and, BitVec.getElem_not, BitVec.getElem_zero]
    grind

/-- `x & ~(a - 1)` rounds down to a multiple of `a`. -/
theorem toNat_and_not_sub_one (h : a.toNat = 2 ^ k) :
    (x &&& ~~~(a - 1#w)).toNat = x.toNat - x.toNat % 2 ^ k := by
  have hsum : x &&& ~~~(a - 1#w) = x - (x &&& (a - 1#w)) := by
    have := and_add_and_not x (a - 1#w)
    grind
  rw [hsum, BitVec.toNat_sub_of_le, toNat_and_sub_one h]
  rw [BitVec.le_def, toNat_and_sub_one h]
  exact Nat.mod_le _ _

/-- `-x & (a - 1)` is the distance up to the next multiple of `a`. -/
theorem toNat_neg_and_sub_one (h : a.toNat = 2 ^ k) :
    (-x &&& (a - 1#w)).toNat = (2 ^ k - x.toNat % 2 ^ k) % 2 ^ k := by
  have hk : k < w ∨ 2 ^ w ≤ 2 ^ k := by
    rcases Nat.lt_or_ge k w with hk | hk
    · exact Or.inl hk
    · exact Or.inr (Nat.pow_le_pow_right (by omega) hk)
  have hlt : a.toNat < 2 ^ w := a.isLt
  have hk : k < w := by omega
  rw [toNat_and_sub_one h, BitVec.toNat_neg]
  have hx : x.toNat < 2 ^ w := x.isLt
  obtain ⟨d, rfl⟩ : ∃ d, w = k + d := ⟨w - k, by omega⟩
  have hp : 2 ^ (k + d) = 2 ^ k * 2 ^ d := Nat.pow_add 2 k d
  rw [Nat.mod_mod_of_dvd _ ⟨2 ^ d, hp⟩]
  have hkpos : 0 < 2 ^ k := Nat.two_pow_pos k
  have hm : x.toNat % 2 ^ k < 2 ^ k := Nat.mod_lt _ hkpos
  have hdiv := Nat.div_add_mod x.toNat (2 ^ k)
  have hq : x.toNat / 2 ^ k < 2 ^ d := by
    rw [Nat.div_lt_iff_lt_mul hkpos, Nat.mul_comm, ← hp]
    exact hx
  obtain ⟨e, he⟩ : ∃ e, 2 ^ d = x.toNat / 2 ^ k + 1 + e := ⟨2 ^ d - (x.toNat / 2 ^ k + 1), by omega⟩
  have : 2 ^ (k + d) - x.toNat = (2 ^ k - x.toNat % 2 ^ k) + 2 ^ k * e := by
    rw [hp, he]
    have : 2 ^ k * (x.toNat / 2 ^ k + 1 + e)
        = 2 ^ k * (x.toNat / 2 ^ k) + 2 ^ k + 2 ^ k * e := by ring
    omega
  rw [this, Nat.add_mul_mod_self_left]

/-! ## Sums and differences that do not wrap -/

theorem toNat_sub_of_toNat_le {y : BitVec w} (h : y.toNat ≤ x.toNat) :
    (x - y).toNat = x.toNat - y.toNat :=
  BitVec.toNat_sub_of_le (BitVec.le_def.mpr h)

/-- The difference may wrap on the way, as long as the sum does not. -/
theorem toNat_sub_add {y z : BitVec w} (h : y.toNat ≤ x.toNat + z.toNat)
    (hlt : x.toNat + z.toNat - y.toNat < 2 ^ w) :
    (x - y + z).toNat = x.toNat + z.toNat - y.toNat := by
  have hy := y.isLt
  rw [BitVec.toNat_add, BitVec.toNat_sub]
  rw [Nat.mod_add_mod, show 2 ^ w - y.toNat + x.toNat + z.toNat = x.toNat + z.toNat - y.toNat + 2 ^ w by
    omega, Nat.add_mod_right]
  exact Nat.mod_eq_of_lt hlt

/-- The sum may wrap on the way, as long as the difference does not. -/
theorem toNat_add_sub {y z : BitVec w} (h : z.toNat ≤ x.toNat + y.toNat)
    (hlt : x.toNat + y.toNat - z.toNat < 2 ^ w) :
    (x + y - z).toNat = x.toNat + y.toNat - z.toNat := by
  have hcomm : x + y - z = x - z + y := by
    rw [BitVec.sub_eq_add_neg, BitVec.sub_eq_add_neg, BitVec.add_assoc, BitVec.add_assoc,
      BitVec.add_comm y]
  rw [hcomm]
  exact toNat_sub_add h hlt

/-- One less than a successor. -/
theorem toNat_pred {n : Nat} (h : x.toNat = n + 1) : (x - 1#w).toNat = n := by
  have hone : (1#w).toNat = 1 :=
    Lib.toNat_ofNat_of_lt (Nat.lt_of_le_of_lt (Nat.le_add_left 1 n) (h ▸ x.isLt))
  rw [toNat_sub_of_toNat_le, h, hone]
  · exact Nat.add_sub_cancel n 1
  · rw [h, hone]
    exact Nat.le_add_left 1 n

/-- One less than a sum, which may wrap on the way. -/
theorem toNat_add_pred {y : BitVec w} {n : Nat} (h : x.toNat + y.toNat = n + 1) (hlt : n < 2 ^ w) :
    (x + y - 1#w).toNat = n := by
  have hone : (1#w).toNat = 1 := by
    have hx := x.isLt
    have hy := y.isLt
    rw [BitVec.toNat_ofNat]
    exact Nat.mod_eq_of_lt (by omega)
  have hsum : x.toNat + y.toNat - (1#w).toNat = n := by
    rw [h, hone]
    exact Nat.add_sub_cancel n 1
  rw [toNat_add_sub _ (hsum ▸ hlt), hsum]
  rw [h, hone]
  exact Nat.le_add_left 1 n

/-! ## A flag in the lowest bit -/

/-- Setting the lowest bit of an even word adds one. -/
theorem toNat_or_one (hw : 0 < w) (h : x.toNat % 2 = 0) : (x ||| 1#w).toNat = x.toNat + 1 := by
  have h1 : 1 < 2 ^ w := Nat.one_lt_two_pow (by omega)
  rw [BitVec.toNat_or, BitVec.toNat_ofNat, Nat.mod_eq_of_lt h1]
  obtain ⟨m, hm⟩ : ∃ m, x.toNat = 2 * m := ⟨x.toNat / 2, by omega⟩
  rw [hm, ← Nat.two_pow_add_eq_or_of_lt (i := 1) (b := 1) (by omega) m]

theorem toNat_and_one (hw : 0 < w) : (x &&& 1#w).toNat = x.toNat % 2 := by
  have h1 : 1 < 2 ^ w := Nat.one_lt_two_pow (by omega)
  rw [BitVec.toNat_and, BitVec.toNat_ofNat, Nat.mod_eq_of_lt h1, Nat.and_one_is_mod]

/-- `x & ~1` clears the lowest bit. -/
theorem toNat_and_not_one (hw : 0 < w) : (x &&& ~~~1#w).toNat = x.toNat - x.toNat % 2 := by
  have hsum : x &&& ~~~1#w = x - (x &&& 1#w) := by
    have := and_add_and_not x 1#w
    grind
  rw [hsum, BitVec.toNat_sub_of_le, toNat_and_one hw]
  rw [BitVec.le_def, toNat_and_one hw]
  exact Nat.mod_le _ _

/-! ## The highest bit -/

/-- The position of the highest set bit, if there is one. -/
def highestBit (x : BitVec w) : Option Nat := if x = 0#w then none else some x.toNat.log2

theorem testBit_of_log2_lt {n k : Nat} (h : n.log2 < k) : n.testBit k = false := by
  apply Nat.testBit_lt_two_pow
  exact Nat.lt_of_lt_of_le Nat.lt_log2_self (Nat.pow_le_pow_right (by decide) h)

/-- The highest bit of `a` is the highest one that `a ^ b` and `b` differ in, so it decides which is larger. -/
theorem xor_le_iff_testBit {a b : Nat} (ha : a ≠ 0) : a ^^^ b ≤ b ↔ b.testBit a.log2 = true := by
  have habove : ∀ i, a.log2 < i → (a ^^^ b).testBit i = b.testBit i := by
    intro i hi
    rw [Nat.testBit_xor, testBit_of_log2_lt hi, Bool.false_xor]
  have hat : (a ^^^ b).testBit a.log2 = !b.testBit a.log2 := by
    rw [Nat.testBit_xor, Nat.testBit_log2 ha, Bool.true_xor]
  cases hbit : b.testBit a.log2 with
  | false =>
      rw [hbit] at hat
      have hlt : b < a ^^^ b := Nat.lt_of_testBit a.log2 hbit hat fun i hi => (habove i hi).symm
      exact iff_of_false (Nat.not_le.mpr hlt) Bool.false_ne_true
  | true =>
      rw [hbit] at hat
      have hlt : a ^^^ b < b := Nat.lt_of_testBit a.log2 hat hbit habove
      exact iff_of_true (Nat.le_of_lt hlt) rfl

/-- Numbers with the same highest bit differ below it. -/
theorem xor_le_iff_log2_eq {a b : Nat} (hb : b ≠ 0) (h : b ≤ a) : a ^^^ b ≤ b ↔ a.log2 = b.log2 := by
  have ha : a ≠ 0 := fun e => hb (Nat.le_zero.mp (e ▸ h))
  have hmono : b.log2 ≤ a.log2 := (Nat.le_log2 ha).mpr (Nat.le_trans (Nat.log2_self_le hb) h)
  rw [xor_le_iff_testBit ha]
  rcases Nat.eq_or_lt_of_le hmono with heq | hlt
  · rw [← heq]
    exact iff_of_true (Nat.testBit_log2 hb) rfl
  · rw [testBit_of_log2_lt hlt]
    exact iff_of_false Bool.false_ne_true (Nat.ne_of_gt hlt)

theorem toNat_ne_zero_iff : x.toNat ≠ 0 ↔ x ≠ 0#w := by
  rw [ne_eq, ne_eq, ← BitVec.toNat_inj, BitVec.toNat_ofNat, Nat.zero_mod]

/-- `x ^ y <= y` asks for the bit of `y` where the highest one of `x` is. -/
theorem xor_le_iff_getLsbD {y : BitVec w} (hx : x ≠ 0#w) :
    x ^^^ y ≤ y ↔ y.getLsbD x.toNat.log2 = true := by
  rw [BitVec.le_def, BitVec.toNat_xor, xor_le_iff_testBit (toNat_ne_zero_iff.mpr hx)]
  rfl

theorem highestBit_eq_iff {y : BitVec w} (hx : x ≠ 0#w) (hy : y ≠ 0#w) :
    highestBit x = highestBit y ↔ x.toNat.log2 = y.toNat.log2 := by
  rw [highestBit, highestBit, if_neg hx, if_neg hy, Option.some_inj]

/-- `x ^ y <= y` compares the highest bits, unless `x` is the smaller one. -/
theorem xor_le_iff_highestBit_eq {y : BitVec w} (hx : x ≠ 0#w) (h : y ≤ x) :
    x ^^^ y ≤ y ↔ highestBit x = highestBit y := by
  by_cases hy : y = 0#w
  · have hle : ¬x ≤ 0#w := by
      rw [BitVec.le_def, BitVec.toNat_ofNat, Nat.zero_mod, Nat.le_zero]
      exact toNat_ne_zero_iff.mpr hx
    rw [hy, BitVec.xor_zero, highestBit, highestBit, if_neg hx, if_pos rfl]
    exact iff_of_false hle (Option.some_ne_none _)
  · rw [highestBit_eq_iff hx hy, BitVec.le_def, BitVec.toNat_xor]
    exact xor_le_iff_log2_eq (toNat_ne_zero_iff.mpr hy) (BitVec.le_def.mp h)

/-- The comparison tells whether the highest bits are at one position, and with either word, except when they
are not and one of them is set in the other word as well. -/
theorem xor_le_exact_iff {y : BitVec w} (hx : x ≠ 0#w) (hy : y ≠ 0#w) :
    ((x ^^^ y ≤ y ↔ highestBit x = highestBit y) ∧ (x ^^^ y ≤ y ↔ x ^^^ y ≤ x)) ↔
      highestBit x = highestBit y ∨
        y.getLsbD x.toNat.log2 = false ∧ x.getLsbD y.toNat.log2 = false := by
  have hyx : x ^^^ y ≤ x ↔ x.getLsbD y.toNat.log2 = true := by
    rw [BitVec.xor_comm]
    exact xor_le_iff_getLsbD hy
  have hsame : highestBit x = highestBit y →
      y.getLsbD x.toNat.log2 = true ∧ x.getLsbD y.toNat.log2 = true := by
    intro h
    rw [highestBit_eq_iff hx hy] at h
    rw [h]
    refine ⟨Nat.testBit_log2 (toNat_ne_zero_iff.mpr hy), ?_⟩
    rw [← h]
    exact Nat.testBit_log2 (toNat_ne_zero_iff.mpr hx)
  rw [xor_le_iff_getLsbD hx, hyx]
  grind

end MmExper.Lib
