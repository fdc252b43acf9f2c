import Mathlib.Algebra.Order.Floor.Div
import MmExper.Lib.Words

/-!
# Rounding up

The least multiple of a number from another number on, and the two idioms that compute it for a power of
two: round `x + a - 1` down, or add the low bits of `-x`. On machine words both of them wrap.
-/

namespace MmExper.Lib

/-! ## Least multiples -/

section

variable {a n m : Nat}

def multiplesFrom (a n : Nat) : Set Nat := {m | n ≤ m ∧ a ∣ m}

theorem isLeast_mul_ceilDiv (ha : 0 < a) : IsLeast (multiplesFrom a n) (a * (n ⌈/⌉ a)) := by
  constructor
  · exact ⟨le_smul_ceilDiv ha, Nat.dvd_mul_right a _⟩
  · intro m ⟨hle, c, hc⟩
    rw [hc] at hle ⊢
    exact Nat.mul_le_mul_left a ((ceilDiv_le_iff_le_smul ha).mpr hle)

/-- What is missing to the next multiple is the remainder of `-n`. -/
theorem isLeast_add_sub_mod (ha : 0 < a) :
    IsLeast (multiplesFrom a n) (n + (a - n % a) % a) := by
  have hn := Nat.mod_lt n ha
  constructor
  · refine ⟨Nat.le_add_right n _, Nat.dvd_of_mod_eq_zero ?_⟩
    rw [Nat.add_mod_mod, ← Nat.mod_add_mod, Nat.add_sub_cancel' (Nat.le_of_lt hn), Nat.mod_self]
  · intro m ⟨hle, hdvd⟩
    obtain ⟨d, rfl⟩ := Nat.exists_eq_add_of_le hle
    have hd := Nat.mod_lt d ha
    -- The two remainders add up to nothing or to `a`.
    have hsum : (n % a + d % a) % a = 0 := by
      rw [← Nat.add_mod]
      exact Nat.mod_eq_zero_of_dvd hdvd
    have hmod : (a - n % a) % a = d % a := by
      rcases Nat.lt_or_ge (n % a + d % a) a with hlt | hge
      · rw [Nat.mod_eq_of_lt hlt] at hsum
        rw [show n % a = 0 by omega, show d % a = 0 by omega, Nat.sub_zero, Nat.mod_self]
      · rw [Nat.mod_eq_sub_mod hge, Nat.mod_eq_of_lt (by omega)] at hsum
        rw [show a - n % a = d % a by omega, Nat.mod_mod]
    rw [hmod]
    exact Nat.add_le_add_left (Nat.mod_le d a) n

/-- A multiple is its own least multiple. -/
theorem isLeast_of_dvd (h : a ∣ n) : IsLeast (multiplesFrom a n) n :=
  ⟨⟨Nat.le_refl n, h⟩, fun _ hm => hm.1⟩

/-- The least multiple from `n` on, modulo another one: it wraps only if it is that one. -/
theorem mod_of_isLeast {b : Nat} (h : IsLeast (multiplesFrom a n) m) (hab : a ∣ b) (hn : n ≤ b) :
    m % b = if m < b then m else 0 := by
  have hle : m ≤ b := h.2 ⟨hn, hab⟩
  rcases Nat.eq_or_lt_of_le hle with rfl | hlt
  · rw [if_neg (Nat.lt_irrefl m), Nat.mod_self]
  · rw [if_pos hlt, Nat.mod_eq_of_lt hlt]

end

/-! ## Words

Both idioms compute the least multiple modulo `2 ^ w`, so they agree also where it wraps. -/

section

variable {w : Nat} {x a : BitVec w} {k : Nat}

/-- A power of two that is a word divides the number of words. -/
theorem two_pow_dvd_of_toNat (h : a.toNat = 2 ^ k) : 2 ^ k ∣ 2 ^ w := by
  apply Nat.pow_dvd_pow
  apply Nat.le_of_lt
  apply (Nat.pow_lt_pow_iff_right (Nat.one_lt_two)).mp
  rw [← h]
  exact a.isLt

/-- `x + (-x & (a - 1))`. -/
theorem toNat_add_neg_and_sub_one (h : a.toNat = 2 ^ k) :
    (x + (-x &&& (a - 1#w))).toNat = 2 ^ k * (x.toNat ⌈/⌉ 2 ^ k) % 2 ^ w := by
  have hpos := Nat.two_pow_pos k
  rw [BitVec.toNat_add, toNat_neg_and_sub_one h,
    (isLeast_add_sub_mod hpos).unique (isLeast_mul_ceilDiv hpos)]

/-- `(x + a - 1) & ~(a - 1)`. -/
theorem toNat_add_sub_one_and_not (h : a.toNat = 2 ^ k) :
    ((x + a - 1#w) &&& ~~~(a - 1#w)).toNat = 2 ^ k * (x.toNat ⌈/⌉ 2 ^ k) % 2 ^ w := by
  have hpos := Nat.two_pow_pos k
  obtain ⟨d, hd⟩ := two_pow_dvd_of_toNat h
  have hsum : (x + a - 1#w).toNat = (x.toNat + 2 ^ k - 1) % 2 ^ w := by
    have hassoc : x + a - 1#w = x + (a - 1#w) := by
      rw [BitVec.sub_eq_add_neg, BitVec.sub_eq_add_neg, BitVec.add_assoc]
    rw [hassoc, BitVec.toNat_add, toNat_sub_one h, Nat.add_sub_assoc hpos]
  -- Both sides are the multiple of `2 ^ k` below `x + a - 1`, modulo `2 ^ w`.
  rw [toNat_and_not_sub_one h, hsum, Nat.ceilDiv_eq_add_pred_div, hd, Nat.mod_mul,
    Nat.add_mul_mod_self_left, Nat.mod_mod, Nat.add_sub_cancel_left, Nat.mul_mod_mul_left]

end

end MmExper.Lib
