import Mathlib.Data.List.Sort
import MmExper.Lib.Words

/-!
# Scanning the set bits of a word

The positions of the set bits as a list, and the step of a scan over them: `ctz` is the first position, and
`x - (x & -x)` has the others.
-/

namespace MmExper.Lib

variable {w : Nat} {x : BitVec w} {i : Nat}

/-! ## The lowest bit

`x & -x` is the lowest set bit, and subtracting it clears it. -/

/-- Below `ctz` there is nothing, and there is a bit at it. -/
theorem ctz_spec (h : x ≠ 0#w) :
    x.ctz.toNat < w ∧ x.getLsbD x.ctz.toNat = true ∧ ∀ j < x.ctz.toNat, x.getLsbD j = false := by
  have hbit := BitVec.getLsbD_true_ctz_of_ne_zero h
  exact ⟨BitVec.lt_of_getLsbD hbit, hbit, fun j hj => BitVec.getLsbD_false_of_lt_ctz hj⟩

/-- `-x` has the lowest bit of `x`, nothing below, and the complement above. -/
theorem getLsbD_and_neg (h : x ≠ 0#w) : (x &&& -x).getLsbD i = decide (i = x.ctz.toNat) := by
  obtain ⟨hlt, hset, hmin⟩ := ctz_spec h
  rw [BitVec.getLsbD_and, BitVec.getLsbD_neg]
  rcases Nat.lt_trichotomy i x.ctz.toNat with hi | rfl | hi
  · rw [hmin i hi, Bool.false_and, decide_eq_false (Nat.ne_of_lt hi)]
  · have hbelow : ¬∃ j < x.ctz.toNat, x.getLsbD j = true := by
      intro ⟨j, hj, hbit⟩
      exact Bool.false_ne_true ((hmin j hj).symm.trans hbit)
    rw [hset, decide_eq_false hbelow, Bool.and_false, Bool.xor_false, Bool.true_and, decide_eq_true rfl]
  · rw [decide_eq_true (⟨_, hi, hset⟩ : ∃ j < i, x.getLsbD j = true), Bool.and_true,
      decide_eq_false (Nat.ne_of_gt hi)]
    cases hbit : x.getLsbD i with
    | false => rfl
    | true =>
        rw [decide_eq_true (BitVec.lt_of_getLsbD hbit)]
        rfl

/-- Subtracting bits of the word clears them. -/
theorem sub_and_eq (x m : BitVec w) : x - (x &&& m) = x &&& ~~~(x &&& m) := by
  have hsum := and_add_and_not x (x &&& m)
  rw [← BitVec.and_assoc, BitVec.and_self] at hsum
  grind

/-- `x - (x & -x)` clears the lowest bit. -/
theorem getLsbD_sub_and_neg (h : x ≠ 0#w) :
    (x - (x &&& -x)).getLsbD i = (x.getLsbD i && decide (i ≠ x.ctz.toNat)) := by
  rw [sub_and_eq, BitVec.getLsbD_and, BitVec.getLsbD_not, getLsbD_and_neg h, decide_not]
  cases hbit : x.getLsbD i with
  | false => rfl
  | true => rw [decide_eq_true (BitVec.lt_of_getLsbD hbit), Bool.true_and]

/-! ## All bits -/

def bitPositions (x : BitVec w) : List Nat := (List.range w).filter x.getLsbD

theorem mem_bitPositions : i ∈ bitPositions x ↔ x.getLsbD i = true := by
  rw [bitPositions, List.mem_filter, List.mem_range]
  exact and_iff_right_of_imp BitVec.lt_of_getLsbD

theorem bitPositions_ascending (x : BitVec w) : (bitPositions x).Pairwise (· < ·) :=
  List.pairwise_lt_range.filter _

theorem bitPositions_zero : bitPositions 0#w = [] := by
  rw [bitPositions, List.filter_eq_nil_iff]
  intro i _
  rw [BitVec.getLsbD_zero]
  exact Bool.false_ne_true

/-- One step of the scan. -/
theorem bitPositions_eq_cons (h : x ≠ 0#w) :
    bitPositions x = x.ctz.toNat :: bitPositions (x - (x &&& -x)) := by
  obtain ⟨-, hset, hmin⟩ := ctz_spec h
  apply (bitPositions_ascending x).eq_of_mem_iff
  · refine List.pairwise_cons.mpr ⟨?_, bitPositions_ascending _⟩
    intro j hj
    rw [mem_bitPositions, getLsbD_sub_and_neg h, Bool.and_eq_true, decide_eq_true_eq] at hj
    apply Nat.lt_of_le_of_ne _ hj.2.symm
    apply Nat.le_of_not_lt
    intro hlt
    exact Bool.false_ne_true ((hmin j hlt).symm.trans hj.1)
  · intro j
    rw [List.mem_cons, mem_bitPositions, mem_bitPositions, getLsbD_sub_and_neg h, Bool.and_eq_true,
      decide_eq_true_eq]
    by_cases hj : j = x.ctz.toNat
    · rw [hj]
      exact iff_of_true hset (.inl rfl)
    · rw [or_iff_right hj, and_iff_left hj]

theorem bitPositions_eq_nil_iff : bitPositions x = [] ↔ x = 0#w := by
  constructor
  · intro h
    by_contra hx
    rw [bitPositions_eq_cons hx] at h
    cases h
  · intro h
    rw [h, bitPositions_zero]

end MmExper.Lib
