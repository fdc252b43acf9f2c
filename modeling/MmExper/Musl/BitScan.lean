import MmExper.Musl.Search

/-!
# Visiting the bits of a mask

`mask_high_bits()`, `first_set()` and `clear_lowest_bit()` are the start, the element and the step of a loop over
the set bits of a word. The search in `musl_malloc()` is written with them but drops what the step returns, so the
loop is stated here for itself, with the step stored.
-/

namespace MmExper.Musl

open Bitwise Lib

/-- `for (mask = ...; mask != 0; mask = clear_lowest_bit(mask)) j = first_set(mask);`, at most this many turns: the
values of `j`, and the mask that is left. -/
def visitBits : Nat → Word → List Nat × Word
  | 0, mask => ([], mask)
  | turns + 1, mask =>
    if mask = 0#64 then ([], mask)
    else
      let j := firstSet mask
      let (js, mask) := visitBits turns (clearLowestBit mask)
      (j :: js, mask)

/-- The bits of a mask are visited from the lowest one on, and a turn too many does nothing. -/
theorem visitBits_spec (turns : Nat) (mask : Word) :
    (visitBits turns mask).1 = (bitPositions mask).take turns ∧
      ((visitBits turns mask).2 = 0#64 ↔ (bitPositions mask).length ≤ turns) := by
  induction turns generalizing mask with
  | zero =>
      refine ⟨rfl, ?_⟩
      rw [Nat.le_zero, List.length_eq_zero_iff, bitPositions_eq_nil_iff]
      rfl
  | succ turns ih =>
      by_cases hmask : mask = 0#64
      · rw [hmask, bitPositions_zero]
        exact ⟨rfl, iff_of_true rfl (Nat.zero_le _)⟩
      · obtain ⟨hvisited, hleft⟩ := ih (clearLowestBit mask)
        have hcons : bitPositions mask = firstSet mask :: bitPositions (clearLowestBit mask) :=
          bitPositions_eq_cons hmask
        rw [hcons, visitBits, if_neg hmask, List.take_succ_cons, List.length_cons, Nat.succ_le_succ_iff]
        exact ⟨congrArg _ hvisited, hleft⟩

/-- **Visiting the bits**: the helpers visit the set bits from `b` on, each once and in ascending order, and the
mask is zero after that many turns and not before. -/
theorem visit_bits_exactly (v : Word) (b : Nat) :
    (setBits v b).Pairwise (· < ·) ∧ (∀ i, i ∈ setBits v b ↔ v.getLsbD i = true ∧ b ≤ i) ∧
    ∀ turns, (visitBits turns (maskHighBits v b)).1 = (setBits v b).take turns ∧
      ((visitBits turns (maskHighBits v b)).2 = 0#64 ↔ (setBits v b).length ≤ turns) := by
  rw [setBits_eq_bitPositions]
  refine ⟨bitPositions_ascending _, ?_, fun turns => visitBits_spec turns _⟩
  intro i
  rw [mem_bitPositions, getLsbD_maskHighBits, Bool.and_eq_true, decide_eq_true_eq]

example : visitBits 5 (maskHighBits 0b1110111 3) = ([4, 5, 6], 0) := by decide +kernel

end MmExper.Musl
