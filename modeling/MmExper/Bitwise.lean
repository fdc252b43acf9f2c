import MmExper.Lib.Align
import MmExper.Lib.Bits

/-!
# `include/bitwise.h`

The 64-bit helpers the allocator is written with. Bit positions are `Nat`: every caller passes an
`int` between 0 and 63.
-/

namespace MmExper

/-- A `uint64_t`, a `size_t` or a `uintptr_t`. -/
abbrev Word := BitVec 64

namespace Bitwise

/-- `align64()`: align `value` down to the power of two `align_to`. -/
def align64 (value alignTo : Word) : Word := value &&& ~~~(alignTo - 1#64)

/-- `align64_up()` with `ALIGN_UP_IMPL_1`, which is not built. -/
def align64UpImpl1 (value alignTo : Word) : Word := align64 (value + alignTo - 1#64) alignTo

/-- `align64_up()` as built, `ALIGN_UP_IMPL_2`. -/
def align64Up (value alignTo : Word) : Word := value + (-value &&& (alignTo - 1#64))

def isBitSet (value : Word) (bit : Nat) : Bool := value &&& (1#64 <<< bit) != 0#64

/-- `mask_high_bits()`: keep the bits from `bit` on. -/
def maskHighBits (value : Word) (bit : Nat) : Word := value &&& -(1#64 <<< bit)

/-- `clear_lowest_bit()`: it returns the new value and changes nothing in place. -/
def clearLowestBit (value : Word) : Word :=
  let lowestBitOnly := value &&& -value
  value - lowestBitOnly

def shareHighestBit (a b : Word) : Bool := a ^^^ b ≤ b

/-! ## The helpers as arithmetic and as bits -/

variable {v a : Word} {k : Nat}

theorem toNat_align64 (h : a.toNat = 2 ^ k) :
    (align64 v a).toNat = v.toNat - v.toNat % 2 ^ k :=
  Lib.toNat_and_not_sub_one h

theorem toNat_align64Up (h : a.toNat = 2 ^ k) :
    (align64Up v a).toNat = (v.toNat + (2 ^ k - v.toNat % 2 ^ k) % 2 ^ k) % 2 ^ 64 := by
  rw [align64Up, BitVec.toNat_add, Lib.toNat_neg_and_sub_one h]

theorem getLsbD_one_shiftLeft (bit i : Nat) :
    (1#64 <<< bit).getLsbD i = decide (i < 64 ∧ i = bit) := by
  rw [← BitVec.twoPow_eq, BitVec.getLsbD_twoPow, ← Bool.decide_and]
  exact decide_eq_decide.mpr ⟨fun ⟨hlt, e⟩ => ⟨e ▸ hlt, e.symm⟩, fun ⟨hlt, e⟩ => ⟨e ▸ hlt, e.symm⟩⟩

theorem isBitSet_eq_getLsbD (bit : Nat) : isBitSet v bit = v.getLsbD bit := by
  rw [isBitSet, Lib.and_bit]
  cases hbit : v.getLsbD bit with
  | true => simpa using Lib.bit_ne_zero (BitVec.lt_of_getLsbD hbit)
  | false => rfl

/-- `mask_high_bits()` keeps exactly the bits at `bit` and above. -/
theorem getLsbD_maskHighBits (bit i : Nat) :
    (maskHighBits v bit).getLsbD i = (v.getLsbD i && decide (bit ≤ i)) := by
  rw [maskHighBits, BitVec.getLsbD_and]
  by_cases hi : i < 64
  · have hneg : (-(1#64 <<< bit)).getLsbD i = decide (bit ≤ i) := by
      simp only [BitVec.getLsbD_neg, getLsbD_one_shiftLeft]
      by_cases hb : i = bit
      · subst hb
        have : ¬∃ j < i, j < 64 ∧ j = i := by omega
        simp [hi, this]
      · by_cases hlt : bit < i
        · have : ∃ j < i, j < 64 ∧ j = bit := ⟨bit, hlt, by omega, rfl⟩
          simp [hi, hb, this]
          omega
        · have : ¬∃ j < i, j < 64 ∧ j = bit := by omega
          simp [hb, this]
          omega
    rw [hneg]
  · simp [BitVec.getLsbD_of_ge v i (by omega)]

/-! ## The two versions of `align64_up()` -/

/-- **Rounding up**: the versions agree on every word, also where the sum of the first one wraps. The result is
the least multiple, or zero if that is `2 ^ 64`. -/
theorem align64_up_versions_agree {value alignTo : Word} (h : ∃ k, alignTo.toNat = 2 ^ k) :
    align64UpImpl1 value alignTo = align64Up value alignTo ∧
    (∃ m, IsLeast (Lib.multiplesFrom alignTo.toNat value.toNat) m ∧
      (align64Up value alignTo).toNat = if m < 2 ^ 64 then m else 0) ∧
    (alignTo.toNat ∣ value.toNat → align64Up value alignTo = value) := by
  obtain ⟨k, hk⟩ := h
  have hup : (align64Up value alignTo).toNat = 2 ^ k * (value.toNat ⌈/⌉ 2 ^ k) % 2 ^ 64 :=
    Lib.toNat_add_neg_and_sub_one hk
  have hleast := Lib.isLeast_mul_ceilDiv (n := value.toNat) (Nat.two_pow_pos k)
  have hdvd : 2 ^ k ∣ 2 ^ 64 := Lib.two_pow_dvd_of_toNat hk
  rw [hk]
  refine ⟨?_, ⟨_, hleast, ?_⟩, ?_⟩
  · apply BitVec.eq_of_toNat_eq
    rw [hup]
    exact Lib.toNat_add_sub_one_and_not hk
  · rw [hup]
    exact Lib.mod_of_isLeast hleast hdvd (Nat.le_of_lt value.isLt)
  · intro haligned
    apply BitVec.eq_of_toNat_eq
    rw [hup, hleast.unique (Lib.isLeast_of_dvd haligned)]
    exact Nat.mod_eq_of_lt value.isLt

/-- One page, for a word in the last page, where the result is zero. -/
theorem align64_up_versions_agree_last_page :
    align64UpImpl1 (-1#64) 4096#64 = align64Up (-1#64) 4096#64 ∧ align64Up (-1#64) 4096#64 = 0#64 :=
  ⟨(align64_up_versions_agree ⟨12, rfl⟩).1, rfl⟩

/-! ## The highest bit

The condition of the source is true also of some pairs whose highest bits differ. -/

/-- What the comments of `share_highest_bit()` say: the highest bits are at the same position, and it "should be
equivalent to <= a also". -/
def SharesAsDocumented (a b : Word) : Prop :=
  (shareHighestBit a b = true ↔ Lib.highestBit a = Lib.highestBit b) ∧
    (shareHighestBit a b = true ↔ a ^^^ b ≤ a)

/-- **Shared highest bits**: the comments are right unless the highest bits are at two positions and one of them
is set in the other word. -/
theorem share_highest_bit_documented_iff {a b : Word} (ha : a ≠ 0) (hb : b ≠ 0) :
    SharesAsDocumented a b ↔
      Lib.highestBit a = Lib.highestBit b ∨
        b.getLsbD a.toNat.log2 = false ∧ a.getLsbD b.toNat.log2 = false := by
  simp only [SharesAsDocumented, shareHighestBit, decide_eq_true_eq]
  exact Lib.xor_le_exact_iff ha hb

/-- The pairs of the comment. -/
theorem share_highest_bit_documented_examples :
    SharesAsDocumented 0b1100 0b1000 ∧ SharesAsDocumented 0b0100 0b1000 :=
  ⟨(share_highest_bit_documented_iff (by decide) (by decide)).mpr (.inl (by decide)),
    (share_highest_bit_documented_iff (by decide) (by decide)).mpr (.inr (by decide))⟩

/-- The first comparison finds a bit below the highest one, and so does the second one after the words change
places. -/
theorem share_highest_bit_undocumented :
    ¬SharesAsDocumented 0b0100 0b1100 ∧ ¬SharesAsDocumented 0b1100 0b0100 := by
  constructor
  · intro ⟨h, _⟩
    exact absurd h (by decide)
  · intro ⟨_, h⟩
    exact absurd h (by decide)

end Bitwise

end MmExper
