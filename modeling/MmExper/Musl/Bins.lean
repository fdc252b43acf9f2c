import MmExper.Musl.Malloc

/-!
# Size classes

`bin_index` and `bin_index_up` on the sizes that occur, positive multiples of `SIZE_ALIGN`. On
those, `bin_index_up(m)` is one more than the bin of the next smaller size, so that with
`bin_index` monotone a bin from `bin_index_up(m)` on holds no chunk smaller than `m`.
-/

namespace MmExper.Musl

/-- `bin_index` as a function of the number of `SIZE_ALIGN` units, less one. -/
def binOf (x : Nat) : Nat :=
  if x ≤ 32 then x
  else if x < 512 then binTab.getD (x / 8 - 4) 0
  else if x > 7168 then 63
  else binTab.getD (x / 128 - 4) 0 + 16

theorem toNat_units {x : Word} (h : 32 ≤ x.toNat) :
    (x / sizeAlign - 1#64).toNat = x.toNat / 32 - 1 := by
  have hx := x.isLt
  rw [BitVec.toNat_sub_of_le]
  · simp
  · simp only [BitVec.le_def, sizeAlign, BitVec.toNat_udiv, BitVec.toNat_ofNat, Nat.reducePow,
      Nat.reduceMod]
    omega

theorem toNat_div_sub_four {x : Word} {k : Nat} (hk : 0 < k) (hk64 : k < 2 ^ 64)
    (h : 4 * k ≤ x.toNat) : (x / BitVec.ofNat 64 k - 4#64).toNat = x.toNat / k - 4 := by
  have hkn : (BitVec.ofNat 64 k).toNat = k :=
    Lib.toNat_ofNat_of_lt hk64
  rw [BitVec.toNat_sub_of_le]
  · simp [hkn]
  · rw [BitVec.le_def, BitVec.toNat_udiv, hkn, BitVec.toNat_ofNat]
    exact (Nat.le_div_iff_mul_le hk).mpr h

theorem binIndex_eq {x : Word} (h : 32 ≤ x.toNat) : binIndex x = binOf (x.toNat / 32 - 1) := by
  have hu := toNat_units h
  simp only [binIndex]
  set y := x / sizeAlign - 1#64 with hy
  rw [← hu, binOf]
  simp only [BitVec.le_def, BitVec.lt_def, gt_iff_lt, BitVec.toNat_ofNat, Nat.reducePow,
    Nat.reduceMod]
  by_cases h₁ : y.toNat ≤ 32
  · rw [if_pos h₁, if_pos h₁]
  rw [if_neg h₁, if_neg h₁]
  by_cases h₂ : y.toNat < 512
  · rw [if_pos h₂, if_pos h₂, toNat_div_sub_four (by omega) (by omega) (by omega)]
  rw [if_neg h₂, if_neg h₂, toNat_div_sub_four (by omega) (by omega) (by omega)]

/-- `bin_tab` is increasing, from 32 to 47. -/
theorem binTab_mono {a b : Nat} (h : a ≤ b) (hb : b < 60) :
    32 ≤ binTab.getD a 0 ∧ binTab.getD a 0 ≤ binTab.getD b 0 ∧ binTab.getD b 0 ≤ 47 := by
  have key : ∀ b < 60, ∀ a < b + 1,
      32 ≤ binTab.getD a 0 ∧ binTab.getD a 0 ≤ binTab.getD b 0 ∧ binTab.getD b 0 ≤ 47 := by
    decide +kernel
  exact key b hb a (by omega)

/-- The four ranges of `bin_index`; both lookups are inside the table. -/
theorem binOf_cases (x : Nat) :
    x ≤ 32 ∧ binOf x = x ∨
    (32 < x ∧ x < 512) ∧ x / 8 - 4 < 60 ∧ binOf x = binTab.getD (x / 8 - 4) 0 ∨
    (512 ≤ x ∧ x ≤ 7168) ∧ x / 128 - 4 < 60 ∧ binOf x = binTab.getD (x / 128 - 4) 0 + 16 ∨
    7168 < x ∧ binOf x = 63 := by
  unfold binOf
  by_cases h₁ : x ≤ 32
  · simp [h₁]
  by_cases h₂ : x < 512
  · simp [h₁, h₂]
    omega
  by_cases h₃ : x ≤ 7168
  · simp [h₁, h₂, h₃]
    omega
  · simp [h₁, h₂]
    omega

/-- Larger sizes go to later bins. -/
theorem binOf_mono {x y : Nat} (h : x ≤ y) : binOf x ≤ binOf y := by
  have tab : ∀ a b, a ≤ b → b < 60 → _ := fun a b => @binTab_mono a b
  rcases binOf_cases x with ⟨hx, ex⟩ | ⟨hx, hx', ex⟩ | ⟨hx, hx', ex⟩ | ⟨hx, ex⟩ <;>
    rcases binOf_cases y with ⟨hy, ey⟩ | ⟨hy, hy', ey⟩ | ⟨hy, hy', ey⟩ | ⟨hy, ey⟩ <;>
    rw [ex, ey]
  all_goals first
    | omega
    | have := tab _ _ (Nat.sub_le_sub_right (Nat.div_le_div_right (c := 8) h) 4) hy'; omega
    | have := tab _ _ (Nat.sub_le_sub_right (Nat.div_le_div_right (c := 128) h) 4) hy'; omega
    | have := tab _ _ le_rfl hx'; have := tab _ _ le_rfl hy'; omega
    | have := tab _ _ le_rfl hx'; omega

theorem binOf_lt (x : Nat) : binOf x < 64 := by
  rcases binOf_cases x with ⟨hx, ex⟩ | ⟨hx, hx', ex⟩ | ⟨hx, hx', ex⟩ | ⟨hx, ex⟩ <;> rw [ex]
  · omega
  · have := binTab_mono le_rfl hx'
    omega
  · have := binTab_mono le_rfl hx'
    omega
  · omega

theorem binIndex_lt {x : Word} (h : 32 ≤ x.toNat) : binIndex x < 64 := by
  rw [binIndex_eq h]
  exact binOf_lt _

/-- `bin_index_up` is one more than the bin of the next smaller size. -/
theorem binIndexUp_eq {x : Word} (h : 32 ≤ x.toNat) (hmax : x.toNat ≤ 229376) :
    binIndexUp x = if x.toNat / 32 = 1 then 0 else binOf (x.toNat / 32 - 2) + 1 := by
  have hu := toNat_units h
  simp only [binIndexUp]
  set y := x / sizeAlign - 1#64 with hy
  simp only [BitVec.le_def, BitVec.lt_def, BitVec.toNat_ofNat, Nat.reducePow, Nat.reduceMod]
  by_cases h₁ : y.toNat ≤ 32
  · rw [if_pos h₁]
    split
    · omega
    · rw [binOf, if_pos (by omega)]
      omega
  have hy1 : (y - 1#64).toNat = x.toNat / 32 - 2 := by
    rw [BitVec.toNat_sub_of_le (by simp only [BitVec.le_def, BitVec.toNat_ofNat]; omega)]
    simp only [BitVec.toNat_ofNat]
    omega
  rw [if_neg h₁, if_neg (show ¬x.toNat / 32 = 1 by omega), hy1]
  set z := x.toNat / 32 - 2 with hz
  by_cases h₂ : z < 512
  · rw [if_pos h₂, toNat_div_sub_four (by omega) (by omega) (by omega), hy1]
    rcases binOf_cases z with ⟨hx, ex⟩ | ⟨hx, hx', ex⟩ | ⟨hx, hx', ex⟩ | ⟨hx, ex⟩
    · -- The first size past the exact classes.
      have : z = 32 := by omega
      rw [this]
      decide
    · rw [ex]
    · omega
    · omega
  · rw [if_neg h₂, toNat_div_sub_four (by omega) (by omega) (by omega), hy1]
    rcases binOf_cases z with ⟨hx, ex⟩ | ⟨hx, hx', ex⟩ | ⟨hx, hx', ex⟩ | ⟨hx, ex⟩
    · omega
    · omega
    · rw [ex]
    · omega

theorem binIndexUp_lt {x : Word} (h : 32 ≤ x.toNat) (hmax : x.toNat ≤ 229376) :
    binIndexUp x < 64 := by
  rw [binIndexUp_eq h hmax]
  split
  · omega
  · have hmono : binOf (x.toNat / 32 - 2) ≤ binOf 7166 := binOf_mono (by omega)
    have htop : binOf 7166 = 62 := by decide +kernel
    omega

/-- **A bin found by the search holds chunks that are large enough.** -/
theorem le_of_binIndexUp_le {m c : Word} (hm : 32 ≤ m.toNat) (hmax : m.toNat ≤ 229376)
    (hmal : m.toNat % 32 = 0) (hc : 32 ≤ c.toNat) (hcal : c.toNat % 32 = 0)
    (h : binIndexUp m ≤ binIndex c) : m.toNat ≤ c.toNat := by
  rw [binIndexUp_eq hm hmax, binIndex_eq hc] at h
  by_contra hlt
  have hmono : binOf (c.toNat / 32 - 1) ≤ binOf (m.toNat / 32 - 2) := binOf_mono (by omega)
  split at h
  · omega
  · omega

end MmExper.Musl
