import MmExper.Musl.Bins
import Mathlib.Order.Bounds.Basic

/-!
# Size classes are sound and tight

What the two lookups are for, as a statement about every chunk size and every request. `bin_index`
puts a chunk into one of 64 classes, in the order of sizes; `bin_index_up` finds the first class all
of whose chunks are large enough for a request.
-/

namespace MmExper.Musl

variable {s t m : Word} {i x : Nat}

/-- A size that a chunk can have: a positive multiple of `SIZE_ALIGN` up to `SIZE_MAX/2`. -/
structure ChunkSize (s : Word) : Prop where
  pos : 0#64 < s
  granular : s % sizeAlign = 0#64
  le : s ≤ sizeMax / 2#64

structure Request (m : Word) : Prop where
  ge : sizeAlign ≤ m
  granular : m % sizeAlign = 0#64
  le : m ≤ mmapThreshold

/-- `bin_index()` with no answer where it would read past the end of `bin_tab`. -/
def binIndexChecked (x : Word) : Option Nat :=
  let x := x / sizeAlign - 1#64
  if x ≤ 32#64 then some x.toNat
  else if x < 512#64 then binTab[(x / 8#64 - 4#64).toNat]?
  else if x > 0x1c00#64 then some 63
  else binTab[(x / 128#64 - 4#64).toNat]?.map (· + 16)

/-- `bin_index_up()` with no answer where it would read past the end of `bin_tab`. -/
def binIndexUpChecked (x : Word) : Option Nat :=
  let x := x / sizeAlign - 1#64
  if x ≤ 32#64 then some x.toNat
  else
    let x := x - 1#64
    if x < 512#64 then binTab[(x / 8#64 - 4#64).toNat]?.map (· + 1)
    else binTab[(x / 128#64 - 4#64).toNat]?.map (· + 17)

/-! ## Sizes as numbers

What the two kinds of sizes mean once no word wraps. -/

theorem granular_iff : s % sizeAlign = 0#64 ↔ s.toNat % 32 = 0 := by
  rw [← BitVec.toNat_inj, BitVec.toNat_umod]
  exact Iff.rfl

theorem chunkSize_iff : ChunkSize s ↔ 32 ≤ s.toNat ∧ s.toNat % 32 = 0 ∧ s.toNat < 2 ^ 63 := by
  have hmax : (sizeMax / 2#64).toNat = 2 ^ 63 - 1 := by decide
  constructor
  · rintro ⟨h₁, h₂, h₃⟩
    rw [granular_iff] at h₂
    rw [BitVec.lt_def, BitVec.toNat_ofNat] at h₁
    rw [BitVec.le_def, hmax] at h₃
    omega
  · rintro ⟨h₁, h₂, h₃⟩
    refine ⟨?_, granular_iff.mpr h₂, ?_⟩
    · rw [BitVec.lt_def, BitVec.toNat_ofNat]
      omega
    · rw [BitVec.le_def, hmax]
      omega

theorem request_iff : Request m ↔ 32 ≤ m.toNat ∧ m.toNat % 32 = 0 ∧ m.toNat ≤ 229376 := by
  have h₁ : sizeAlign.toNat = 32 := rfl
  have h₂ : mmapThreshold.toNat = 229376 := rfl
  constructor
  · rintro ⟨h₃, h₄, h₅⟩
    rw [granular_iff] at h₄
    rw [BitVec.le_def] at h₃ h₅
    omega
  · rintro ⟨h₃, h₄, h₅⟩
    refine ⟨?_, granular_iff.mpr h₄, ?_⟩
    · rw [BitVec.le_def]
      omega
    · rw [BitVec.le_def]
      omega

/-! ## Lookups

The table has 60 entries. No lookup of either function goes past them. -/

theorem binTab_get {k : Nat} (h : k < 60) : binTab[k]? = some (binTab.getD k 0) := by
  have hlen : k < binTab.length := h
  rw [List.getD_eq_getElem?_getD, List.getElem?_eq_getElem hlen, Option.getD_some]

/-- Every lookup of `bin_index()` is inside the table. -/
theorem binIndexChecked_eq (h : 32 ≤ s.toNat) : binIndexChecked s = some (binIndex s) := by
  have hu := toNat_units h
  simp only [binIndexChecked, binIndex]
  set y := s / sizeAlign - 1#64
  simp only [BitVec.le_def, BitVec.lt_def, gt_iff_lt, BitVec.toNat_ofNat, Nat.reducePow, Nat.reduceMod]
  by_cases h₁ : y.toNat ≤ 32
  · rw [if_pos h₁, if_pos h₁]
  rw [if_neg h₁, if_neg h₁]
  by_cases h₂ : y.toNat < 512
  · rw [if_pos h₂, if_pos h₂, binTab_get]
    rw [toNat_div_sub_four (by omega) (by omega) (by omega)]
    omega
  rw [if_neg h₂, if_neg h₂]
  by_cases h₃ : 7168 < y.toNat
  · rw [if_pos h₃, if_pos h₃]
  · rw [if_neg h₃, if_neg h₃, binTab_get]
    · rfl
    · rw [toNat_div_sub_four (by omega) (by omega) (by omega)]
      omega

/-- So is every lookup of `bin_index_up()`, for a request that goes to the bins. -/
theorem binIndexUpChecked_eq (h : 32 ≤ m.toNat) (hmax : m.toNat ≤ 229376) :
    binIndexUpChecked m = some (binIndexUp m) := by
  have hu := toNat_units h
  simp only [binIndexUpChecked, binIndexUp]
  set y := m / sizeAlign - 1#64
  simp only [BitVec.le_def, BitVec.lt_def, BitVec.toNat_ofNat, Nat.reducePow, Nat.reduceMod]
  by_cases h₁ : y.toNat ≤ 32
  · rw [if_pos h₁, if_pos h₁]
  have hpred : (y - 1#64).toNat = y.toNat - 1 := by
    rw [BitVec.toNat_sub_of_le (by simp only [BitVec.le_def, BitVec.toNat_ofNat]; omega)]
    rfl
  rw [if_neg h₁, if_neg h₁]
  by_cases h₂ : (y - 1#64).toNat < 512
  · rw [if_pos h₂, if_pos h₂, binTab_get]
    · rfl
    · rw [toNat_div_sub_four (by omega) (by omega) (by omega)]
      omega
  · rw [if_neg h₂, if_neg h₂, binTab_get]
    · rfl
    · rw [toNat_div_sub_four (by omega) (by omega) (by omega)]
      omega

/-! ## Classes

A class is an interval of sizes, and every one of the 64 has a size in it: so the order of classes
is the order of sizes, and a request's class is the first that is good for it. -/

/-- No class is empty. -/
theorem binOf_surjective (h : i < 64) : ∃ x ≤ 7168, binOf x = i := by
  -- The smallest size of each class, from the first place of its number in the table.
  have key : ∀ i < 64, binOf (if i ≤ 32 then i else if i < 48 then 8 * (binTab.idxOf i + 4)
      else 128 * (binTab.idxOf (i - 16) + 4)) = i ∧ (if i ≤ 32 then i else if i < 48 then
      8 * (binTab.idxOf i + 4) else 128 * (binTab.idxOf (i - 16) + 4)) ≤ 7168 := by
    decide +kernel
  exact ⟨_, (key i h).2, (key i h).1⟩

/-- The chunk of `x + 1` units. -/
theorem chunkSize_units (h : x ≤ 7168) : ∃ s, ChunkSize s ∧ s.toNat = 32 * (x + 1) ∧ binIndex s = binOf x := by
  have hs : (BitVec.ofNat 64 (32 * (x + 1))).toNat = 32 * (x + 1) :=
    Lib.toNat_ofNat_of_lt (by omega)
  refine ⟨BitVec.ofNat 64 (32 * (x + 1)), chunkSize_iff.mpr ?_, hs, ?_⟩
  · rw [hs]
    omega
  · rw [binIndex_eq (by omega), hs, Nat.mul_div_cancel_left _ (by decide), Nat.add_sub_cancel]

theorem binIndex_mono (hs : ChunkSize s) (ht : ChunkSize t) (h : s ≤ t) : binIndex s ≤ binIndex t := by
  obtain ⟨h₁, -, -⟩ := chunkSize_iff.mp hs
  obtain ⟨h₂, -, -⟩ := chunkSize_iff.mp ht
  rw [BitVec.le_def] at h
  rw [binIndex_eq h₁, binIndex_eq h₂]
  exact binOf_mono (by omega)

/-- A class from `bin_index_up(m)` on has no chunk that is too small. -/
theorem le_of_class (hs : ChunkSize s) (hm : Request m) (h : binIndexUp m ≤ binIndex s) : m ≤ s := by
  obtain ⟨h₁, h₂, -⟩ := chunkSize_iff.mp hs
  obtain ⟨h₃, h₄, h₅⟩ := request_iff.mp hm
  rw [BitVec.le_def]
  exact le_of_binIndexUp_le h₃ h₅ h₄ h₁ h₂ h

/-- Every class before it has one. -/
theorem exists_lt_of_class (hm : Request m) (h : i < binIndexUp m) :
    ∃ s, ChunkSize s ∧ binIndex s = i ∧ s < m := by
  obtain ⟨h₁, h₂, h₃⟩ := request_iff.mp hm
  have hlt := binIndexUp_lt h₁ h₃
  rw [binIndexUp_eq h₁ h₃] at h hlt
  split at h
  · omega
  · next hne =>
    rw [if_neg hne] at hlt
    -- The next smaller size is in the class before the request's, and classes are in order.
    obtain ⟨x, hx, hxi, hxm⟩ : ∃ x, x ≤ 7168 ∧ binOf x = i ∧ x ≤ m.toNat / 32 - 2 := by
      rcases Nat.lt_or_eq_of_le (Nat.le_of_lt_succ h) with hi | hi
      · obtain ⟨x, hx, hxi⟩ := binOf_surjective (i := i) (by omega)
        refine ⟨x, hx, hxi, ?_⟩
        by_contra hcon
        have := binOf_mono (Nat.le_of_lt (Nat.not_le.mp hcon))
        omega
      · exact ⟨m.toNat / 32 - 2, by omega, hi.symm, Nat.le_refl _⟩
    obtain ⟨s, hs, hsx, hsi⟩ := chunkSize_units hx
    refine ⟨s, hs, hsi.trans hxi, ?_⟩
    rw [BitVec.lt_def, hsx]
    omega

/-- **Size classes are sound and tight.** -/
theorem size_classes :
    (∀ s, ChunkSize s → binIndexChecked s = some (binIndex s) ∧ binIndex s < 64) ∧
    (∀ m, Request m → binIndexUpChecked m = some (binIndexUp m) ∧ binIndexUp m < 64) ∧
    binTab.length = 60 ∧
    (∀ s t, ChunkSize s → ChunkSize t → s ≤ t → binIndex s ≤ binIndex t) ∧
    (∀ s m, ChunkSize s → Request m → binIndexUp m ≤ binIndex s → m ≤ s) ∧
    ∀ m, Request m → IsLeast {i | i < 64 ∧ ∀ s, ChunkSize s → binIndex s = i → m ≤ s} (binIndexUp m) := by
  refine ⟨?_, ?_, rfl, ?_, ?_, ?_⟩
  · intro s hs
    obtain ⟨h, -, -⟩ := chunkSize_iff.mp hs
    exact ⟨binIndexChecked_eq h, binIndex_lt h⟩
  · intro m hm
    obtain ⟨h₁, -, h₂⟩ := request_iff.mp hm
    exact ⟨binIndexUpChecked_eq h₁ h₂, binIndexUp_lt h₁ h₂⟩
  · intro s t hs ht h
    exact binIndex_mono hs ht h
  · intro s m hs hm h
    exact le_of_class hs hm h
  · intro m hm
    obtain ⟨h₁, -, h₂⟩ := request_iff.mp hm
    refine ⟨⟨binIndexUp_lt h₁ h₂, fun s hs h => le_of_class hs hm (Nat.le_of_eq h.symm)⟩, ?_⟩
    rintro i ⟨-, hi⟩
    by_contra hlt
    obtain ⟨s, hs, hsi, hsm⟩ := exists_lt_of_class hm (Nat.not_le.mp hlt)
    have := hi s hs hsi
    rw [BitVec.lt_def] at hsm
    rw [BitVec.le_def] at this
    omega

/-- A request of 34 units and the chunks of 33 to 40 and of 41 units. -/
theorem size_classes_example :
    IsLeast {i | i < 64 ∧ ∀ s, ChunkSize s → binIndex s = i → 1088#64 ≤ s} 33 ∧
      binIndex 1056#64 = 32 ∧ binIndex 1280#64 = 32 ∧ binIndex 1312#64 = 33 :=
  ⟨size_classes.2.2.2.2.2 1088#64 ⟨by decide, by decide, by decide⟩, by decide, by decide, by decide⟩

end MmExper.Musl
