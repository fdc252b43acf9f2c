import Mathlib.Algebra.Group.End
import Mathlib.Data.List.GetD
import Mathlib.Data.List.Nodup
import Mathlib.Data.List.Perm.Subperm
import Mathlib.Logic.Equiv.Basic

/-!
# Shuffling by swaps

The shuffle that runs over an array and swaps every element with one that is not behind it. Which element
is chosen is left open: the choices are a function `c` with `c i ≤ i`. The last element of the array is
where the last choice put it, so the choices can be read off the result one by one from the end, and every
arrangement is the result of exactly one sequence of choices.
-/

namespace MmExper.Lib

/-- The arrangement after the first `n` swaps, as the function from positions to elements. -/
def shuffled (c : Nat → Nat) : Nat → Equiv.Perm Nat
  | 0 => 1
  | i + 1 => shuffled c i * Equiv.swap i (c i)

variable {c d : Nat → Nat} {n k : Nat} {σ : Equiv.Perm Nat}

theorem shuffled_succ_apply (c : Nat → Nat) (n k : Nat) :
    shuffled c (n + 1) k = shuffled c n (Equiv.swap n (c n) k) := rfl

theorem shuffled_congr (h : ∀ i < n, c i = d i) : shuffled c n = shuffled d n := by
  induction n with
  | zero => rfl
  | succ n ih =>
      rw [shuffled, shuffled, ih fun i hi => h i (Nat.lt_succ_of_lt hi), h n (Nat.lt_succ_self n)]

/-- What lies behind is left alone. -/
theorem shuffled_of_ge (hc : ∀ i < n, c i ≤ i) (hk : n ≤ k) : shuffled c n k = k := by
  induction n with
  | zero => rfl
  | succ n ih =>
      have hcn := hc n (Nat.lt_succ_self n)
      rw [shuffled_succ_apply, Equiv.swap_apply_of_ne_of_ne (by omega) (by omega),
        ih (fun i hi => hc i (Nat.lt_succ_of_lt hi)) (by omega)]

/-- The elements stay among themselves. -/
theorem shuffled_lt (hc : ∀ i < n, c i ≤ i) (hk : k < n) : shuffled c n k < n := by
  by_contra hge
  have hfix := shuffled_of_ge hc (Nat.not_lt.mp hge)
  have := (shuffled c n).injective hfix
  omega

/-- The last choice is where the last element is. -/
theorem shuffled_choice (hc : ∀ i < n + 1, c i ≤ i) : shuffled c (n + 1) (c n) = n := by
  rw [shuffled_succ_apply, Equiv.swap_apply_right]
  exact shuffled_of_ge (fun i hi => hc i (Nat.lt_succ_of_lt hi)) (Nat.le_refl n)

/-- **Different choices make different arrangements.** -/
theorem shuffled_inj (hc : ∀ i < n, c i ≤ i) (hd : ∀ i < n, d i ≤ i)
    (h : ∀ k < n, shuffled c n k = shuffled d n k) : ∀ i < n, c i = d i := by
  induction n with
  | zero => simp
  | succ n ih =>
      have hcn := hc n (Nat.lt_succ_self n)
      have hlast : c n = d n := by
        apply (shuffled d (n + 1)).injective
        rw [← h (c n) (by omega), shuffled_choice hc, shuffled_choice hd]
      have hrest := ih (fun i hi => hc i (Nat.lt_succ_of_lt hi)) (fun i hi => hd i (Nat.lt_succ_of_lt hi)) ?_
      · intro i hi
        rcases Nat.lt_succ_iff_lt_or_eq.mp hi with hi | rfl
        · exact hrest i hi
        · exact hlast
      · -- Undo the last swap, which is the same on both sides.
        intro k hk
        have hswap : Equiv.swap n (c n) k < n + 1 := by
          rw [Equiv.swap_apply_def]
          split <;> [skip; split] <;> omega
        have hk' := h _ hswap
        rw [shuffled_succ_apply, shuffled_succ_apply, ← hlast] at hk'
        simpa using hk'

/-- **Every arrangement is the result of some choices.** -/
theorem exists_shuffled (hσ : ∀ k, n ≤ k → σ k = k) : ∃ c, (∀ i < n, c i ≤ i) ∧ shuffled c n = σ := by
  induction n generalizing σ with
  | zero =>
      refine ⟨fun _ => 0, by simp, ?_⟩
      ext k
      exact (hσ k (Nat.zero_le k)).symm
  | succ n ih =>
      -- The last choice brings the last element back.
      have hle : σ.symm n ≤ n := by
        by_contra hgt
        have hfix := hσ (σ.symm n) (by omega)
        rw [Equiv.apply_symm_apply] at hfix
        omega
      have hfix : ∀ k, n ≤ k → (σ * Equiv.swap n (σ.symm n)) k = k := by
        intro k hk
        rw [Equiv.Perm.mul_apply]
        rcases Nat.lt_or_eq_of_le hk with hlt | rfl
        · rw [Equiv.swap_apply_of_ne_of_ne (by omega) (by omega), hσ k (by omega)]
        · rw [Equiv.swap_apply_left, Equiv.apply_symm_apply]
      obtain ⟨c, hc, hcσ⟩ := ih hfix
      refine ⟨fun i => if i = n then σ.symm n else c i, ?_, ?_⟩
      · intro i hi
        show (if i = n then σ.symm n else c i) ≤ i
        split
        · next he => omega
        · next he => exact hc i (by omega)
      · have hrest : shuffled (fun i => if i = n then σ.symm n else c i) n = shuffled c n := by
          apply shuffled_congr
          intro i hi
          exact if_neg (Nat.ne_of_lt hi)
        rw [shuffled, hrest, if_pos rfl, hcσ, mul_assoc, Equiv.swap_mul_self, mul_one]

/-! ## As lists -/

/-- The arrangement is one of the first `n` elements. -/
theorem shuffled_perm (hc : ∀ i < n, c i ≤ i) : ((List.range n).map (shuffled c n)).Perm (List.range n) := by
  have hnd : ((List.range n).map (shuffled c n)).Nodup :=
    List.nodup_range.map (shuffled c n).injective
  have hsub : (List.range n).map (shuffled c n) ⊆ List.range n := by
    intro x hx
    obtain ⟨k, hk, rfl⟩ := List.mem_map.mp hx
    exact List.mem_range.mpr (shuffled_lt hc (List.mem_range.mp hk))
  exact (List.subperm_of_subset hnd hsub).perm_of_length_le (by simp)

/-- An arrangement of the first `n` elements as a permutation. -/
theorem exists_perm_of_list {l : List Nat} (hl : l.Perm (List.range n)) :
    ∃ σ : Equiv.Perm Nat, (∀ k, n ≤ k → σ k = k) ∧ (List.range n).map σ = l := by
  have hlen : l.length = n := by rw [hl.length_eq, List.length_range]
  have hnd : l.Nodup := hl.nodup_iff.mpr List.nodup_range
  have hlt : ∀ k, k < n → l.getD k k < n := by
    intro k hk
    have hmem : l.getD k k ∈ l := by
      rw [List.getD_eq_getElem _ _ (by omega)]
      exact List.getElem_mem _
    exact List.mem_range.mp (hl.mem_iff.mp hmem)
  have hge : ∀ k, n ≤ k → l.getD k k = k := by
    intro k hk
    exact List.getD_eq_default _ _ (by omega)
  -- Below `n` it is a list without duplicates of the numbers below `n`, from there on the identity.
  have hbij : Function.Bijective fun k => l.getD k k := by
    constructor
    · intro j k hjk
      simp only at hjk
      rcases Nat.lt_or_ge j n with hj | hj <;> rcases Nat.lt_or_ge k n with hk | hk
      · rw [List.getD_eq_getElem _ _ (by omega), List.getD_eq_getElem _ _ (by omega)] at hjk
        exact (hnd.getElem_inj_iff).mp hjk
      · have := hlt j hj
        rw [hge k hk] at hjk
        omega
      · have := hlt k hk
        rw [hge j hj] at hjk
        omega
      · rwa [hge j hj, hge k hk] at hjk
    · intro x
      rcases Nat.lt_or_ge x n with hx | hx
      · obtain ⟨k, hk, he⟩ := List.getElem_of_mem (hl.mem_iff.mpr (List.mem_range.mpr hx))
        exact ⟨k, by simp only; rw [List.getD_eq_getElem _ _ hk, he]⟩
      · exact ⟨x, hge x hx⟩
  refine ⟨Equiv.ofBijective _ hbij, hge, ?_⟩
  apply List.ext_getElem
  · rw [List.length_map, List.length_range, hlen]
  · intro k h₁ h₂
    rw [List.getElem_map, List.getElem_range]
    exact List.getD_eq_getElem _ _ h₂

end MmExper.Lib
