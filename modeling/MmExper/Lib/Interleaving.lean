import Mathlib.Data.List.Basic
import Mathlib.Data.List.Count
import Mathlib.Logic.Function.Iterate

/-!
# Components that step on their own

A state with one part for every component, and a schedule that says who steps next. If a step reads and
writes the part of its component only, what a component has come to depends on how often it was scheduled,
not on the others.
-/

namespace MmExper.Lib

variable {ι : Type*} {σ : ι → Type*} [DecidableEq ι] {f : ∀ i, σ i → σ i} {s : ∀ i, σ i} {is js : List ι}

def stepAt (f : ∀ i, σ i → σ i) (s : ∀ i, σ i) (i : ι) : ∀ i, σ i := Function.update s i (f i (s i))

theorem stepAt_self (f : ∀ i, σ i → σ i) (s : ∀ i, σ i) (i : ι) : stepAt f s i i = f i (s i) :=
  Function.update_self i (f i (s i)) s

theorem stepAt_of_ne {i j : ι} (h : j ≠ i) : stepAt f s i j = s j := Function.update_of_ne h (f i (s i)) s

/-- Every component has taken as many steps as it stands in the schedule. -/
theorem foldl_stepAt (f : ∀ i, σ i → σ i) (is : List ι) (s : ∀ i, σ i) (i : ι) :
    is.foldl (stepAt f) s i = (f i)^[is.count i] (s i) := by
  induction is generalizing s with
  | nil => rfl
  | cons j is ih =>
      rw [List.foldl_cons, ih]
      by_cases h : j = i
      · subst h
        rw [stepAt_self, List.count_cons_self, Function.iterate_succ_apply]
      · rw [stepAt_of_ne (Ne.symm h), List.count_cons_of_ne h]

/-- The order of the schedule does not matter. -/
theorem foldl_stepAt_perm (h : is.Perm js) : is.foldl (stepAt f) s = js.foldl (stepAt f) s := by
  funext i
  rw [foldl_stepAt, foldl_stepAt, h.count_eq]

end MmExper.Lib
