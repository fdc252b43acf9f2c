import Mathlib.Data.List.Basic

/-!
# Taking and giving back

A trace of events, some of which take a thing and some of which give it back.
-/

namespace MmExper.Lib

variable {ε : Type}

/-- The thing is never given back before it was taken, and in the end it is given back as often as it was taken. -/
structure Settled (takes gives : ε → Bool) (es : List ε) : Prop where
  never_owed : ∀ pre, pre <+: es → pre.countP gives ≤ pre.countP takes
  balanced : es.countP gives = es.countP takes

variable {takes gives : ε → Bool} {es es' : List ε}

/-- A prefix ends in the first part or in the second. -/
theorem prefix_append {pre : List ε} (h : pre <+: es ++ es') : pre <+: es ∨ ∃ mid, pre = es ++ mid ∧ mid <+: es' := by
  obtain ⟨post, h⟩ := h
  rcases List.append_eq_append_iff.mp h with ⟨mid, rfl, -⟩ | ⟨mid, rfl, rfl⟩
  · exact Or.inl (List.prefix_append _ _)
  · exact Or.inr ⟨mid, rfl, List.prefix_append _ _⟩

theorem Settled.nil : Settled takes gives [] where
  never_owed pre h := by rw [List.prefix_nil.mp h]; exact Nat.le_refl _
  balanced := rfl

/-- Everything is taken before anything is given back. -/
theorem Settled.of_append (hgives : es.countP gives = 0) (htakes : es'.countP takes = 0)
    (h : es'.countP gives = es.countP takes) : Settled takes gives (es ++ es') where
  never_owed pre hpre := by
    rcases prefix_append hpre with hpre | ⟨mid, rfl, hmid⟩
    · have := hpre.sublist.countP_le (p := gives)
      omega
    · have := hmid.sublist.countP_le (p := gives)
      rw [List.countP_append, List.countP_append]
      omega
  balanced := by rw [List.countP_append, List.countP_append]; omega

/-- One trace after the other. -/
theorem Settled.append (h : Settled takes gives es) (h' : Settled takes gives es') :
    Settled takes gives (es ++ es') where
  never_owed pre hpre := by
    rcases prefix_append hpre with hpre | ⟨mid, rfl, hmid⟩
    · exact h.never_owed pre hpre
    · have hes := h.balanced
      have := h'.never_owed mid hmid
      rw [List.countP_append, List.countP_append]
      omega
  balanced := by rw [List.countP_append, List.countP_append, h.balanced, h'.balanced]

/-- Any number of traces. -/
theorem Settled.flatten {ess : List (List ε)} (h : ∀ es ∈ ess, Settled takes gives es) :
    Settled takes gives ess.flatten := by
  induction ess with
  | nil => exact Settled.nil
  | cons es ess ih =>
      obtain ⟨hes, hess⟩ := List.forall_mem_cons.mp h
      exact hes.append (ih hess)

end MmExper.Lib
