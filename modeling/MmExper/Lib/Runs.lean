import Mathlib.Order.Basic

/-!
# Runs of a state machine

A machine takes an event in a state or refuses it. A run takes events one after the other and ends at
the first one that is refused. Statements about every state of a run follow from statements about its
steps.
-/

namespace MmExper.Lib

variable {σ ε : Type*} {step : σ → ε → Option σ} {s s' : σ} {e : ε} {es es' : List ε}
  {I q q' : σ → Prop} {p p' : σ → ε → Prop}

/-- The state after the events, if all of them are taken. -/
def run (step : σ → ε → Option σ) (s : σ) : List ε → Option σ
  | [] => some s
  | e :: es => (step s e).bind fun s' => run step s' es

/-- It holds in every state of the run, the first one included. -/
def Always (step : σ → ε → Option σ) (q : σ → Prop) (s : σ) : List ε → Prop
  | [] => q s
  | e :: es => q s ∧ ∀ s', step s e = some s' → Always step q s' es

/-- It holds of every step of the run, in the state before it. -/
def EachStep (step : σ → ε → Option σ) (p : σ → ε → Prop) (s : σ) : List ε → Prop
  | [] => True
  | e :: es => ∀ s', step s e = some s' → p s e ∧ EachStep step p s' es

/-- The steps of a run are checked one by one. -/
def checkEach (step : σ → ε → Option σ) (p : σ → ε → Prop) [∀ s e, Decidable (p s e)] (s : σ) :
    List ε → Bool
  | [] => true
  | e :: es =>
    match step s e with
    | none => true
    | some s' => decide (p s e) && checkEach step p s' es

theorem EachStep.of_check [∀ s e, Decidable (p s e)] (h : checkEach step p s es = true) :
    EachStep step p s es := by
  induction es generalizing s with
  | nil => trivial
  | cons e es ih =>
      intro t ht
      simp only [checkEach, ht, Bool.and_eq_true, decide_eq_true_eq] at h
      exact ⟨h.1, ih h.2⟩

theorem Always.first (h : Always step q s es) : q s := by
  cases es with
  | nil => exact h
  | cons e es => exact h.1

/-- What always holds, holds in the last state. -/
theorem Always.last (h : Always step q s es) (hrun : run step s es = some s') : q s' := by
  induction es generalizing s with
  | nil =>
      cases hrun
      exact h
  | cons e es ih =>
      obtain ⟨t, ht, hrun⟩ := Option.bind_eq_some_iff.mp hrun
      exact ih (h.2 t ht) hrun

theorem Always.imp (h : Always step q s es) (hq : ∀ s, q s → q' s) : Always step q' s es := by
  induction es generalizing s with
  | nil => exact hq s h
  | cons e es ih => exact ⟨hq s h.1, fun t ht => ih (h.2 t ht)⟩

/-- An invariant of the steps that meet the condition holds all along a run of such steps. -/
theorem always_of_eachStep (hI : ∀ s e s', I s → p s e → step s e = some s' → I s') (h₀ : I s)
    (h : EachStep step p s es) : Always step I s es := by
  induction es generalizing s with
  | nil => exact h₀
  | cons e es ih =>
      refine ⟨h₀, fun t ht => ?_⟩
      obtain ⟨hp, hes⟩ := h t ht
      exact ih (hI s e t h₀ hp ht) hes

/-- Steps that meet one condition meet another one, if an invariant of theirs says so. -/
theorem EachStep.imp (hI : ∀ s e s', I s → p s e → step s e = some s' → I s')
    (hp : ∀ s e s', I s → p s e → step s e = some s' → p' s e) (h₀ : I s) (h : EachStep step p s es) :
    EachStep step p' s es := by
  induction es generalizing s with
  | nil => trivial
  | cons e es ih =>
      intro t ht
      obtain ⟨he, hes⟩ := h t ht
      exact ⟨hp s e t h₀ he ht, ih (hI s e t h₀ he ht) hes⟩

/-- Where the condition is exactly what a step needs to keep the property, a run keeps the property in
every state if and only if all its steps meet the condition. -/
theorem always_iff_eachStep (hI : ∀ s e s', I s → step s e = some s' → I s')
    (hq : ∀ s e s', I s → q s → step s e = some s' → (q s' ↔ p s e)) (h₀ : I s) (hq₀ : q s) :
    Always step q s es ↔ EachStep step p s es := by
  induction es generalizing s with
  | nil => exact iff_of_true hq₀ trivial
  | cons e es ih =>
      constructor
      · rintro ⟨-, h⟩ t ht
        have hqt : q t := (h t ht).first
        exact ⟨(hq s e t h₀ hq₀ ht).mp hqt, (ih (hI s e t h₀ ht) hqt).mp (h t ht)⟩
      · intro h
        refine ⟨hq₀, fun t ht => ?_⟩
        obtain ⟨hp, hes⟩ := h t ht
        have hqt : q t := (hq s e t h₀ hq₀ ht).mpr hp
        exact (ih (hI s e t h₀ ht) hqt).mpr hes

end MmExper.Lib
