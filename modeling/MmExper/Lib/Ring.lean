import Mathlib.Data.List.Nodup

/-!
# Circular doubly linked lists

A list threaded through its own nodes: every node names a successor `nx` and a predecessor `pv`,
and a sentinel closes the circle. Nothing is said about where the two links are stored, so `nx` and
`pv` are plain functions and an update of the list is a pair of new functions that agree with the
old ones on all but a few nodes.

`Path` is the open segment between two nodes and carries the inductions. `Path.retarget` changes
the far end of a segment, which is all that taking a node out (`Ring.remove`) or putting one in at
the tail (`Ring.append`) does to the rest of the list.
-/

namespace MmExper.Lib

variable {α : Type*}

/-- Following `nx` from `a` visits exactly `xs` and arrives at `z`; `pv` leads the same way back. -/
def Path (nx pv : α → α) : α → List α → α → Prop
  | a, [], z => nx a = z ∧ pv z = a
  | a, x :: xs, z => nx a = x ∧ pv x = a ∧ Path nx pv x xs z

/-- The circular list with sentinel `s` and members `xs`, in `nx` order. -/
structure Ring (nx pv : α → α) (s : α) (xs : List α) : Prop where
  path : Path nx pv s xs s
  nodup : (s :: xs).Nodup

section Path

variable {nx pv nx' pv' : α → α} {a c z n : α} {xs ys : List α}

theorem path_append : Path nx pv a (xs ++ c :: ys) z ↔ Path nx pv a xs c ∧ Path nx pv c ys z := by
  induction xs generalizing a with
  | nil => simp only [List.nil_append, Path, and_assoc]
  | cons x xs ih => simp only [List.cons_append, Path, ih, and_assoc]

/-- A segment reads `nx` from its start on and `pv` up to its end, and nothing else. -/
theorem Path.congr (h : Path nx pv a xs z) (hnx : ∀ x ∈ a :: xs, nx' x = nx x)
    (hpv : ∀ x ∈ xs ++ [z], pv' x = pv x) : Path nx' pv' a xs z := by
  induction xs generalizing a with
  | nil =>
      obtain ⟨h₁, h₂⟩ := h
      exact ⟨by rw [hnx a (by simp), h₁], by rw [hpv z (by simp), h₂]⟩
  | cons x xs ih =>
      obtain ⟨h₁, h₂, h₃⟩ := h
      refine ⟨by rw [hnx a (by simp), h₁], by rw [hpv x (by simp), h₂], ih h₃ ?_ ?_⟩
      · intro y hy
        exact hnx y (List.mem_cons_of_mem _ hy)
      · intro y hy
        exact hpv y (List.mem_cons_of_mem _ hy)

/-- The predecessor of the end of a segment is one of its nodes. -/
theorem Path.pv_mem (h : Path nx pv a xs z) : pv z ∈ a :: xs := by
  induction xs generalizing a with
  | nil => simp [h.2]
  | cons x xs ih => exact List.mem_cons_of_mem _ (ih h.2.2)

/-- The successor of the start of a segment is one of its nodes, or the end. -/
theorem Path.nx_mem (h : Path nx pv a xs z) : nx a ∈ xs ++ [z] := by
  cases xs with
  | nil => simp [h.1]
  | cons x xs => simp [h.1]

/-- **Moving the far end.** A segment that ended at `z` ends at `n` once its last node points at
`n` and `n` points back; the other links stay. -/
theorem Path.retarget (h : Path nx pv a xs z) (hnd : (a :: xs).Nodup)
    (hnx : ∀ x ∈ a :: xs, x ≠ pv z → nx' x = nx x) (hpv : ∀ x ∈ xs, pv' x = pv x)
    (hlast : nx' (pv z) = n) (hback : pv' n = pv z) : Path nx' pv' a xs n := by
  induction xs generalizing a with
  | nil =>
      obtain ⟨_, h₂⟩ := h
      rw [h₂] at hlast hback
      exact ⟨hlast, hback⟩
  | cons x xs ih =>
      obtain ⟨h₁, h₂, h₃⟩ := h
      rw [List.nodup_cons] at hnd
      -- The node before the end lies in the tail, so it is not `a`.
      have ha : a ≠ pv z := by
        intro e
        exact hnd.1 (e ▸ h₃.pv_mem)
      refine ⟨by rw [hnx a (by simp) ha, h₁], by rw [hpv x (by simp), h₂], ih h₃ hnd.2 ?_ ?_⟩
      · intro y hy hne
        exact hnx y (List.mem_cons_of_mem _ hy) hne
      · intro y hy
        exact hpv y (List.mem_cons_of_mem _ hy)

/-- A segment that does not pass its end is determined by the links. -/
theorem Path.unique (h : Path nx pv a xs z) (h' : Path nx pv a ys z) (hx : z ∉ xs) (hy : z ∉ ys) :
    xs = ys := by
  induction xs generalizing a ys with
  | nil =>
      cases ys with
      | nil => rfl
      | cons y ys =>
          obtain ⟨h₁, -⟩ := h
          obtain ⟨h₂, -, -⟩ := h'
          exact absurd (h₁.symm.trans h₂) (List.ne_of_not_mem_cons hy)
  | cons x xs ih =>
      cases ys with
      | nil =>
          obtain ⟨h₁, -, -⟩ := h
          obtain ⟨h₂, -⟩ := h'
          exact absurd (h₂.symm.trans h₁) (List.ne_of_not_mem_cons hx)
      | cons y ys =>
          obtain ⟨h₁, -, h₃⟩ := h
          obtain ⟨h₄, -, h₅⟩ := h'
          have hxy : x = y := h₁.symm.trans h₄
          subst hxy
          rw [ih h₃ h₅ (fun hm => hx (List.mem_cons_of_mem _ hm))
            fun hm => hy (List.mem_cons_of_mem _ hm)]

end Path

namespace Ring

variable {nx pv nx' pv' : α → α} {s c : α} {xs ys : List α}

/-- A sentinel that points at itself is an empty list. -/
theorem nil (h₁ : nx s = s) (h₂ : pv s = s) : Ring nx pv s [] :=
  ⟨⟨h₁, h₂⟩, by simp⟩

/-- The links hold one list only. -/
theorem unique (h : Ring nx pv s xs) (h' : Ring nx pv s ys) : xs = ys :=
  h.path.unique h'.path (List.nodup_cons.mp h.nodup).1 (List.nodup_cons.mp h'.nodup).1

theorem congr (h : Ring nx pv s xs) (hl : ∀ x ∈ s :: xs, nx' x = nx x ∧ pv' x = pv x) :
    Ring nx' pv' s xs := by
  refine ⟨h.path.congr (fun x hx => (hl x hx).1) (fun x hx => (hl x ?_).2), h.nodup⟩
  simpa [or_comm] using hx

/-- The head pointer of a non-empty list is its first member. -/
theorem nx_sentinel (h : Ring nx pv s (c :: xs)) : nx s = c := h.path.1

/-- The tail pointer is the sentinel exactly when the list is empty. -/
theorem pv_eq_sentinel_iff (h : Ring nx pv s xs) : pv s = s ↔ xs = [] := by
  cases xs with
  | nil => simpa using h.path.2
  | cons x xs =>
      have hmem : pv s ∈ x :: xs := h.path.2.2.pv_mem
      have hs : s ∉ x :: xs := (List.nodup_cons.mp h.nodup).1
      simp only [reduceCtorEq, iff_false]
      intro e
      exact hs (e ▸ hmem)

section Remove

variable (h : Ring nx pv s (xs ++ c :: ys))
include h

theorem pv_mem : pv c ∈ s :: xs := (path_append.mp h.path).1.pv_mem

theorem nx_mem : nx c ∈ ys ++ [s] := (path_append.mp h.path).2.nx_mem

theorem pv_ne : pv c ≠ c := by
  intro e
  have hmem := h.pv_mem
  rw [e] at hmem
  have hnd := h.nodup
  grind

theorem nx_ne : nx c ≠ c := by
  intro e
  have hmem := h.nx_mem
  rw [e] at hmem
  have hnd := h.nodup
  grind

/-- The two neighbours of a member coincide exactly when it is the only one. -/
theorem pv_eq_nx_iff : pv c = nx c ↔ xs = [] ∧ ys = [] := by
  have hp := h.pv_mem
  have hn := h.nx_mem
  have hnd := h.nodup
  obtain ⟨h₁, h₂⟩ := path_append.mp h.path
  constructor
  · intro e
    -- A common neighbour lies on both sides of `c`, so it can only be the sentinel.
    have hs : pv c = s := by grind
    constructor
    · cases xs with
      | nil => rfl
      | cons x xs => exact absurd (hs ▸ h₁.2.2.pv_mem) (by grind)
    · cases ys with
      | nil => rfl
      | cons y ys =>
          have hy : nx c = y := h₂.1
          grind
  · rintro ⟨rfl, rfl⟩
    rw [h₁.2, h₂.1]

/-- **Taking a node out.** Its two neighbours are joined; every other link stays. -/
theorem remove (hnx : ∀ x ∈ s :: (xs ++ ys), x ≠ pv c → nx' x = nx x)
    (hpv : ∀ x ∈ s :: (xs ++ ys), x ≠ nx c → pv' x = pv x)
    (h₁ : nx' (pv c) = nx c) (h₂ : pv' (nx c) = pv c) : Ring nx' pv' s (xs ++ ys) := by
  have hnd := h.nodup
  have hp := h.pv_mem
  have hn := h.nx_mem
  obtain ⟨hl, hr⟩ := path_append.mp h.path
  have hxs : ∀ x ∈ xs, pv' x = pv x := by
    intro x hx
    exact hpv x (by simp [hx]) (by grind)
  have hmoved : Path nx' pv' s xs (nx c) := by
    refine hl.retarget (by grind) ?_ hxs h₁ h₂
    intro x hx hne
    exact hnx x (by grind) hne
  refine ⟨?_, by grind⟩
  cases ys with
  | nil =>
      rw [hr.1] at hmoved
      simpa using hmoved
  | cons y ys =>
      obtain ⟨hy, -, hrest⟩ := hr
      rw [hy] at hmoved
      refine path_append.mpr ⟨hmoved, hrest.congr ?_ ?_⟩
      · intro x hx
        exact hnx x (by grind) (by grind)
      · intro x hx
        exact hpv x (by grind) (by grind)

end Remove

/-- **Putting a node in at the tail.** It goes between the old last node and the sentinel. -/
theorem append (h : Ring nx pv s xs) (hc : c ∉ s :: xs)
    (hnx : ∀ x ∈ s :: xs, x ≠ pv s → nx' x = nx x) (hpv : ∀ x ∈ xs, pv' x = pv x)
    (h₁ : nx' (pv s) = c) (h₂ : pv' c = pv s) (h₃ : nx' c = s) (h₄ : pv' s = c) :
    Ring nx' pv' s (xs ++ [c]) := by
  have hnd := h.nodup
  refine ⟨path_append.mpr ⟨h.path.retarget hnd hnx hpv h₁ h₂, h₃, h₄⟩, ?_⟩
  rw [← List.cons_append, List.nodup_append]
  exact ⟨hnd, by simp, by grind⟩

end Ring

/-! ## Walking along a list

A bounded walk. It arrives if the bound is larger than the list. -/

section Follow

variable [DecidableEq α] {nx pv : α → α} {a s z : α} {xs : List α} {fuel : Nat}

/-- The loop `for (c = a; c != z; c = nx c)`: the nodes it visits, if it ends. -/
def follow (nx : α → α) (z : α) : Nat → α → Option (List α)
  | 0, _ => none
  | fuel + 1, a => if a = z then some [] else (follow nx z fuel (nx a)).map (a :: ·)

/-- Along a segment the loop visits its nodes. -/
theorem Path.follow_eq (h : Path nx pv a xs z) (hz : z ∉ xs) (hf : xs.length < fuel) :
    follow nx z fuel (nx a) = some xs := by
  induction xs generalizing a fuel with
  | nil =>
      obtain ⟨fuel, rfl⟩ := Nat.exists_eq_succ_of_ne_zero (Nat.ne_of_gt hf)
      rw [follow, if_pos h.1]
  | cons x xs ih =>
      obtain ⟨fuel, rfl⟩ := Nat.exists_eq_succ_of_ne_zero (Nat.ne_of_gt (Nat.zero_lt_of_lt hf))
      obtain ⟨h₁, -, h₃⟩ := h
      have hxz : x ≠ z := fun e => hz (e ▸ List.mem_cons_self)
      rw [follow, h₁, if_neg hxz, ih h₃ (fun hm => hz (List.mem_cons_of_mem _ hm))
        (Nat.lt_of_succ_lt_succ hf)]
      rfl

/-- Around a circular list it visits all members, once and in their order. -/
theorem Ring.follow_eq (h : Ring nx pv s xs) (hf : xs.length < fuel) :
    follow nx s fuel (nx s) = some xs :=
  h.path.follow_eq (List.nodup_cons.mp h.nodup).1 hf

end Follow

end MmExper.Lib
