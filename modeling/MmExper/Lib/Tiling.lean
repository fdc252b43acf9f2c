import Mathlib.Algebra.BigOperators.Group.List.Basic
import Mathlib.Algebra.Ring.Nat
import Mathlib.Order.Interval.Finset.Nat

/-!
# Tilings of an interval

A list of pieces tiles `[lo, hi)` when each piece starts where the one before it ends, none is
empty and the last one ends at `hi`: no gap and no overlap. A piece is anything with a `start` and
a `size`.

Splitting a piece, joining neighbours and appending at the end are all instances of
`tiled_append`, so the bookkeeping of an allocator never touches more than the pieces it changes.
-/

namespace MmExper.Lib

variable {ι : Type*} {start size : ι → Nat}

/-- The pieces lie end to end from `lo` to `hi`. -/
def Tiled (start size : ι → Nat) : Nat → Nat → List ι → Prop
  | lo, hi, [] => lo = hi
  | lo, hi, c :: cs => start c = lo ∧ 0 < size c ∧ Tiled start size (lo + size c) hi cs

variable {lo hi : Nat} {c d : ι} {l r cs : List ι}

theorem tiled_append : Tiled start size lo hi (l ++ r) ↔
    ∃ mid, Tiled start size lo mid l ∧ Tiled start size mid hi r := by
  induction l generalizing lo with
  | nil => simp [Tiled]
  | cons c l ih =>
      simp only [List.cons_append, Tiled, ih]
      constructor
      · rintro ⟨h₁, h₂, mid, h₃, h₄⟩
        exact ⟨mid, ⟨h₁, h₂, h₃⟩, h₄⟩
      · rintro ⟨mid, ⟨h₁, h₂, h₃⟩, h₄⟩
        exact ⟨h₁, h₂, mid, h₃, h₄⟩

/-- A tiling seen from one of its pieces: what is before ends at its start, what is after begins
at its end. -/
theorem tiled_split : Tiled start size lo hi (l ++ c :: r) ↔
    Tiled start size lo (start c) l ∧ 0 < size c ∧ Tiled start size (start c + size c) hi r := by
  rw [tiled_append]
  constructor
  · rintro ⟨mid, h₁, h₂, h₃, h₄⟩
    rw [h₂]
    exact ⟨h₁, h₃, h₄⟩
  · rintro ⟨h₁, h₂, h₃⟩
    exact ⟨start c, h₁, rfl, h₂, h₃⟩

namespace Tiled

theorem le (h : Tiled start size lo hi cs) : lo ≤ hi := by
  induction cs generalizing lo with
  | nil => exact Nat.le_of_eq h
  | cons c cs ih =>
      have := ih h.2.2
      omega

/-- Every piece is non-empty and lies inside the interval. -/
theorem bounds (h : Tiled start size lo hi cs) (hc : c ∈ cs) :
    lo ≤ start c ∧ 0 < size c ∧ start c + size c ≤ hi := by
  obtain ⟨l, r, rfl⟩ := List.append_of_mem hc
  obtain ⟨h₁, h₂, h₃⟩ := tiled_split.mp h
  exact ⟨h₁.le, h₂, h₃.le⟩

/-- Pieces of one tiling are equal or lie one after the other. -/
theorem apart (h : Tiled start size lo hi cs) (hc : c ∈ cs) (hd : d ∈ cs) :
    c = d ∨ start c + size c ≤ start d ∨ start d + size d ≤ start c := by
  obtain ⟨l, r, rfl⟩ := List.append_of_mem hc
  obtain ⟨h₁, _, h₃⟩ := tiled_split.mp h
  rcases List.mem_append.mp hd with hd | hd
  · exact Or.inr (Or.inr (h₁.bounds hd).2.2)
  rcases List.mem_cons.mp hd with rfl | hd
  · exact Or.inl rfl
  · exact Or.inr (Or.inl (h₃.bounds hd).1)

/-- A piece is determined by where it starts. -/
theorem start_inj (h : Tiled start size lo hi cs) (hc : c ∈ cs) (hd : d ∈ cs)
    (e : start c = start d) : c = d := by
  have hcb := h.bounds hc
  have hdb := h.bounds hd
  rcases h.apart hc hd with h' | h' | h' <;> [exact h'; omega; omega]

theorem nodup (h : Tiled start size lo hi cs) : cs.Nodup := by
  induction cs generalizing lo with
  | nil => exact List.nodup_nil
  | cons c cs ih =>
      refine List.nodup_cons.mpr ⟨fun hc => ?_, ih h.2.2⟩
      have := h.2.2.bounds hc
      have := h.1
      omega

/-- The sizes add up to the length of the interval. -/
theorem sum_size (h : Tiled start size lo hi cs) : lo + (cs.map size).sum = hi := by
  induction cs generalizing lo with
  | nil => simpa [Tiled] using h
  | cons c cs ih =>
      have := ih h.2.2
      simp only [List.map_cons, List.sum_cons]
      omega

/-- No gap: every point of the interval lies in some piece. -/
theorem covers (h : Tiled start size lo hi cs) {x : Nat} (h₁ : lo ≤ x) (h₂ : x < hi) :
    ∃ c ∈ cs, start c ≤ x ∧ x < start c + size c := by
  induction cs generalizing lo with
  | nil =>
      have : lo = hi := h
      omega
  | cons c cs ih =>
      obtain ⟨hs, _, hrest⟩ := h
      by_cases hx : x < lo + size c
      · exact ⟨c, by simp, by omega, by omega⟩
      · obtain ⟨d, hd, hdx⟩ := ih hrest (by omega)
        exact ⟨d, List.mem_cons_of_mem _ hd, hdx⟩

/-- The end of a piece is the start of the next one, or the end of the interval. -/
theorem next_start (h : Tiled start size lo hi (l ++ c :: d :: r)) : start d = start c + size c :=
  (tiled_split.mp h).2.2.1

/-- The piece a point is in is found from the left. -/
theorem find?_eq (h : Tiled start size lo hi cs) (hc : c ∈ cs) {x : Nat} (h₁ : start c ≤ x)
    (h₂ : x < start c + size c) :
    cs.find? (fun d => decide (start d ≤ x ∧ x < start d + size d)) = some c := by
  obtain ⟨l, r, rfl⟩ := List.append_of_mem hc
  have hl := (tiled_split.mp h).1
  have hnone : l.find? (fun d => decide (start d ≤ x ∧ x < start d + size d)) = none := by
    apply List.find?_eq_none.mpr
    intro d hd
    have := hl.bounds hd
    simp only [decide_eq_true_eq]
    omega
  rw [List.find?_append, hnone, Option.none_or, List.find?_cons, decide_eq_true ⟨h₁, h₂⟩]

/-- The other pieces start elsewhere. -/
theorem start_ne (h : Tiled start size lo hi (l ++ c :: r)) (hd : d ∈ l ∨ d ∈ r) : start d ≠ start c := by
  obtain ⟨hl, hpos, hr⟩ := tiled_split.mp h
  rcases hd with hd | hd
  · have := hl.bounds hd
    omega
  · have := hr.bounds hd
    omega

/-- Changing the piece that starts where `c` does changes `c` only. -/
theorem map_start (h : Tiled start size lo hi (l ++ c :: r)) (f : ι → ι) :
    ((l ++ c :: r).map fun d => if start d = start c then f d else d) = l ++ f c :: r := by
  have hside : ∀ cs : List ι, (∀ d ∈ cs, d ∈ l ∨ d ∈ r) →
      (cs.map fun d => if start d = start c then f d else d) = cs := by
    intro cs hcs
    refine (List.map_congr_left fun d hd => ?_).trans (List.map_id cs)
    rw [if_neg (h.start_ne (hcs d hd))]
    rfl
  rw [List.map_append, List.map_cons, if_pos rfl, hside l fun d hd => Or.inl hd,
    hside r fun d hd => Or.inr hd]

/-- So does cutting it up. -/
theorem flatMap_start (h : Tiled start size lo hi (l ++ c :: r)) (f : ι → List ι) :
    ((l ++ c :: r).flatMap fun d => if start d = start c then f d else [d]) = l ++ (f c ++ r) := by
  have hside : ∀ cs : List ι, (∀ d ∈ cs, d ∈ l ∨ d ∈ r) →
      (cs.flatMap fun d => if start d = start c then f d else [d]) = cs := by
    intro cs hcs
    refine (List.flatMap_congr fun d hd => ?_).trans (List.flatMap_singleton' cs)
    rw [if_neg (h.start_ne (hcs d hd))]
  rw [List.flatMap_append, List.flatMap_cons, if_pos rfl, hside l fun d hd => Or.inl hd,
    hside r fun d hd => Or.inr hd]

/-- **A tiling can be read off its sizes.** Two tilings of one interval whose sizes are the same function
of the start have the same starts. -/
theorem starts_unique {f : Nat → Nat} {ds : List ι} (hc : Tiled start size lo hi cs)
    (hd : Tiled start size lo hi ds) (hcf : ∀ c ∈ cs, size c = f (start c))
    (hdf : ∀ d ∈ ds, size d = f (start d)) : cs.map start = ds.map start := by
  induction cs generalizing lo ds with
  | nil =>
      cases ds with
      | nil => rfl
      | cons d ds =>
          have hlo : lo = hi := hc
          have := hd.bounds (c := d) (by simp)
          omega
  | cons c cs ih =>
      cases ds with
      | nil =>
          have hlo : lo = hi := hd
          have := hc.bounds (c := c) (by simp)
          omega
      | cons d ds =>
          obtain ⟨h₁, -, h₂⟩ := hc
          obtain ⟨h₃, -, h₄⟩ := hd
          have hsize : size c = size d := by
            rw [hcf c (by simp), hdf d (by simp), h₁, h₃]
          rw [← hsize] at h₄
          rw [List.map_cons, List.map_cons, h₁, h₃,
            ih h₂ h₄ (fun e he => hcf e (by simp [he])) (fun e he => hdf e (by simp [he]))]

end Tiled

/-! ## Pieces apart -/

/-- The points in pieces that are pairwise apart, counted. -/
theorem exists_points_of_apart {l : List ι}
    (h : l.Pairwise fun c d => start c + size c ≤ start d ∨ start d + size d ≤ start c) :
    ∃ s : Finset Nat, s.card = (l.map size).sum ∧ ∀ x ∈ s, ∃ c ∈ l, start c ≤ x ∧ x < start c + size c := by
  induction l with
  | nil => exact ⟨∅, rfl, by simp⟩
  | cons c l ih =>
      obtain ⟨hc, hl⟩ := List.pairwise_cons.mp h
      obtain ⟨s, hcard, hs⟩ := ih hl
      have hdisj : Disjoint (Finset.Ico (start c) (start c + size c)) s := by
        rw [Finset.disjoint_left]
        intro x hx hxs
        obtain ⟨d, hd, h₁, h₂⟩ := hs x hxs
        rw [Finset.mem_Ico] at hx
        rcases hc d hd with h' | h' <;> omega
      refine ⟨Finset.Ico (start c) (start c + size c) ∪ s, ?_, ?_⟩
      · rw [Finset.card_union_of_disjoint hdisj, Nat.card_Ico, hcard, List.map_cons, List.sum_cons]
        omega
      · intro x hx
        rcases Finset.mem_union.mp hx with hx | hx
        · exact ⟨c, List.mem_cons_self, Finset.mem_Ico.mp hx⟩
        · obtain ⟨d, hd, hdx⟩ := hs x hx
          exact ⟨d, List.mem_cons_of_mem _ hd, hdx⟩

/-- Pieces apart below a bound have no more points than there are below it. -/
theorem sum_size_le_of_apart (start : ι → Nat) {l : List ι} {bound : Nat}
    (h : l.Pairwise fun c d => start c + size c ≤ start d ∨ start d + size d ≤ start c)
    (hb : ∀ c ∈ l, start c + size c ≤ bound) : (l.map size).sum ≤ bound := by
  obtain ⟨s, hcard, hs⟩ := exists_points_of_apart h
  have hsub : s ⊆ Finset.range bound := by
    intro x hx
    obtain ⟨c, hc, -, hlt⟩ := hs x hx
    exact Finset.mem_range.mpr (Nat.lt_of_lt_of_le hlt (hb c hc))
  have := Finset.card_le_card hsub
  rwa [hcard, Finset.card_range] at this

end MmExper.Lib
