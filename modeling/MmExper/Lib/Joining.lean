import Mathlib.Data.List.Chain

/-!
# Joining neighbours

One pass over a list replaces every run of neighbours with a property `p` by their union. What an
allocator does with free blocks, one block at a time, is this pass over the whole heap: joining the
tail first changes nothing (`joinRuns_map`), so it does not matter in which order elements acquire the
property, nor how often the list is joined in between.
-/

namespace MmExper.Lib

variable {α : Type*}

def joinCons (p : α → Bool) (join : α → α → α) (a : α) : List α → List α
  | [] => [a]
  | b :: bs => if p a && p b then join a b :: bs else a :: b :: bs

/-- Replace every run of neighbours with the property `p` by their union. -/
def joinRuns (p : α → Bool) (join : α → α → α) : List α → List α
  | [] => []
  | a :: as => joinCons p join a (joinRuns p join as)

def Alternating (p : α → Bool) (l : List α) : Prop := l.IsChain fun a b => ¬(p a = true ∧ p b = true)

variable {p : α → Bool} {join : α → α → α} {a b : α} {l r : List α}

theorem joinCons_of_alternating (h : Alternating p (a :: l)) : joinCons p join a l = a :: l := by
  cases l with
  | nil => rfl
  | cons b bs =>
      have hab := (List.isChain_cons_cons.mp h).1
      rw [joinCons, if_neg (by simpa using hab)]

/-- A list without such neighbours is left alone. -/
theorem joinRuns_of_alternating (h : Alternating p l) : joinRuns p join l = l := by
  induction l with
  | nil => rfl
  | cons a l ih =>
      rw [joinRuns, ih (List.isChain_cons.mp h).2]
      exact joinCons_of_alternating h

structure Joins (p : α → Bool) (join : α → α → α) : Prop where
  keeps : ∀ a b, p a = true → p b = true → p (join a b) = true
  assoc : ∀ a b c, p a = true → p b = true → p c = true → join (join a b) c = join a (join b c)

theorem joinRuns_ne_nil (h : l ≠ []) : joinRuns p join l ≠ [] := by
  obtain ⟨a, as, rfl⟩ := List.exists_cons_of_ne_nil h
  rw [joinRuns]
  cases joinRuns p join as with
  | nil => simp [joinCons]
  | cons b bs =>
      rw [joinCons]
      split <;> simp

namespace Joins

variable (h : Joins p join)
include h

/-- Two elements in front one after the other, or their union at once. -/
theorem joinCons_joinCons (ha : p a = true) (hb : p b = true) (l : List α) :
    joinCons p join a (joinCons p join b l) = joinCons p join (join a b) l := by
  have hj := h.keeps a b ha hb
  cases l with
  | nil =>
      show joinCons p join a [b] = [join a b]
      rw [joinCons, if_pos (by simp [ha, hb])]
  | cons c cs =>
      by_cases hc : p c = true
      · have hbc := h.keeps b c hb hc
        rw [joinCons, if_pos (by simp [hb, hc]), joinCons, if_pos (by simp [ha, hbc]), joinCons,
          if_pos (by simp [hj, hc]), h.assoc a b c ha hb hc]
      · rw [joinCons, if_neg (by simp [hc]), joinCons, if_pos (by simp [ha, hb]), joinCons,
          if_neg (by simp [hc])]

/-- **Joining in between changes nothing.** Elements may acquire the property before or after a list is
joined, if those that have it already stay as they are. -/
theorem joinRuns_map {f : α → α} (hf : ∀ a, p a = true → f a = a) (l : List α) :
    joinRuns p join ((joinRuns p join l).map f) = joinRuns p join (l.map f) := by
  induction l with
  | nil => rfl
  | cons a l ih =>
      rw [List.map_cons, joinRuns, joinRuns, ← ih]
      cases joinRuns p join l with
      | nil => rfl
      | cons b bs =>
          rw [joinCons]
          split
          · next hab =>
            obtain ⟨ha, hb⟩ : p a = true ∧ p b = true := by simpa using hab
            rw [List.map_cons, List.map_cons, joinRuns, joinRuns, hf a ha, hf b hb,
              hf _ (h.keeps a b ha hb), h.joinCons_joinCons ha hb]
          · next hab => rfl

/-- Making elements acquire the property one after the other and joining every time is making all of them
acquire it and joining once. -/
theorem foldl_joinRuns {ι : Type*} {f : ι → α → α} (hf : ∀ i a, p a = true → f i a = a) (is : List ι)
    (hl : Alternating p l) :
    is.foldl (fun l i => joinRuns p join (l.map (f i))) l =
      joinRuns p join (l.map fun a => is.foldl (fun a i => f i a) a) := by
  have key : ∀ (is : List ι) (l : List α),
      is.foldl (fun l i => joinRuns p join (l.map (f i))) (joinRuns p join l) =
        joinRuns p join (l.map fun a => is.foldl (fun a i => f i a) a) := by
    intro is
    induction is with
    | nil => simp
    | cons i is ih =>
        intro l
        rw [List.foldl_cons, h.joinRuns_map (hf i), ih, List.map_map]
        rfl
  rw [← key is l, joinRuns_of_alternating hl]

end Joins

/-! ## Parts -/

/-- An element without the property is never joined to what comes after it. -/
theorem joinCons_of_not (ha : p a = false) (l : List α) : joinCons p join a l = a :: l := by
  cases l with
  | nil => rfl
  | cons b bs => rw [joinCons, if_neg (by simp [ha])]

/-- Parts are joined apart if the first ends without the property. -/
theorem joinRuns_append_left (hl : ∀ a ∈ l.getLast?, p a = false) (r : List α) :
    joinRuns p join (l ++ r) = joinRuns p join l ++ joinRuns p join r := by
  induction l with
  | nil => rfl
  | cons a l ih =>
      cases l with
      | nil =>
          have ha : p a = false := hl a rfl
          rw [List.cons_append, List.nil_append, joinRuns, joinCons_of_not ha, joinRuns,
            joinCons_of_not ha]
          rfl
      | cons b l =>
          have hne : joinRuns p join (b :: l) ≠ [] := joinRuns_ne_nil (List.cons_ne_nil b l)
          obtain ⟨c, cs, hc⟩ := List.exists_cons_of_ne_nil hne
          have hrest := ih fun d hd => hl d (by simpa using hd)
          rw [List.cons_append, joinRuns, hrest, joinRuns.eq_2 p join a (b :: l), hc,
            List.cons_append, joinCons, joinCons]
          split <;> rfl

/-- So they are if the second begins without it. -/
theorem joinRuns_append_right (hr : ∀ b ∈ r.head?, p b = false) (l : List α) :
    joinRuns p join (l ++ r) = joinRuns p join l ++ joinRuns p join r := by
  cases r with
  | nil => simp [joinRuns]
  | cons b bs =>
      have hb : p b = false := hr b rfl
      induction l with
      | nil => rfl
      | cons a l ih =>
          rw [List.cons_append, joinRuns, ih, joinRuns.eq_2 p join a l]
          cases joinRuns p join l with
          | nil =>
              rw [List.nil_append, joinRuns, joinCons_of_not hb, joinCons.eq_2, if_neg (by simp [hb])]
              rfl
          | cons c cs =>
              rw [List.cons_append, joinCons, joinCons]
              split <;> rfl

end MmExper.Lib
