import MmExper.Lib.Bits

/-!
# Taking masks out of a word

A table gives names to masks, and a loop over it takes out of a word every mask whose bits are all set. What
was taken and what is left are the word again, without overlaps. If the masks are single bits, the order of
the table matters for a bit with two names only: it has the first one.
-/

namespace MmExper.Lib

variable {w : Nat} {α : Type}

def takeMasks : List (BitVec w × α) → BitVec w → List (BitVec w × α) × BitVec w
  | [], x => ([], x)
  | t :: table, x =>
    if x &&& t.1 ≠ t.1 then takeMasks table x
    else
      let (found, rest) := takeMasks table (x &&& ~~~t.1)
      (t :: found, rest)

def IsBit (m : BitVec w) : Prop := ∃ i < w, m = 1#w <<< i

instance (m : BitVec w) : Decidable (IsBit m) := inferInstanceAs (Decidable (∃ i < w, m = 1#w <<< i))

variable {table table' : List (BitVec w × α)} {t r : BitVec w × α} {x y m n : BitVec w}

theorem takeMasks_cons_pos (h : x &&& t.1 = t.1) (table : List (BitVec w × α)) : takeMasks (t :: table) x =
    (t :: (takeMasks table (x &&& ~~~t.1)).1, (takeMasks table (x &&& ~~~t.1)).2) := by
  rw [takeMasks, if_neg (not_not.mpr h)]

theorem takeMasks_cons_neg (h : x &&& t.1 ≠ t.1) (table : List (BitVec w × α)) :
    takeMasks (t :: table) x = takeMasks table x := by
  rw [takeMasks, if_pos h]

/-! ## Nothing is lost or invented

The bits of the entries taken and those of the rest are the bits of the word, for any table. -/

theorem and_not_eq_zero_of_subset (h : (x &&& ~~~m) &&& y = y) : m &&& y = 0#w := by
  rw [← h]
  apply BitVec.eq_of_getLsbD_eq
  intro i hi
  simp only [BitVec.getLsbD_and, BitVec.getLsbD_not, BitVec.getLsbD_zero]
  cases m.getLsbD i <;> simp

theorem subset_of_subset_and (h : (x &&& y) &&& m = m) : x &&& m = m := by
  rw [← h]
  apply BitVec.eq_of_getLsbD_eq
  intro i _
  simp only [BitVec.getLsbD_and]
  cases x.getLsbD i <;> simp

/-- What is found and what is left are parts of the word. -/
theorem takeMasks_subset (table : List (BitVec w × α)) (x : BitVec w) :
    (∀ r ∈ (takeMasks table x).1, x &&& r.1 = r.1) ∧ x &&& (takeMasks table x).2 = (takeMasks table x).2 := by
  induction table generalizing x with
  | nil => exact ⟨fun _ h => absurd h List.not_mem_nil, BitVec.and_self⟩
  | cons t table ih =>
      by_cases h : x &&& t.1 = t.1
      · obtain ⟨hfound, hrest⟩ := ih (x &&& ~~~t.1)
        rw [takeMasks_cons_pos h]
        refine ⟨fun r hr => ?_, subset_of_subset_and hrest⟩
        rcases List.mem_cons.mp hr with rfl | hr
        · exact h
        · exact subset_of_subset_and (hfound r hr)
      · rw [takeMasks_cons_neg h]
        exact ih x

/-- Entries are found in the order of the table. -/
theorem takeMasks_sublist (table : List (BitVec w × α)) (x : BitVec w) : (takeMasks table x).1.Sublist table := by
  induction table generalizing x with
  | nil => exact List.Sublist.refl []
  | cons t table ih =>
      by_cases h : x &&& t.1 = t.1
      · rw [takeMasks_cons_pos h]
        exact (ih _).cons_cons t
      · rw [takeMasks_cons_neg h]
        exact (ih x).cons t

/-- No bit is found twice, or found and left. -/
theorem takeMasks_disjoint (table : List (BitVec w × α)) (x : BitVec w) :
    (takeMasks table x).1.Pairwise (fun r s => r.1 &&& s.1 = 0#w) ∧
      ∀ r ∈ (takeMasks table x).1, r.1 &&& (takeMasks table x).2 = 0#w := by
  induction table generalizing x with
  | nil => exact ⟨List.Pairwise.nil, fun _ h => absurd h List.not_mem_nil⟩
  | cons t table ih =>
      by_cases h : x &&& t.1 = t.1
      · obtain ⟨hpair, hrest⟩ := ih (x &&& ~~~t.1)
        obtain ⟨hfound, hleft⟩ := takeMasks_subset table (x &&& ~~~t.1)
        rw [takeMasks_cons_pos h]
        refine ⟨List.pairwise_cons.mpr ⟨fun r hr => and_not_eq_zero_of_subset (hfound r hr), hpair⟩, fun r hr => ?_⟩
        rcases List.mem_cons.mp hr with rfl | hr
        · exact and_not_eq_zero_of_subset hleft
        · exact hrest r hr
      · rw [takeMasks_cons_neg h]
        exact ih x

/-- Everything together is the word. -/
theorem takeMasks_union (table : List (BitVec w × α)) (x : BitVec w) :
    (takeMasks table x).1.foldr (fun r y => r.1 ||| y) (takeMasks table x).2 = x := by
  induction table generalizing x with
  | nil => rfl
  | cons t table ih =>
      by_cases h : x &&& t.1 = t.1
      · rw [takeMasks_cons_pos h, List.foldr_cons, ih]
        rw [← h]
        apply BitVec.eq_of_getLsbD_eq
        intro i hi
        simp only [BitVec.getLsbD_or, BitVec.getLsbD_and, BitVec.getLsbD_not, decide_eq_true hi]
        cases x.getLsbD i <;> cases t.1.getLsbD i <;> rfl
      · rw [takeMasks_cons_neg h]
        exact ih x

/-! ## The order of the table

For single bits an entry is taken if its bit is set and no entry before it has the same bit. -/

/-- A bit that is not set has nothing to clear. -/
theorem IsBit.and_not_of_unset (hm : IsBit m) (h : x &&& m ≠ m) : x &&& ~~~m = x := by
  obtain ⟨i, hi, rfl⟩ := hm
  have hunset : x.getLsbD i = false := Bool.eq_false_of_not_eq_true (mt (and_bit_eq_iff hi).mpr h)
  apply BitVec.eq_of_getLsbD_eq
  intro j hj
  rw [BitVec.getLsbD_and, BitVec.getLsbD_not, getLsbD_bit hi, decide_eq_true hj, Bool.true_and]
  by_cases hij : j = i
  · rw [hij, hunset, Bool.false_and]
  · rw [decide_eq_false hij, Bool.not_false, Bool.and_true]

/-- Clearing a bit leaves the other bits. -/
theorem IsBit.subset_and_not_iff (hm : IsBit m) (hn : IsBit n) :
    (x &&& ~~~m) &&& n = n ↔ x &&& n = n ∧ n ≠ m := by
  obtain ⟨i, hi, rfl⟩ := hm
  obtain ⟨j, hj, rfl⟩ := hn
  have hne : 1#w <<< j ≠ 1#w <<< i ↔ j ≠ i := by
    rw [not_iff_not]
    constructor
    · intro h
      have hpow := congrArg BitVec.toNat h
      rw [toNat_bit hj, toNat_bit hi] at hpow
      exact Nat.pow_right_injective (Nat.le_refl 2) hpow
    · rintro rfl
      rfl
  rw [and_bit_eq_iff hj, and_bit_eq_iff hj, hne, BitVec.getLsbD_and, BitVec.getLsbD_not, getLsbD_bit hi,
    decide_eq_true hj, Bool.true_and, Bool.and_eq_true, Bool.not_eq_true', decide_eq_false_iff_not]

/-- Whether a bit is set or not, it is cleared. -/
theorem takeMasks_cons_rest (h : IsBit t.1) (table : List (BitVec w × α)) (x : BitVec w) :
    (takeMasks (t :: table) x).2 = (takeMasks table (x &&& ~~~t.1)).2 := by
  by_cases hset : x &&& t.1 = t.1
  · rw [takeMasks_cons_pos hset]
  · rw [takeMasks_cons_neg hset, h.and_not_of_unset hset]

/-- What is left is the word without the bits of the table. -/
theorem takeMasks_rest (h : ∀ t ∈ table, IsBit t.1) (x : BitVec w) :
    (takeMasks table x).2 = x &&& ~~~(table.foldr (fun t y => t.1 ||| y) 0#w) := by
  induction table generalizing x with
  | nil => simp [takeMasks]
  | cons t table ih =>
      rw [List.forall_mem_cons] at h
      rw [takeMasks_cons_rest h.1, ih h.2, List.foldr_cons, BitVec.not_or, BitVec.and_assoc]

/-- No bit of the table is left. -/
theorem takeMasks_named (h : ∀ t ∈ table, IsBit t.1) (x : BitVec w) :
    ∀ t ∈ table, t.1 &&& (takeMasks table x).2 = 0#w := by
  induction table generalizing x with
  | nil => exact fun _ ht => absurd ht List.not_mem_nil
  | cons t table ih =>
      rw [List.forall_mem_cons] at h
      rw [takeMasks_cons_rest h.1]
      intro s hs
      rcases List.mem_cons.mp hs with rfl | hs
      · exact and_not_eq_zero_of_subset (takeMasks_subset table _).2
      · exact ih h.2 _ s hs

/-- An entry is found if its bit is set and it is the first one for the bit. -/
theorem mem_takeMasks_iff (h : ∀ t ∈ table, IsBit t.1) (x : BitVec w) :
    r ∈ (takeMasks table x).1 ↔ x &&& r.1 = r.1 ∧ table.find? (fun t => t.1 = r.1) = some r := by
  induction table generalizing x with
  | nil => simp [takeMasks]
  | cons t table ih =>
      rw [List.forall_mem_cons] at h
      by_cases hkey : t.1 = r.1
      · -- The entries after it are not found for this bit.
        have hfind : (t :: table).find? (fun t => t.1 = r.1) = some t := List.find?_cons_of_pos (decide_eq_true hkey)
        rw [hfind, Option.some_inj, ← hkey]
        by_cases hset : x &&& t.1 = t.1
        · rw [takeMasks_cons_pos hset, List.mem_cons, ih h.2, ← hkey, h.1.subset_and_not_iff h.1]
          simp [hset, eq_comm]
        · rw [takeMasks_cons_neg hset, ih h.2, ← hkey]
          simp [hset]
      · have hfind : (t :: table).find? (fun t => t.1 = r.1) = table.find? (fun t => t.1 = r.1) :=
          List.find?_cons_of_neg (by simpa using hkey)
        rw [hfind]
        have hne : r ≠ t := fun e => hkey (congrArg Prod.fst e).symm
        by_cases hset : x &&& t.1 = t.1
        · rw [takeMasks_cons_pos hset, List.mem_cons, ih h.2, or_iff_right hne]
          apply and_congr_left
          intro hfind
          rw [h.1.subset_and_not_iff (h.2 r (List.mem_of_find?_eq_some hfind))]
          exact and_iff_left (Ne.symm hkey)
        · rw [takeMasks_cons_neg hset, ih h.2]

/-- Two tables in which every bit has the same name, in any order, find the same entries. -/
theorem mem_takeMasks_congr (h : ∀ t ∈ table, IsBit t.1) (h' : ∀ t ∈ table', IsBit t.1)
    (hfirst : ∀ r ∈ table, table.find? (fun t => t.1 = r.1) = some r → table'.find? (fun t => t.1 = r.1) = some r)
    (hfirst' : ∀ r ∈ table', table'.find? (fun t => t.1 = r.1) = some r → table.find? (fun t => t.1 = r.1) = some r)
    (x : BitVec w) (r : BitVec w × α) : r ∈ (takeMasks table x).1 ↔ r ∈ (takeMasks table' x).1 := by
  rw [mem_takeMasks_iff h, mem_takeMasks_iff h']
  apply and_congr_right
  intro _
  exact ⟨fun hf => hfirst r (List.mem_of_find?_eq_some hf) hf, fun hf => hfirst' r (List.mem_of_find?_eq_some hf) hf⟩

end MmExper.Lib
