import Mathlib.Algebra.Group.Nat.Defs
import Mathlib.Data.List.Basic
import Mathlib.Data.List.TakeWhile

/-!
# Reading text with `getline` and `sscanf`

The part of C's formatted input that line-oriented readers of text files use: lines, and formats made
of `%s` and `%lu`. A character stands for a byte, and a text has no zero bytes. Both conversions skip
white space first, so white space between them in a format does nothing. What `%s` does to a buffer
that is too short is undefined, so there is no result then.
-/

namespace MmExper.Lib

/-! ## Lines -/

/-- The lines of a text, each with its newline, in the order `getline` returns them. -/
def lines : List Char → List (List Char)
  | [] => []
  | c :: cs =>
    if c = '\n' then [c] :: lines cs
    else
      match lines cs with
      | [] => [[c]]
      | l :: ls => (c :: l) :: ls

def IsLine (l : List Char) : Prop := ∃ s, '\n' ∉ s ∧ l = s ++ ['\n']

theorem lines_append {s : List Char} (hs : '\n' ∉ s) (rest : List Char) :
    lines (s ++ '\n' :: rest) = (s ++ ['\n']) :: lines rest := by
  induction s with
  | nil => simp [lines]
  | cons c s ih =>
      simp only [List.mem_cons, not_or] at hs
      rw [List.cons_append, lines, if_neg (Ne.symm hs.1), ih hs.2]
      rfl

/-- Lines one after the other are read one after the other. -/
theorem lines_flatten {ls : List (List Char)} (h : ∀ l ∈ ls, IsLine l) : lines ls.flatten = ls := by
  induction ls with
  | nil => rfl
  | cons l ls ih =>
      obtain ⟨s, hs, rfl⟩ := h l List.mem_cons_self
      rw [List.flatten_cons, List.append_assoc, List.singleton_append, lines_append hs,
        ih fun m hm => h m (List.mem_cons_of_mem _ hm)]

/-! ## Words -/

/-- A text is checked character by character. -/
theorem forall_mem_of_all {p : Char → Prop} [DecidablePred p] {s : List Char}
    (h : (s.all fun c => p c) = true) : ∀ c ∈ s, p c := by
  intro c hc
  exact of_decide_eq_true (List.all_eq_true.mp h c hc)

/-- `isspace()` in the C locale. -/
def isSpace (c : Char) : Bool := c = ' ' || '\t' ≤ c && c ≤ '\r'

structure IsWord (w : List Char) : Prop where
  ne_nil : w ≠ []
  chars : ∀ c ∈ w, isSpace c = false

def IsGap (g : List Char) : Prop := ∀ c ∈ g, isSpace c = true

/-- A word before this text ends there. -/
def Stops (rest : List Char) : Prop := ∀ c ∈ rest.head?, isSpace c = true

theorem isGap_replicate (n : Nat) : IsGap (List.replicate n ' ') := by
  intro c hc
  rw [List.eq_of_mem_replicate hc]
  rfl

theorem stops_cons {c : Char} {rest : List Char} (h : isSpace c = true) : Stops (c :: rest) := by
  intro d hd
  cases hd
  exact h

/-- White space in front of a word is skipped. -/
theorem dropWhile_gap {g w : List Char} (hg : IsGap g) (hw : ∀ c ∈ w.head?, isSpace c = false) :
    (g ++ w).dropWhile isSpace = w := by
  rw [List.dropWhile_append_of_pos hg]
  cases w with
  | nil => rfl
  | cons c w =>
      have := hw c rfl
      simp [this]

theorem takeWhile_word {w rest : List Char} (hw : ∀ c ∈ w, isSpace c = false) (hr : Stops rest) :
    (w ++ rest).takeWhile (!isSpace ·) = w := by
  rw [List.takeWhile_append_of_pos fun c hc => by simp [hw c hc]]
  cases rest with
  | nil => simp
  | cons c rest =>
      have := hr c rfl
      simp [this]

theorem dropWhile_word {w rest : List Char} (hw : ∀ c ∈ w, isSpace c = false) (hr : Stops rest) :
    (w ++ rest).dropWhile (!isSpace ·) = rest := by
  rw [List.dropWhile_append_of_pos fun c hc => by simp [hw c hc]]
  cases rest with
  | nil => rfl
  | cons c rest =>
      have := hr c rfl
      simp [this]

/-! ## Numbers

A numeral is read as far as its digits go. It may have a sign. -/

def digitVal (c : Char) : Nat :=
  if c.isDigit then c.toNat - '0'.toNat
  else if 'a' ≤ c then c.toNat - 'a'.toNat + 10
  else c.toNat - 'A'.toNat + 10

def numeral (base : Nat) (ds : List Char) : Nat := ds.foldl (fun n d => base * n + digitVal d) 0

/-- The `unsigned long` of a decimal numeral; one that does not fit becomes `ULONG_MAX`. -/
def ulongVal (ds : List Char) : BitVec 64 :=
  if numeral 10 ds < 2 ^ 64 then BitVec.ofNat 64 (numeral 10 ds) else -1#64

/-- `strtoul()` in base ten, without the white space in front: the value, and the rest of the text. A
value with a minus sign is negated as a word, if it fits. -/
def strtoul (s : List Char) : Option (BitVec 64 × List Char) :=
  let neg := s.head? = some '-'
  let s := if neg ∨ s.head? = some '+' then s.tail else s
  let ds := s.takeWhile Char.isDigit
  if ds = [] then none
  else
    let v := if neg ∧ numeral 10 ds < 2 ^ 64 then -ulongVal ds else ulongVal ds
    some (v, s.dropWhile Char.isDigit)

structure IsDecimal (ds : List Char) : Prop where
  ne_nil : ds ≠ []
  digits : ∀ c ∈ ds, c.isDigit = true

theorem isDigit_not_isSpace {c : Char} (h : c.isDigit = true) : isSpace c = false := by
  simp only [Char.isDigit, Bool.and_eq_true, decide_eq_true_eq] at h
  simp only [isSpace, Bool.or_eq_false_iff, Bool.and_eq_false_iff, decide_eq_false_iff_not]
  refine ⟨?_, .inr ?_⟩
  · rintro rfl
    simp at h
  · intro hc
    exact absurd (UInt32.le_trans h.1 (Char.le_def.mp hc)) (by decide)

theorem isSpace_not_isDigit {c : Char} (h : isSpace c = true) : c.isDigit = false := by
  by_contra hd
  rw [isDigit_not_isSpace (by simpa using hd)] at h
  cases h

theorem IsDecimal.isWord {ds : List Char} (h : IsDecimal ds) : IsWord ds :=
  ⟨h.ne_nil, fun c hc => isDigit_not_isSpace (h.digits c hc)⟩

theorem strtoul_decimal {ds rest : List Char} (h : IsDecimal ds) (hr : Stops rest) :
    strtoul (ds ++ rest) = some (ulongVal ds, rest) := by
  obtain ⟨d, ds', rfl⟩ := List.exists_cons_of_ne_nil h.ne_nil
  have hd := h.digits d List.mem_cons_self
  have hminus : d ≠ '-' := by
    rintro rfl
    simp at hd
  have hplus : d ≠ '+' := by
    rintro rfl
    simp at hd
  have htake : ((d :: ds') ++ rest).takeWhile Char.isDigit = d :: ds' := by
    rw [List.takeWhile_append_of_pos h.digits]
    cases rest with
    | nil => simp
    | cons c rest => simp [isSpace_not_isDigit (hr c rfl)]
  have hdrop : ((d :: ds') ++ rest).dropWhile Char.isDigit = rest := by
    rw [List.dropWhile_append_of_pos h.digits]
    cases rest with
    | nil => rfl
    | cons c rest => simp [isSpace_not_isDigit (hr c rfl)]
  have hhead : ((d :: ds') ++ rest).head? = some d := rfl
  simp only [strtoul, hhead, Option.some.injEq, hminus, hplus, or_self, if_false, htake, hdrop, false_and]
  simp

/-- There is no number where neither a digit nor a sign is. -/
theorem strtoul_none {c : Char} {rest : List Char} (hc : c.isDigit = false) (hplus : c ≠ '+')
    (hminus : c = '-' → ∀ d ∈ rest.head?, d.isDigit = false) : strtoul (c :: rest) = none := by
  by_cases hm : c = '-'
  · subst hm
    cases rest with
    | nil => rfl
    | cons d rest =>
        have := hminus rfl d rfl
        simp [strtoul, this]
  · simp [strtoul, hm, hplus, hc]

/-! ## Formats

The conversions one after the other. The first one that fails ends the call. -/

/-- A conversion of a format: `%s` into a buffer of `cap` bytes, or `%lu`. -/
inductive Conv where
  | str (cap : Nat)
  | ulong

inductive Val where
  | str (s : List Char)
  | ulong (v : BitVec 64)

/-- `sscanf()`: the values assigned, in order, up to the first conversion that fails. -/
def sscanf : List Conv → List Char → Option (List Val)
  | [], _ => some []
  | .str cap :: fmt, s =>
    let s := s.dropWhile isSpace
    let w := s.takeWhile (!isSpace ·)
    if w = [] then some []
    else if w.length < cap then (sscanf fmt (s.dropWhile (!isSpace ·))).map (.str w :: ·)
    else none
  | .ulong :: fmt, s =>
    match strtoul (s.dropWhile isSpace) with
    | none => some []
    | some (v, s) => (sscanf fmt s).map (.ulong v :: ·)

variable {fmt : List Conv} {cap : Nat} {g w rest : List Char}

/-- `%s` takes the next word. -/
theorem sscanf_str (hg : IsGap g) (hw : IsWord w) (hr : Stops rest) :
    sscanf (.str cap :: fmt) (g ++ (w ++ rest)) =
      if w.length < cap then (sscanf fmt rest).map (.str w :: ·) else none := by
  have hhead : ∀ c ∈ (w ++ rest).head?, isSpace c = false := by
    obtain ⟨d, ws, rfl⟩ := List.exists_cons_of_ne_nil hw.ne_nil
    rintro c ⟨⟩
    exact hw.chars d List.mem_cons_self
  simp only [sscanf, dropWhile_gap hg hhead, takeWhile_word hw.chars hr, dropWhile_word hw.chars hr,
    if_neg hw.ne_nil]

/-- A text that begins with the word. -/
theorem sscanf_word (hw : IsWord w) (hr : Stops rest) :
    sscanf (.str cap :: fmt) (w ++ rest) =
      if w.length < cap then (sscanf fmt rest).map (.str w :: ·) else none :=
  sscanf_str (g := []) (by simp [IsGap]) hw hr

/-- One space in front of the word. -/
theorem sscanf_space_word (hw : IsWord w) (hr : Stops rest) :
    sscanf (.str cap :: fmt) (' ' :: (w ++ rest)) =
      if w.length < cap then (sscanf fmt rest).map (.str w :: ·) else none :=
  sscanf_str (g := [' ']) (isGap_replicate 1) hw hr

/-- Nothing is left for a `%s`. -/
theorem sscanf_str_end (hg : IsGap g) : sscanf (.str cap :: fmt) g = some [] := by
  have hnil : g.dropWhile isSpace = [] := by
    have := dropWhile_gap (w := []) hg (by simp)
    rwa [List.append_nil] at this
  simp [sscanf, hnil]

/-- `%lu` takes the next decimal numeral. -/
theorem sscanf_ulong (hg : IsGap g) (hw : IsDecimal w) (hr : Stops rest) :
    sscanf (.ulong :: fmt) (g ++ (w ++ rest)) = (sscanf fmt rest).map (.ulong (ulongVal w) :: ·) := by
  have hhead : ∀ c ∈ (w ++ rest).head?, isSpace c = false := by
    obtain ⟨d, ws, rfl⟩ := List.exists_cons_of_ne_nil hw.ne_nil
    rintro c ⟨⟩
    exact isDigit_not_isSpace (hw.digits d List.mem_cons_self)
  simp only [sscanf, dropWhile_gap hg hhead, strtoul_decimal hw hr]

/-- `%lu` assigns nothing where no number is, and the format ends there. -/
theorem sscanf_ulong_fail {c : Char} (hg : IsGap g) (hc : isSpace c = false) (hd : c.isDigit = false)
    (hplus : c ≠ '+') (hminus : c = '-' → ∀ d ∈ rest.head?, d.isDigit = false) :
    sscanf (.ulong :: fmt) (g ++ c :: rest) = some [] := by
  have hhead : ∀ d ∈ (c :: rest).head?, isSpace d = false := by
    rintro d ⟨⟩
    exact hc
  simp only [sscanf, dropWhile_gap hg hhead, strtoul_none hd hplus hminus]

end MmExper.Lib
