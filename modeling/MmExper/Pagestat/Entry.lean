import MmExper.Lib.Bits
import MmExper.Pagestat.Print

/-!
# Entries of a pagemap

An entry has its flags in the bits from 55 on. Below them is the PFN if the page is present, and the type
and the offset of its place in swap if it is swapped out.
-/

namespace MmExper.Pagestat

open Lib

/-- What `do_print_mapping()` prints as `swap_type`. -/
def swapType (val : Word) : Word := val &&& pagemapSwapTypeMask

/-- What `do_print_mapping()` prints as `swap_offset`. -/
def swapOffset (val : Word) : Word := (val >>> pagemapSwapTypeNumBits) &&& pagemapSwapOffsetMask

/-- What `do_print_mapping()` prints about the flags of the entry. -/
def entryText (val : Word) : List Char :=
  (if checkBit val pagemapSoftDirtyBit then "Ds ".toList else "   ".toList) ++
    (if checkBit val pagemapExclusiveMappedBit then "Xm ".toList else "   ".toList) ++
    (if checkBit val pagemapUffdWpBit then "Uw ".toList else "   ".toList) ++
    (if checkBit val pagemapIsFileBit then "Fl ".toList else "   ".toList) ++
    (if checkBit val pagemapSwappedBit then "Sw ".toList else "   ".toList) ++
    (if checkBit val pagemapPresentBit then "Pr ".toList else "   ".toList) ++
    (if checkBit val pagemapSwappedBit ∨ getPfn val ≠ invalidValue then "/ ".toList else [])

variable {val val' : Word} {bit : Nat} {env : Env} {flags count : Word}

/-! ## Flags

Whether there is a PFN depends on the flags alone. -/

theorem checkBit_eq_getLsbD (h : bit < 64) (val : Word) : checkBit val bit = val.getLsbD bit := by
  rw [checkBit, Bool.eq_iff_iff, decide_eq_true_eq]
  exact and_bit_eq_iff h

/-- The flags are kept where the rest of the entry is masked. -/
theorem checkBit_flags (h : 55 ≤ bit) (hbit : bit < 64) (val : Word) :
    checkBit (val &&& ~~~pagemapPfnMask) bit = checkBit val bit := by
  rw [checkBit_eq_getLsbD hbit, checkBit_eq_getLsbD hbit, pagemapPfnMask, getLsbD_and_not_low (by decide),
    decide_eq_true h, Bool.true_and]

/-- Entries with the same flags have a PFN or not. -/
theorem hasPfn_eq (h : val &&& ~~~pagemapPfnMask = val' &&& ~~~pagemapPfnMask) : hasPfn val = hasPfn val' := by
  have hbit : ∀ bit, 55 ≤ bit → bit < 64 → checkBit val bit = checkBit val' bit := by
    intro bit hle hlt
    rw [← checkBit_flags hle hlt val, h, checkBit_flags hle hlt]
  rw [hasPfn, hasPfn, hbit _ (by decide) (by decide), hbit _ (by decide) (by decide)]

/-- A PFN has fewer bits than `INVALID_VALUE`. -/
theorem getPfn_eq_invalid : getPfn val = invalidValue ↔ hasPfn val = false := by
  rw [getPfn]
  cases hasPfn val with
  | false => simp
  | true =>
      have hne : val &&& pagemapPfnMask ≠ invalidValue := by
        intro h
        have hbit := congrArg (fun v : Word => v.getLsbD 63) h
        have hmask : (pagemapPfnMask : Word).getLsbD 63 = false := by decide
        have hinvalid : (invalidValue : Word).getLsbD 63 = true := by decide
        simp only [BitVec.getLsbD_and, hmask, Bool.and_false, hinvalid] at hbit
        cases hbit
      simpa using hne

theorem not_swapped_of_hasPfn (h : hasPfn val = true) : checkBit val pagemapSwappedBit = false := by
  rw [hasPfn, Bool.and_eq_true, Bool.not_eq_true'] at h
  exact h.1

/-- The PFN is what the flags leave out. -/
theorem flags_or_pfn (val : Word) : (val &&& ~~~pagemapPfnMask) ||| (val &&& pagemapPfnMask) = val := by
  apply BitVec.eq_of_getLsbD_eq
  intro i _
  rw [BitVec.getLsbD_or, pagemapPfnMask, getLsbD_and_not_low (by decide), getLsbD_and_low (by decide)]
  by_cases h : i < 55
  · simp [h, Nat.not_le_of_lt h]
  · simp [h, Nat.le_of_not_lt h]

/-- The line of a page: the flags of its entry, and then where it is. -/
theorem mappingText_eq (env : Env) (val flags count : Word) : mappingText env val flags count =
    entryText val ++ if checkBit val pagemapSwappedBit then swapText val
      else if getPfn val ≠ invalidValue then pageText env (getPfn val) flags count else [] := by
  simp only [mappingText, entryText, List.append_assoc]

theorem entryText_congr (hflags : val &&& ~~~pagemapPfnMask = val' &&& ~~~pagemapPfnMask)
    (hpfn : getPfn val = getPfn val') : entryText val = entryText val' := by
  have hbit : ∀ bit, 55 ≤ bit → bit < 64 → checkBit val bit = checkBit val' bit := by
    intro bit hle hlt
    rw [← checkBit_flags hle hlt val, hflags, checkBit_flags hle hlt]
  simp only [entryText, hpfn, hbit pagemapSoftDirtyBit (by decide) (by decide),
    hbit pagemapExclusiveMappedBit (by decide) (by decide), hbit pagemapUffdWpBit (by decide) (by decide),
    hbit pagemapIsFileBit (by decide) (by decide), hbit pagemapSwappedBit (by decide) (by decide),
    hbit pagemapPresentBit (by decide) (by decide)]

/-! ## Swap

Together the type and the offset are the low 55 bits. -/

theorem toNat_swapType : (swapType val).toNat = val.toNat % 2 ^ 5 := toNat_and_low (by decide)

theorem toNat_swapOffset : (swapOffset val).toNat = val.toNat / 2 ^ 5 % 2 ^ 50 :=
  toNat_shift_and_low (by decide)

/-- Type and offset are all that is below the flags. -/
theorem low_eq_iff : val &&& pagemapPfnMask = val' &&& pagemapPfnMask ↔
    swapType val = swapType val' ∧ swapOffset val = swapOffset val' := by
  have hlow : ∀ v : Word, (v &&& pagemapPfnMask).toNat = v.toNat % 2 ^ 55 := fun v => toNat_and_low (by decide)
  rw [← BitVec.toNat_inj, ← BitVec.toNat_inj, ← BitVec.toNat_inj, hlow, hlow, toNat_swapType, toNat_swapType,
    toNat_swapOffset, toNat_swapOffset]
  omega

theorem bracket_not_mem_hexadecimal : ']' ∉ hexadecimal val := not_mem_toDigits (by decide) (by decide)

theorem hexadecimal_inj (h : hexadecimal val = hexadecimal val') : val = val' := by
  have hnum := congrArg (numeral 16) h
  rw [hexadecimal, hexadecimal, numeral_toDigits_of_le (by decide) (by decide),
    numeral_toDigits_of_le (by decide) (by decide)] at hnum
  exact BitVec.eq_of_toNat_eq hnum

/-- Texts that end with the first `c` are the same up to there, and after it. -/
theorem append_cons_inj {c : Char} {x y s t : List Char} (hx : c ∉ x) (hy : c ∉ y)
    (h : x ++ c :: s = y ++ c :: t) : x = y ∧ s = t := by
  induction x generalizing y with
  | nil =>
      cases y with
      | nil => exact ⟨rfl, List.tail_eq_of_cons_eq h⟩
      | cons d y => exact absurd (List.head_eq_of_cons_eq h) (List.ne_of_not_mem_cons hy)
  | cons a x ih =>
      cases y with
      | nil => exact absurd (List.head_eq_of_cons_eq h).symm (List.ne_of_not_mem_cons hx)
      | cons d y =>
          obtain ⟨hrest, htail⟩ := ih (List.not_mem_of_not_mem_cons hx) (List.not_mem_of_not_mem_cons hy)
            (List.tail_eq_of_cons_eq h)
          exact ⟨congrArg₂ List.cons (List.head_eq_of_cons_eq h) hrest, htail⟩

/-- The text in terms of type and offset. -/
theorem swapText_eq (val : Word) : swapText val =
    "swap_type=[".toList ++ (hexadecimal (swapType val) ++ ']' ::
      (" swap_offset=[".toList ++ (hexadecimal (swapOffset val) ++ ']' :: [' ']))) := by
  have hmid : ∀ rest, "] ".toList ++ ("swap_offset=[".toList ++ rest) = ']' :: (" swap_offset=[".toList ++ rest) :=
    fun _ => rfl
  have hend : "] ".toList = [']', ' '] := rfl
  unfold swapText swapType swapOffset
  simp only [List.append_assoc, hmid]
  simp only [hend]

/-- The text says what type and offset are. -/
theorem swapText_inj : swapText val = swapText val' ↔
    swapType val = swapType val' ∧ swapOffset val = swapOffset val' := by
  rw [swapText_eq, swapText_eq]
  constructor
  · intro h
    obtain ⟨htype, hrest⟩ := append_cons_inj bracket_not_mem_hexadecimal bracket_not_mem_hexadecimal
      (List.append_cancel_left h)
    obtain ⟨hoffset, -⟩ := append_cons_inj bracket_not_mem_hexadecimal bracket_not_mem_hexadecimal
      (List.append_cancel_left hrest)
    exact ⟨hexadecimal_inj htype, hexadecimal_inj hoffset⟩
  · rintro ⟨htype, hoffset⟩
    rw [htype, hoffset]

end MmExper.Pagestat
