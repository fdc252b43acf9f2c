import MmExper.Pagestat.Entry
import MmExper.ReadPageflags.Flags

/-!
# Three decoders of pagemap entries

`pagemap_tour.c` takes an entry apart with masks of its own, and asks for the present bit before the swapped
bit. `pagestat.c` and `read-pageflags.c` ask for the swapped bit first. The kernel never sets both.
-/

namespace MmExper.Random

open Lib
open Pagestat (Env HeaderFlag checkBit getPfn hasPfn swapType swapOffset mappingText entryText)

def pagemapSoftdirty : Word := 1#64 <<< 55
def pagemapExclusive : Word := 1#64 <<< 56
def pagemapFile : Word := 1#64 <<< 61
def pagemapSwapped : Word := 1#64 <<< 62
def pagemapPresent : Word := 1#64 <<< 63
def pagemapSwapOffsetShift : Nat := 5
def pagemapSwapTypeMask : Word := (1#64 <<< 5) - 1#64
def pagemapPfnMask : Word := (1#64 <<< 55) - 1#64

inductive Described where
  | notPresent
  | swapped (type offset : Word)
  | present (file : Bool) (pfn : Word) (softdirty exclusive : Bool)
  deriving DecidableEq

def describeSwapped (pagemap : Word) : Described :=
  .swapped (pagemap &&& pagemapSwapTypeMask) ((pagemap &&& pagemapPfnMask) >>> pagemapSwapOffsetShift)

/-- The branches of `describe_addr()`. -/
def describe (pagemap : Word) : Described :=
  if ¬pagemap &&& pagemapPresent ≠ 0#64 then
    if pagemap &&& pagemapSwapped ≠ 0#64 then describeSwapped pagemap else .notPresent
  else
    .present (pagemap &&& pagemapFile ≠ 0#64) (pagemap &&& pagemapPfnMask) (pagemap &&& pagemapSoftdirty ≠ 0#64)
      (pagemap &&& pagemapExclusive ≠ 0#64)

def describeKpageflags (env : Env) (kpageflags : Word) : List Char :=
  let printFlags (flag : HeaderFlag) (text : String) : List Char :=
    if kpageflags &&& (1#64 <<< env.headerBit flag) ≠ 0#64 then " [".toList ++ text.toList ++ "]".toList else []
  printFlags .active "ACTIVE" ++ printFlags .dirty "DIRTY" ++ printFlags .locked "LOCKED" ++
    printFlags .lru "LRU" ++ printFlags .mmap "MMAP" ++ printFlags .nopage "NOPAGE" ++
    printFlags .referenced "REFERENCED" ++ printFlags .swapbacked "SWAPBACKED" ++
    printFlags .uptodate "UPTODATE" ++ printFlags .writeback "WRITEBACK"

/-- `describe_addr()`, with the text of the pointer and what `/proc` says about a PFN. -/
def describeAddr (env : Env) (pointer : List Char) (mapcount kpageflags : Word → Word) (pagemap : Word) :
    List Char :=
  pointer ++ ": ".toList ++
    match describe pagemap with
    | .notPresent => "<not present>\n".toList
    | .swapped type offset =>
      "swapped: type=".toList ++ decimal type ++ ", offset=".toList ++ decimal offset ++ "\n".toList
    | .present file pfn softdirty exclusive =>
      (if file then "file".toList else "anon".toList) ++ ": ".toList ++ ("pfn=".toList ++ decimal pfn) ++
        (if softdirty then " [SD]".toList else []) ++ (if exclusive then " [EX]".toList else []) ++
        (" mapped=".toList ++ decimal (mapcount pfn)) ++ describeKpageflags env (kpageflags pfn) ++ "\n".toList

def Described.pfn : Described → Option Word
  | .present _ pfn _ _ => some pfn
  | _ => none

def Described.swap : Described → Option (Word × Word)
  | .swapped type offset => some (type, offset)
  | _ => none

/-- An entry with these bits: the present bit, the swapped bit, the other flags, and the bits below them. -/
def pack (present swapped : Bool) (flags : BitVec 7) (low : BitVec 55) : Word :=
  BitVec.ofBool present ++ BitVec.ofBool swapped ++ flags ++ low

def packPfn (flags : BitVec 7) (pfn : BitVec 55) : Word := pack true false flags pfn

def packSwap (flags : BitVec 7) (type : BitVec 5) (offset : BitVec 50) : Word :=
  pack false true flags (offset ++ type)

/-- What `describe_addr()` prints, in the terms of `pagestat.c`. -/
def addrText (env : Env) (pointer : List Char) (mapcount kpageflags : Word → Word) (val : Word) : List Char :=
  pointer ++ ": ".toList ++
    if checkBit val Pagestat.pagemapSwappedBit then
      "swapped: type=".toList ++ decimal (swapType val) ++ ", offset=".toList ++ decimal (swapOffset val) ++ "\n".toList
    else if getPfn val = Pagestat.invalidValue then "<not present>\n".toList
    else
      (if checkBit val 61 then "file".toList else "anon".toList) ++ ": ".toList ++
        ("pfn=".toList ++ decimal (getPfn val)) ++ (if checkBit val 55 then " [SD]".toList else []) ++
        (if checkBit val 56 then " [EX]".toList else []) ++ (" mapped=".toList ++ decimal (mapcount (getPfn val))) ++
        describeKpageflags env (kpageflags (getPfn val)) ++ "\n".toList

/-- The three decoders say the same about an entry. -/
structure DecodersAgree (val : Word) : Prop where
  pagestat : getPfn val = (describe val).pfn.getD Pagestat.invalidValue
  readPageflags : ReadPageflags.extractPfn val = (describe val).pfn.getD ReadPageflags.invalidValue
  /-- No PFN is taken for none. -/
  pfn : (describe val).pfn ≠ some Pagestat.invalidValue
  swap : (describe val).swap =
    if checkBit val Pagestat.pagemapSwappedBit then some (swapType val, swapOffset val) else none
  /-- What `do_print_mapping()` prints after the flags. -/
  line : ∀ env flags count, mappingText env val flags count = entryText val ++
    match (describe val).swap with
    | some (type, offset) => "swap_type=[".toList ++ (hexadecimal type ++ ']' ::
        (" swap_offset=[".toList ++ (hexadecimal offset ++ ']' :: [' '])))
    | none =>
      match (describe val).pfn with
      | some pfn => Pagestat.pageText env pfn flags count
      | none => []
  addr : ∀ env pointer mapcount kpageflags,
    describeAddr env pointer mapcount kpageflags val = addrText env pointer mapcount kpageflags val

/-- The entry says that the page is present, and has the PFN and the flags. -/
structure DecodesPfn (val : Word) (flags : BitVec 7) (pfn : BitVec 55) : Prop where
  pagestat : getPfn val = pfn.setWidth 64
  readPageflags : ReadPageflags.extractPfn val = pfn.setWidth 64
  describe : describe val = .present (flags.getLsbD 6) (pfn.setWidth 64) (flags.getLsbD 0) (flags.getLsbD 1)
  present : checkBit val Pagestat.pagemapPresentBit = true
  swapped : checkBit val Pagestat.pagemapSwappedBit = false
  flags : ∀ i < 7, checkBit val (55 + i) = flags.getLsbD i

/-- The entry says that the page is swapped out, and has its place and the flags. -/
structure DecodesSwap (val : Word) (flags : BitVec 7) (type : BitVec 5) (offset : BitVec 50) : Prop where
  place : swapType val = type.setWidth 64 ∧ swapOffset val = offset.setWidth 64
  describe : describe val = .swapped (type.setWidth 64) (offset.setWidth 64)
  pagestat : getPfn val = Pagestat.invalidValue
  readPageflags : ReadPageflags.extractPfn val = ReadPageflags.invalidValue
  present : checkBit val Pagestat.pagemapPresentBit = false
  swapped : checkBit val Pagestat.pagemapSwappedBit = true
  flags : ∀ i < 7, checkBit val (55 + i) = flags.getLsbD i

variable {val : Word} {flags : BitVec 7} {present swapped : Bool} {low : BitVec 55}

/-! ## The branches

`pagemap_tour.c` asks for the present bit first. With both bits set it would describe a page where
the other two see swap. -/

/-- A test with a mask of one bit is the one that compares with the mask. -/
theorem and_ne_zero_iff {bit : Nat} (h : bit < 64) (val : Word) :
    val &&& (1#64 <<< bit) ≠ 0#64 ↔ checkBit val bit = true := by
  rw [and_bit_ne_zero_iff h, Pagestat.checkBit_eq_getLsbD h]

/-- Masking and shifting may be done in either order. -/
theorem describeSwapped_eq (val : Word) : describeSwapped val = .swapped (swapType val) (swapOffset val) := by
  have hoffset : (val &&& pagemapPfnMask) >>> pagemapSwapOffsetShift = swapOffset val := by
    have hshift : ((val &&& pagemapPfnMask) >>> pagemapSwapOffsetShift).toNat = val.toNat % 2 ^ 55 / 2 ^ 5 :=
      toNat_and_low_shift (by decide)
    apply BitVec.eq_of_toNat_eq
    rw [hshift, Pagestat.toNat_swapOffset]
    omega
  rw [describeSwapped, hoffset]
  rfl

theorem describe_present (h : checkBit val 63 = true) : describe val =
    .present (checkBit val 61) (val &&& Pagestat.pagemapPfnMask) (checkBit val 55) (checkBit val 56) := by
  have hbit : ∀ bit < 64, decide (val &&& (1#64 <<< bit) ≠ 0#64) = checkBit val bit := by
    intro bit hbit
    rw [Bool.eq_iff_iff, decide_eq_true_eq]
    exact and_ne_zero_iff hbit val
  have hpresent : val &&& pagemapPresent ≠ 0#64 := (and_ne_zero_iff (by decide) val).mpr h
  rw [describe, if_neg (not_not.mpr hpresent)]
  show Described.present (decide (val &&& (1#64 <<< 61) ≠ 0#64)) _ (decide (val &&& (1#64 <<< 55) ≠ 0#64))
    (decide (val &&& (1#64 <<< 56) ≠ 0#64)) = _
  rw [hbit 61 (by decide), hbit 55 (by decide), hbit 56 (by decide)]
  rfl

theorem describe_absent (h : checkBit val 63 = false) : describe val =
    if checkBit val 62 then .swapped (swapType val) (swapOffset val) else .notPresent := by
  have hpresent : ¬val &&& pagemapPresent ≠ 0#64 := by
    intro hne
    have hset : checkBit val 63 = true := (and_ne_zero_iff (by decide) val).mp hne
    rw [h] at hset
    cases hset
  rw [describe, if_pos hpresent, describeSwapped_eq]
  exact if_congr (and_ne_zero_iff (by decide) val) rfl rfl

/-! ## The decoders agree

For all other entries the order of the questions does not matter. -/

/-- The line of a page in terms of what is found about it. -/
theorem mappingText_described (hpfn : getPfn val = (describe val).pfn.getD Pagestat.invalidValue)
    (hvalid : (describe val).pfn ≠ some Pagestat.invalidValue)
    (hswap : (describe val).swap =
      if checkBit val Pagestat.pagemapSwappedBit then some (swapType val, swapOffset val) else none)
    (env : Env) (flags count : Word) : mappingText env val flags count = entryText val ++
      match (describe val).swap with
      | some (type, offset) => "swap_type=[".toList ++ (hexadecimal type ++ ']' ::
          (" swap_offset=[".toList ++ (hexadecimal offset ++ ']' :: [' '])))
      | none =>
        match (describe val).pfn with
        | some pfn => Pagestat.pageText env pfn flags count
        | none => [] := by
  rw [Pagestat.mappingText_eq, hswap, hpfn]
  cases checkBit val Pagestat.pagemapSwappedBit with
  | true => exact congrArg (entryText val ++ ·) (Pagestat.swapText_eq val)
  | false =>
      cases hfound : (describe val).pfn with
      | none => rfl
      | some pfn =>
          rw [hfound] at hvalid
          have hne : pfn ≠ Pagestat.invalidValue := fun e => hvalid (congrArg some e)
          simp [hne]

theorem describeAddr_eq (h : ¬(checkBit val 62 = true ∧ checkBit val 63 = true)) (env : Env) (pointer : List Char)
    (mapcount kpageflags : Word → Word) :
    describeAddr env pointer mapcount kpageflags val = addrText env pointer mapcount kpageflags val := by
  rw [describeAddr, addrText, Pagestat.pagemapSwappedBit]
  congr 1
  cases hpresent : checkBit val 63 with
  | true =>
      have hswapped : checkBit val 62 = false := Bool.eq_false_of_not_eq_true fun hs => h ⟨hs, hpresent⟩
      have hpfn : hasPfn val = true := by
        show (!checkBit val 62 && checkBit val 63) = true
        rw [hswapped, hpresent]
        rfl
      have hget : getPfn val = val &&& Pagestat.pagemapPfnMask := if_pos hpfn
      have hvalid : getPfn val ≠ Pagestat.invalidValue := fun e => by
        rw [Pagestat.getPfn_eq_invalid, hpfn] at e
        cases e
      rw [describe_present hpresent, hswapped, if_neg Bool.false_ne_true, if_neg hvalid, hget]
  | false =>
      have hinvalid : getPfn val = Pagestat.invalidValue := by
        rw [Pagestat.getPfn_eq_invalid]
        show (!checkBit val 62 && checkBit val 63) = false
        rw [hpresent, Bool.and_false]
      rw [describe_absent hpresent, if_pos hinvalid]
      cases checkBit val 62 with
      | true => rfl
      | false => rfl

theorem decodersAgree (h : ¬(val.getLsbD 62 = true ∧ val.getLsbD 63 = true)) : DecodersAgree val := by
  rw [← Pagestat.checkBit_eq_getLsbD (by decide), ← Pagestat.checkBit_eq_getLsbD (by decide)] at h
  have hfound : getPfn val = (describe val).pfn.getD Pagestat.invalidValue ∧
      (describe val).pfn ≠ some Pagestat.invalidValue ∧
      (describe val).swap =
        if checkBit val Pagestat.pagemapSwappedBit then some (swapType val, swapOffset val) else none := by
    cases hpresent : checkBit val 63 with
    | true =>
        have hswapped : checkBit val Pagestat.pagemapSwappedBit = false :=
          Bool.eq_false_of_not_eq_true fun hs => h ⟨hs, hpresent⟩
        have hpfn : hasPfn val = true := by
          rw [hasPfn, hswapped]
          exact hpresent
        have hget : getPfn val = val &&& Pagestat.pagemapPfnMask := if_pos hpfn
        rw [describe_present hpresent, hswapped]
        refine ⟨hget, fun e => ?_, rfl⟩
        rw [← hget] at e
        have hinvalid := Pagestat.getPfn_eq_invalid.mp (Option.some.inj e)
        rw [hpfn] at hinvalid
        cases hinvalid
    | false =>
        have hpfn : hasPfn val = false := by
          rw [hasPfn]
          show (_ && checkBit val 63) = false
          rw [hpresent, Bool.and_false]
        rw [describe_absent hpresent, Pagestat.getPfn_eq_invalid.mpr hpfn]
        show _ = (Described.pfn (if checkBit val Pagestat.pagemapSwappedBit = true then _ else _)).getD _ ∧
          Described.pfn (if checkBit val Pagestat.pagemapSwappedBit = true then _ else _) ≠ _ ∧
          Described.swap (if checkBit val Pagestat.pagemapSwappedBit = true then _ else _) = _
        cases checkBit val Pagestat.pagemapSwappedBit with
        | true => exact ⟨rfl, (Option.some_ne_none _).symm, rfl⟩
        | false => exact ⟨rfl, (Option.some_ne_none _).symm, rfl⟩
  obtain ⟨hpfn, hvalid, hswap⟩ := hfound
  exact ⟨hpfn, (ReadPageflags.extractPfn_eq val).trans hpfn, hvalid, hswap, mappingText_described hpfn hvalid hswap,
    describeAddr_eq h⟩

/-! ## Packed entries

The entry with given parts, and that the three get the parts back. -/

theorem getLsbD_pack_low {i : Nat} (h : i < 55) : (pack present swapped flags low).getLsbD i = low.getLsbD i := by
  rw [pack, BitVec.getLsbD_append, if_pos h]

theorem getLsbD_pack_flags {i : Nat} (h : i < 7) :
    (pack present swapped flags low).getLsbD (55 + i) = flags.getLsbD i := by
  rw [pack, BitVec.getLsbD_append, if_neg (Nat.not_lt.mpr (Nat.le_add_right 55 i)), Nat.add_sub_cancel_left,
    BitVec.getLsbD_append, if_pos h]

theorem getLsbD_pack_swapped : (pack present swapped flags low).getLsbD 62 = swapped := by
  rw [pack, BitVec.getLsbD_append, if_neg (by decide), BitVec.getLsbD_append, if_neg (by decide),
    BitVec.getLsbD_append, if_pos (by decide), BitVec.getLsbD_ofBool]
  rfl

theorem getLsbD_pack_present : (pack present swapped flags low).getLsbD 63 = present := by
  rw [pack, BitVec.getLsbD_append, if_neg (by decide), BitVec.getLsbD_append, if_neg (by decide),
    BitVec.getLsbD_append, if_neg (by decide), BitVec.getLsbD_ofBool]
  rfl

/-- The flags are read as they were packed. -/
theorem checkBit_pack : checkBit (pack present swapped flags low) Pagestat.pagemapPresentBit = present ∧
    checkBit (pack present swapped flags low) Pagestat.pagemapSwappedBit = swapped ∧
    ∀ i < 7, checkBit (pack present swapped flags low) (55 + i) = flags.getLsbD i := by
  refine ⟨?_, ?_, fun i hi => ?_⟩
  · exact (Pagestat.checkBit_eq_getLsbD (by decide) _).trans getLsbD_pack_present
  · exact (Pagestat.checkBit_eq_getLsbD (by decide) _).trans getLsbD_pack_swapped
  · exact (Pagestat.checkBit_eq_getLsbD (by omega) _).trans (getLsbD_pack_flags hi)

/-- So is what is below them. -/
theorem pack_and_low : pack present swapped flags low &&& Pagestat.pagemapPfnMask = low.setWidth 64 := by
  apply BitVec.eq_of_getLsbD_eq
  intro i hi
  rw [Pagestat.pagemapPfnMask, getLsbD_and_low (by decide), BitVec.getLsbD_setWidth, decide_eq_true hi,
    Bool.true_and]
  by_cases h : i < 55
  · rw [decide_eq_true h, Bool.true_and, getLsbD_pack_low h]
  · rw [decide_eq_false h, Bool.false_and, BitVec.getLsbD_of_ge _ _ (Nat.le_of_not_lt h)]

theorem decodesPfn (flags : BitVec 7) (pfn : BitVec 55) : DecodesPfn (packPfn flags pfn) flags pfn := by
  obtain ⟨hpresent, hswapped, hflags⟩ : checkBit (packPfn flags pfn) Pagestat.pagemapPresentBit = true ∧
    checkBit (packPfn flags pfn) Pagestat.pagemapSwappedBit = false ∧
    ∀ i < 7, checkBit (packPfn flags pfn) (55 + i) = flags.getLsbD i := checkBit_pack
  have hlow : packPfn flags pfn &&& Pagestat.pagemapPfnMask = pfn.setWidth 64 := pack_and_low
  have hget : getPfn (packPfn flags pfn) = pfn.setWidth 64 := by
    rw [getPfn, hasPfn, hpresent, hswapped, hlow]
    rfl
  refine ⟨hget, (ReadPageflags.extractPfn_eq _).trans hget, ?_, hpresent, hswapped, hflags⟩
  rw [describe_present hpresent, hlow, ← hflags 6 (by decide), ← hflags 0 (by decide), ← hflags 1 (by decide)]

theorem decodesSwap (flags : BitVec 7) (type : BitVec 5) (offset : BitVec 50) :
    DecodesSwap (packSwap flags type offset) flags type offset := by
  obtain ⟨hpresent, hswapped, hflags⟩ : checkBit (packSwap flags type offset) Pagestat.pagemapPresentBit = false ∧
    checkBit (packSwap flags type offset) Pagestat.pagemapSwappedBit = true ∧
    ∀ i < 7, checkBit (packSwap flags type offset) (55 + i) = flags.getLsbD i := checkBit_pack
  have hget : getPfn (packSwap flags type offset) = Pagestat.invalidValue := by
    rw [getPfn, hasPfn, hpresent, hswapped]
    rfl
  -- Type and offset are what is below the flags.
  have hlow : (packSwap flags type offset).toNat % 2 ^ 55 = offset.toNat * 2 ^ 5 + type.toNat := by
    have hmask : packSwap flags type offset &&& Pagestat.pagemapPfnMask = (offset ++ type).setWidth 64 := pack_and_low
    calc (packSwap flags type offset).toNat % 2 ^ 55
        = (packSwap flags type offset &&& Pagestat.pagemapPfnMask).toNat := (toNat_and_low (by decide)).symm
      _ = (offset ++ type).toNat := by
          rw [hmask, BitVec.toNat_setWidth]
          exact Nat.mod_eq_of_lt (Nat.lt_trans (offset ++ type).isLt (by decide))
      _ = offset.toNat * 2 ^ 5 + type.toNat := by
          rw [BitVec.toNat_append, ← Nat.shiftLeft_add_eq_or_of_lt type.isLt, Nat.shiftLeft_eq]
  have htype : swapType (packSwap flags type offset) = type.setWidth 64 := by
    apply BitVec.eq_of_toNat_eq
    rw [Pagestat.toNat_swapType, BitVec.toNat_setWidth]
    have := type.isLt
    omega
  have hoffset : swapOffset (packSwap flags type offset) = offset.setWidth 64 := by
    apply BitVec.eq_of_toNat_eq
    rw [Pagestat.toNat_swapOffset, BitVec.toNat_setWidth]
    have := offset.isLt
    have := type.isLt
    omega
  refine ⟨⟨htype, hoffset⟩, ?_, hget, (ReadPageflags.extractPfn_eq _).trans hget, hpresent, hswapped, hflags⟩
  rw [describe_absent hpresent, htype, hoffset]
  exact if_pos hswapped

/-- **The decoders agree** on every entry that the kernel can show, and read what was packed. -/
theorem decoders_agree : (∀ val : Word, ¬(val.getLsbD 62 = true ∧ val.getLsbD 63 = true) → DecodersAgree val) ∧
    (∀ flags pfn, DecodesPfn (packPfn flags pfn) flags pfn) ∧
    ∀ flags type offset, DecodesSwap (packSwap flags type offset) flags type offset :=
  ⟨fun _ => decodersAgree, decodesPfn, decodesSwap⟩

/-- A page that is present, one in swap, one that is neither, and entries that were packed. -/
theorem decoders_agree_present :
    DecodersAgree 0x8180000000000005 ∧ DecodersAgree 0x4000000000000063 ∧ DecodersAgree 0 ∧
      DecodesPfn (packPfn 0b1000001 5) 0b1000001 5 ∧ DecodesSwap (packSwap 0b0000001 3 3) 0b0000001 3 3 :=
  ⟨decoders_agree.1 _ (by decide), decoders_agree.1 _ (by decide), decoders_agree.1 _ (by decide),
    decoders_agree.2.1 _ _, decoders_agree.2.2 _ _ _⟩

end MmExper.Random
