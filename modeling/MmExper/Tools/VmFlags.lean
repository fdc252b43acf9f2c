import MmExper.Lib.Masks
import MmExper.Lib.Numerals
import MmExper.Bitwise

/-!
# Two decoders of VMA flags

`tools/vm_flags.cc` and `random/shared.c` have the same list of names. The one puts it into an ordered map,
where the first name of a value stays, and the other goes over it as it stands. Of two names for one bit,
`VM_MAYWRITE` and `VM_PKEY_SHIFT`, both report the first one only.
-/

namespace MmExper.Tools

open Lib

def bit (n : Nat) : Word := 1#64 <<< n

/-- `VM_PKEY_SHIFT` is the number of a bit, `VM_HIGH_ARCH_BIT_0`, unlike the other flags. -/
def vmPkeyShift : Word := 32

/-- The names, in the order in which both files have them. -/
def flagNames : List (Word × String) := [
  (0x00000001, "VM_READ"),
  (0x00000002, "VM_WRITE"),
  (0x00000004, "VM_EXEC"),
  (0x00000008, "VM_SHARED"),
  (0x00000010, "VM_MAYREAD"),
  (0x00000020, "VM_MAYWRITE"),
  (0x00000040, "VM_MAYEXEC"),
  (0x00000080, "VM_MAYSHARE"),
  (0x00000100, "VM_GROWSDOWN"),
  (0x00000200, "VM_UFFD_MISSING"),
  (0x00000400, "VM_PFNMAP"),
  (0x00001000, "VM_UFFD_WP"),
  (0x00002000, "VM_LOCKED"),
  (0x00004000, "VM_IO"),
  (0x00008000, "VM_SEQ_READ"),
  (0x00010000, "VM_RAND_READ"),
  (0x00020000, "VM_DONTCOPY"),
  (0x00040000, "VM_DONTEXPAND"),
  (0x00080000, "VM_LOCKONFAULT"),
  (0x00100000, "VM_ACCOUNT"),
  (0x00200000, "VM_NORESERVE"),
  (0x00400000, "VM_HUGETLB"),
  (0x00800000, "VM_SYNC"),
  (0x02000000, "VM_WIPEONFORK"),
  (0x04000000, "VM_DONTDUMP"),
  (0x08000000, "VM_SOFTDIRTY"),
  (0x10000000, "VM_MIXEDMAP"),
  (0x20000000, "VM_HUGEPAGE"),
  (0x40000000, "VM_NOHUGEPAGE"),
  (0x80000000, "VM_MERGEABLE"),
  (vmPkeyShift, "VM_PKEY_SHIFT"),
  (bit 32, "VM_PKEY_BIT0"),
  (bit 33, "VM_PKEY_BIT1"),
  (bit 34, "VM_PKEY_BIT2"),
  (bit 35, "VM_PKEY_BIT3"),
  (bit 36, "VM_PKEY_BIT4"),
  (0x01000000, "VM_PAT"),
  (bit 37, "VM_UFFD_MINOR")]

/-- Insert into a `std::map`: an entry that is there stays. -/
def mapInsert (entry : Word × String) : List (Word × String) → List (Word × String)
  | [] => [entry]
  | e :: map =>
    if entry.1 < e.1 then entry :: e :: map
    else if entry.1 = e.1 then e :: map
    else e :: mapInsert entry map

/-- `flag_map` of `vm_flags.cc`, in the order of its iterator. -/
def flagMap : List (Word × String) := flagNames.foldl (fun map entry => mapInsert entry map) []

/-- `flags_map` of `shared.c`. -/
def flagsMap : List (Word × String) := flagNames

def namesText (found : List (Word × String)) : List Char := found.flatMap fun r => r.2.toList ++ " ".toList

/-- `print_vma_flags()` of `vm_flags.cc`. -/
def printVmaFlags (flags : Word) : List Char :=
  if flags = 0#64 then "VM_NONE\n".toList
  else
    let (found, flags) := takeMasks flagMap flags
    namesText found ++ "\n".toList ++
      if flags ≠ 0#64 then "INVALID: ".toList ++ decimal flags ++ " remains.\n".toList else []

/-- `print_vma_flags()` of `shared.c`. -/
def printVmaFlagsShared (flags : Word) : List Char :=
  if flags = 0#64 then "VM_NONE\n".toList
  else
    let (found, flags) := takeMasks flagsMap flags
    namesText found ++ (if flags ≠ 0#64 then "(invalid: ".toList ++ decimal flags ++ " remain)".toList else []) ++
      "\n".toList

/-- What is found and what is left give back the flags, without overlaps and with every name once, and no bit
that has a name is left. -/
structure Exact (flags : Word) (found : List (Word × String)) (rest : Word) : Prop where
  names : ∀ r ∈ found, r ∈ flagNames
  once : (found.map Prod.snd).Nodup
  subset : ∀ r ∈ found, flags &&& r.1 = r.1
  disjoint : found.Pairwise fun r s => r.1 &&& s.1 = 0#64
  apart : ∀ r ∈ found, r.1 &&& rest = 0#64
  union : found.foldr (fun r y => r.1 ||| y) rest = flags
  named : ∀ t ∈ flagNames, t.1 &&& rest = 0#64

variable {flags : Word} {table : List (Word × String)}

/-! ## Both tables

The two tables have the same bits, and for each bit the same name comes first. So they decode a word
alike. -/

theorem isBit_flagNames : ∀ t ∈ flagNames, IsBit t.1 := by
  decide +kernel

theorem nodup_flagNames : (flagNames.map Prod.snd).Nodup := by
  decide +kernel

/-- The map has all entries but one. -/
theorem flagMap_subset : ∀ t ∈ flagMap, t ∈ flagNames := by
  decide +kernel

theorem nodup_flagMap : (flagMap.map Prod.snd).Nodup := by
  decide +kernel

/-- Its bits are the same ones. -/
theorem flagMap_bits : flagMap.foldr (fun t y => t.1 ||| y) 0#64 = flagNames.foldr (fun t y => t.1 ||| y) 0#64 := by
  decide +kernel

/-- So are the first names of its bits. -/
theorem flagMap_first : ∀ r ∈ flagMap, flagMap.find? (fun t => t.1 = r.1) = some r →
    flagNames.find? (fun t => t.1 = r.1) = some r := by
  decide +kernel

theorem flagNames_first : ∀ r ∈ flagNames, flagNames.find? (fun t => t.1 = r.1) = some r →
    flagMap.find? (fun t => t.1 = r.1) = some r := by
  decide +kernel

/-- A table of the same bits decodes exactly. -/
theorem exact_takeMasks (hsub : ∀ t ∈ table, t ∈ flagNames) (hnodup : (table.map Prod.snd).Nodup)
    (hrest : (takeMasks table flags).2 = (takeMasks flagNames flags).2) :
    Exact flags (takeMasks table flags).1 (takeMasks table flags).2 where
  names r hr := hsub r ((takeMasks_sublist table flags).subset hr)
  once := ((takeMasks_sublist table flags).map Prod.snd).nodup hnodup
  subset := (takeMasks_subset table flags).1
  disjoint := (takeMasks_disjoint table flags).1
  apart := (takeMasks_disjoint table flags).2
  union := takeMasks_union table flags
  named := by
    rw [hrest]
    exact takeMasks_named isBit_flagNames flags

/-- **Both decoders report the same flags** and the same remainder, which are the input again. -/
theorem vma_flags_decoded (h : flags ≠ 0#64) : ∃ found found' rest,
    printVmaFlags flags = namesText found ++ "\n".toList ++
      (if rest ≠ 0#64 then "INVALID: ".toList ++ decimal rest ++ " remains.\n".toList else []) ∧
    printVmaFlagsShared flags = namesText found' ++
      (if rest ≠ 0#64 then "(invalid: ".toList ++ decimal rest ++ " remain)".toList else []) ++ "\n".toList ∧
    (∀ r, r ∈ found ↔ r ∈ found') ∧ Exact flags found rest ∧ Exact flags found' rest := by
  have hbits : ∀ t ∈ flagMap, IsBit t.1 := fun t ht => isBit_flagNames t (flagMap_subset t ht)
  have hrest : (takeMasks flagMap flags).2 = (takeMasks flagNames flags).2 := by
    rw [takeMasks_rest hbits, takeMasks_rest isBit_flagNames, flagMap_bits]
  refine ⟨(takeMasks flagMap flags).1, (takeMasks flagsMap flags).1, (takeMasks flagMap flags).2, ?_, ?_, ?_, ?_, ?_⟩
  · rw [printVmaFlags, if_neg h]
  · rw [printVmaFlagsShared, if_neg h, hrest]
    rfl
  · exact mem_takeMasks_congr hbits isBit_flagNames flagMap_first flagNames_first flags
  · exact exact_takeMasks flagMap_subset nodup_flagMap hrest
  · rw [hrest]
    exact exact_takeMasks (fun _ ht => ht) nodup_flagNames rfl

/-- The bit with two names, and one without. -/
theorem vma_flags_decoded_maywrite : ∃ found found' rest,
    printVmaFlags 0x820 = namesText found ++ "\n".toList ++
      (if rest ≠ 0#64 then "INVALID: ".toList ++ decimal rest ++ " remains.\n".toList else []) ∧
    printVmaFlagsShared 0x820 = namesText found' ++
      (if rest ≠ 0#64 then "(invalid: ".toList ++ decimal rest ++ " remain)".toList else []) ++ "\n".toList ∧
    (∀ r, r ∈ found ↔ r ∈ found') ∧ Exact 0x820 found rest ∧ Exact 0x820 found' rest :=
  vma_flags_decoded (by decide)

example : printVmaFlags 0x820 = "VM_MAYWRITE \nINVALID: 2048 remains.\n".toList := by decide +kernel

end MmExper.Tools
