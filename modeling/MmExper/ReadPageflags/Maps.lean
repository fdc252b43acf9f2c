import MmExper.Pagestat.Snapshot

/-!
# Looking an address up in `maps`

`read-pageflags.c` finds the line of `/proc/self/maps` for an address and takes it apart. It has its own
copies of the two functions that `pagestat.c` reads address ranges with.
-/

namespace MmExper.ReadPageflags

open Lib

abbrev Word := BitVec 64

def invalidValue : Word := ~~~0#64

/-- `parse_hex()`, the same text as in `pagestat.c`. -/
def parseHex (str : List Char) : Word := Pagestat.parseHex str

/-- `extract_address_range()`, the same text as in `pagestat.c`. -/
def extractAddressRange (str : List Char) (range : Word × Word) : Bool × List Char × Word × Word :=
  Pagestat.extractAddressRangeInto str range

structure MapData where
  perms : List Char
  offset : Word
  inode : Word
  name : List Char
  deriving DecidableEq

/-- After the `memset`. -/
def MapData.zero : MapData := ⟨[], 0, 0, []⟩

/-- The end of `extract_mapdata()`, with what `parse_hex()` says about the offset. -/
def MapData.setOffset (out : MapData) (offset : Word) : Bool × MapData :=
  if offset = invalidValue then (false, { out with offset := 0 }) else (true, { out with offset := offset })

/-- `extract_mapdata()`: what it returns, and the record as it leaves it. -/
def extractMapdata (line : List Char) : Option (Bool × MapData) :=
  match sscanf [.str 255, .str 5, .str 64, .str 64, .ulong, .str 255] line with
  | none => none
  | some [.str _, .str perms, .str offset, .str _, .ulong inode] =>
    some ({ MapData.zero with perms := perms, inode := inode }.setOffset (parseHex offset))
  | some [.str _, .str perms, .str offset, .str _, .ulong inode, .str name] =>
    some ({ MapData.zero with perms := perms, inode := inode, name := name }.setOffset (parseHex offset))
  -- Cannot parse the line.
  | some (.str _ :: .str perms :: _) => some (false, { MapData.zero with perms := perms })
  | some _ => some (false, MapData.zero)

/-- The loop of `read_mapdata()` that finds the line: the range and the line, or nothing, and the lines
left. -/
def findMap (vaddr : Word) (buf : List Char) (range : Word × Word) :
    Pagestat.File → Option (Option (Word × Word × List Char) × Pagestat.File)
  | [] => some (none, [])
  | line :: fp =>
    match sscanf [.str 255] line with
    | none => none
    | some vals =>
      let buf := match vals with
        | [.str w] => w
        | _ => buf
      match extractAddressRange buf range with
      | (false, _, _) => some (none, fp)
      | (true, buf, first, last) =>
        if vaddr ≥ first ∧ vaddr < last then some (some (first, last, line), fp)
        else findMap vaddr buf (first, last) fp

/-- `read_mapdata()`, from what `/proc/self/maps` holds: what it returns, and the record if it is filled in. -/
def readMapdata (maps : Option (List Char)) (vaddr : Word) (buf : List Char) (range : Word × Word) :
    Option (Bool × Option MapData) :=
  match maps with
  -- Cannot open it.
  | none => some (false, none)
  | some text =>
    match findMap vaddr buf range (lines text) with
    | none => none
    | some (none, _) => some (false, none)
    | some (some (_, _, line), _) => (extractMapdata line).map fun r => (r.1, some r.2)

/-! ## Address ranges -/

open Pagestat (Spells) in
/-- **Address ranges decode to what was printed**, and a range that does not decode changes nothing, in both
programs. -/
theorem address_range_printed :
    (∀ first last : Word, first ≠ invalidValue → last ≠ invalidValue →
      ∀ ds ds', Spells ds first → Spells ds' last → ∀ range,
        Pagestat.extractAddressRangeInto (ds ++ '-' :: ds') range = (true, ds, first, last) ∧
        extractAddressRange (ds ++ '-' :: ds') range = (true, ds, first, last)) ∧
    ∀ str range,
      ((Pagestat.extractAddressRangeInto str range).1 = false →
        (Pagestat.extractAddressRangeInto str range).2.2 = range) ∧
      ((extractAddressRange str range).1 = false → (extractAddressRange str range).2.2 = range) := by
  refine ⟨?_, ?_⟩
  · intro first last hfirst hlast ds ds' h h' range
    have hprinted := Pagestat.extractAddressRangeInto_printed h h' hfirst hlast range
    exact ⟨hprinted, hprinted⟩
  · intro str range
    exact ⟨Pagestat.extractAddressRangeInto_failed, Pagestat.extractAddressRangeInto_failed⟩

/-- The page of `vsyscall`, in both cases and with zeros in front, and a text that is no range. -/
theorem address_range_printed_vsyscall :
    extractAddressRange "ffffffffff600000-00FFFFffffFF601000".toList (0, 0) =
        (true, "ffffffffff600000".toList, 0xffffffffff600000, 0xffffffffff601000) ∧
      (extractAddressRange "Size:".toList (1, 2)).2.2 = (1, 2) := by
  refine ⟨(address_range_printed.1 0xffffffffff600000 0xffffffffff601000 (by decide) (by decide)
    "ffffffffff600000".toList "00FFFFffffFF601000".toList ?_ ?_ (0, 0)).2, ?_⟩
  · exact ⟨by decide, forall_mem_of_all (by decide), by decide⟩
  · exact ⟨by decide, forall_mem_of_all (by decide), by decide⟩
  · exact (address_range_printed.2 "Size:".toList (1, 2)).2 (by decide)

open Pagestat (Sound Overlooked sound_extractAddressRangeInto_iff) in
/-- **Malformed ranges**: a string is accepted for what it is, in both programs, unless a side of the dash
has no digits or does not fit in 64 bits. -/
theorem malformed_range_overlooked (str : List Char) (range : Word × Word) :
    (Sound str (Pagestat.extractAddressRangeInto str range) ↔ ¬Overlooked str) ∧
    (Sound str (extractAddressRange str range) ↔ ¬Overlooked str) :=
  ⟨sound_extractAddressRangeInto_iff str range, sound_extractAddressRangeInto_iff str range⟩

open Pagestat (Sound) in
/-- A dash alone, and a numeral of 17 digits. -/
theorem malformed_range_accepted :
    ¬Sound "-".toList (Pagestat.extractAddressRangeInto "-".toList (1, 2)) ∧
    ¬Sound "10000000000000000-1".toList (extractAddressRange "10000000000000000-1".toList (1, 2)) := by
  constructor
  · intro h
    obtain ⟨ds, ds', hstr, hfirst, -⟩ := h (by decide)
    cases ds with
    | nil => exact hfirst.ne_nil rfl
    | cons c ds => simp at hstr
  · intro h
    obtain ⟨ds, ds', hstr, hfirst, -⟩ := h (by decide)
    have hsplit : "10000000000000000".toList ++ '-' :: "1".toList = ds ++ '-' :: ds' := hstr
    obtain ⟨rfl, -⟩ := (List.append_cons_inj_of_notMem (by decide) (by decide)).mp hsplit
    exact absurd hfirst.value (by decide)

end MmExper.ReadPageflags
