import MmExper.Lib.Numerals
import MmExper.Pagestat.Lines
import MmExper.ReadPageflags.Maps

/-!
# Header lines there and back

The kernel writes one line for a VMA, and both programs take it apart again. What comes after the inode is
the pathname, and it may be anything that has no newline; the parsers read one word of it.
-/

namespace MmExper.ReadPageflags

open Lib
open Pagestat (Header IsHex isPerm isHexDigit)

/-! ## Records -/

structure VmaRecord where
  vmStart : Word
  vmEnd : Word
  perms : List Char
  offset : Word
  major : Word
  minor : Word
  inode : Word
  name : List Char

structure VmaRecord.WellFormed (r : VmaRecord) : Prop where
  start : r.vmStart ≠ invalidValue
  last : r.vmEnd ≠ invalidValue
  perms : r.perms.length = 4 ∧ ∀ c ∈ r.perms, isPerm c = true
  /-- A newline in a pathname is written in another way. -/
  name_line : '\n' ∉ r.name
  name_head : ∀ c ∈ r.name.head?, isSpace c = false

/-- Its line, `%08lx-%08lx %s %08lx %02lx:%02lx %lu` and the pathname after some spaces. -/
def VmaRecord.header (r : VmaRecord) (pad : Nat) : Header where
  first := hexadecimalTo 8 r.vmStart
  last := hexadecimalTo 8 r.vmEnd
  perms := r.perms
  offset := hexadecimalTo 8 r.offset
  dev := hexadecimalTo 2 r.major ++ ':' :: hexadecimalTo 2 r.minor
  inode := decimal r.inode
  pad := pad + 1
  name := r.name

variable {r : VmaRecord} {v : Word} {width pad : Nat}

/-! ## Numerals -/

theorem isHexDigit_digitChar : ∀ d < 16, isHexDigit (Nat.digitChar d) = true := by
  decide

theorem isHexDigit_of_mem_hexadecimalTo {c : Char} (hc : c ∈ hexadecimalTo width v) :
    isHexDigit c = true := by
  rcases List.mem_append.mp hc with hc | hc
  · rw [List.eq_of_mem_replicate hc]
    rfl
  · exact forall_mem_toDigits (p := fun c => isHexDigit c = true) (by decide) isHexDigit_digitChar c hc

theorem isHex_hexadecimalTo (hw : width ≤ 16) : IsHex (hexadecimalTo width v) :=
  ⟨hexadecimalTo_ne_nil, fun _ hc => isHexDigit_of_mem_hexadecimalTo hc, length_hexadecimalTo hw⟩

theorem spells_hexadecimalTo (width : Nat) (v : Word) : Pagestat.Spells (hexadecimalTo width v) v :=
  ⟨hexadecimalTo_ne_nil, fun _ hc => isHexDigit_of_mem_hexadecimalTo hc, numeral_hexadecimalTo⟩

theorem parseHex_hexadecimalTo : Pagestat.parseHex (hexadecimalTo width v) = v := by
  have hspells : Pagestat.Spells (hexadecimalTo width v) v := spells_hexadecimalTo width v
  rw [Pagestat.parseHex_numeral hspells.digits, hspells.ofNat_numeral]

theorem ulongVal_decimal : ulongVal (decimal v) = v := by
  have hnum : numeral 10 (decimal v) = v.toNat := numeral_toDigits
  rw [ulongVal, hnum, if_pos v.isLt, BitVec.ofNat_toNat, BitVec.setWidth_eq]

/-! ## Lines -/

/-- The line of a VMA is a header line. -/
theorem VmaRecord.WellFormed.header (h : r.WellFormed) (pad : Nat) : (r.header pad).WellFormed where
  first := ⟨isHex_hexadecimalTo (by decide), ((spells_hexadecimalTo 8 r.vmStart).isAddress h.start).lt⟩
  last := ⟨isHex_hexadecimalTo (by decide), ((spells_hexadecimalTo 8 r.vmEnd).isAddress h.last).lt⟩
  perms := h.perms
  offset := isHex_hexadecimalTo (by decide)
  dev := ⟨_, _, isHex_hexadecimalTo (by decide), isHex_hexadecimalTo (by decide), rfl⟩
  inode := isDecimal_decimal
  name_line := h.name_line
  name_word := fun c hc => ⟨h.name_head c hc, Nat.succ_pos pad⟩

/-- The pathname is what the last conversion can read: one word, shorter than the buffer. -/
def VmaRecord.OneWord (r : VmaRecord) : Prop := (∀ c ∈ r.name, isSpace c = false) ∧ r.name.length < 255

instance (r : VmaRecord) : Decidable r.OneWord := inferInstanceAs (Decidable (_ ∧ _))

theorem takeWhile_word_eq_self {w : List Char} :
    w.takeWhile (!isSpace ·) = w ↔ ∀ c ∈ w, isSpace c = false := by
  rw [List.takeWhile_eq_self_iff]
  simp only [Bool.not_eq_true']

/-- The first word of a pathname is all of it, and fits, exactly if it is one word. -/
theorem VmaRecord.oneWord_iff (r : VmaRecord) (pad : Nat) : r.OneWord ↔
    (r.header pad).NameFits ∧ r.name.takeWhile (!isSpace ·) = r.name := by
  rw [VmaRecord.OneWord, ← takeWhile_word_eq_self]
  constructor
  · rintro ⟨hword, hlen⟩
    refine ⟨?_, hword⟩
    show (r.name.takeWhile (!isSpace ·)).length < 255
    rwa [hword]
  · rintro ⟨hfits, hword⟩
    have hfits : (r.name.takeWhile (!isSpace ·)).length < 255 := hfits
    rw [hword] at hfits
    exact ⟨hword, hfits⟩

/-! ## What should come back -/

def freshPageStat (r : VmaRecord) : Pagestat.PageStat :=
  { Pagestat.PageStat.zero with vmaStart := r.vmStart, vmaEnd := r.vmEnd }

/-- `extract_address_range` and `get_smap_header_fields` recover the record from the line. -/
def SmapHeaderRecovered (r : VmaRecord) (line : List Char) : Prop :=
  ∃ range str, sscanf [.str 255] line = some [.str range] ∧
    Pagestat.extractAddressRange range = (str, some (r.vmStart, r.vmEnd)) ∧
    Pagestat.getSmapHeaderFields (freshPageStat r) line = some (some
      { freshPageStat r with
        perms := r.perms
        offset := r.offset
        name := if r.name = [] then none else some r.name })

def MapdataRecovered (r : VmaRecord) (line : List Char) : Prop :=
  extractMapdata line = some (true, ⟨r.perms, r.offset, r.inode, r.name⟩)

/-- The range of the line is always read. -/
theorem VmaRecord.WellFormed.range (h : r.WellFormed) (pad : Nat) :
    sscanf [.str 255] (r.header pad).line = some [.str (r.header pad).range] ∧
      Pagestat.extractAddressRange (r.header pad).range =
        (hexadecimalTo 8 r.vmStart, some (r.vmStart, r.vmEnd)) := by
  refine ⟨(h.header pad).sscanf_range [], ?_⟩
  have hinto := Pagestat.extractAddressRange_printed
    ((spells_hexadecimalTo 8 r.vmStart).isAddress h.start) ((spells_hexadecimalTo 8 r.vmEnd).isAddress h.last)
  rw [(spells_hexadecimalTo 8 r.vmStart).ofNat_numeral, (spells_hexadecimalTo 8 r.vmEnd).ofNat_numeral] at hinto
  exact hinto

/-- `pagestat` recovers a pathname of one word. -/
theorem VmaRecord.WellFormed.smapHeaderRecovered_iff (h : r.WellFormed) (pad : Nat) :
    SmapHeaderRecovered r (r.header pad).line ↔ r.OneWord := by
  have hfields := (h.header pad).getSmapHeaderFields (freshPageStat r)
  rw [r.oneWord_iff pad]
  constructor
  · rintro ⟨_, _, -, -, hread⟩
    rw [hfields] at hread
    split at hread
    · next hfits =>
      refine ⟨hfits, ?_⟩
      have hname := congrArg Pagestat.PageStat.name (Option.some.inj (Option.some.inj hread))
      by_cases hn : r.name = []
      · rw [hn]
        rfl
      · have hn' : (r.header pad).name ≠ [] := hn
        rw [if_neg hn, if_neg hn'] at hname
        exact Option.some.inj hname
    · cases hread
  · rintro ⟨hfits, hword⟩
    obtain ⟨hrange, haddr⟩ := h.range pad
    refine ⟨_, _, hrange, haddr, ?_⟩
    have hoffset : Pagestat.parseHex (r.header pad).offset = r.offset := parseHex_hexadecimalTo
    have hword : (r.header pad).name.takeWhile (!isSpace ·) = r.name := hword
    rw [hfields, if_pos hfits, hoffset, hword]
    rfl

/-- `read-pageflags` does so too, unless the offset is the one it takes for an error. -/
theorem VmaRecord.WellFormed.mapdataRecovered_iff (h : r.WellFormed) (pad : Nat) :
    MapdataRecovered r (r.header pad).line ↔ r.OneWord ∧ r.offset ≠ invalidValue := by
  have hoffset : parseHex (r.header pad).offset = r.offset := parseHex_hexadecimalTo
  have hinode : ulongVal (r.header pad).inode = r.inode := ulongVal_decimal
  -- Whether there is a name or not, its first word is stored.
  have hread : extractMapdata (r.header pad).line = if (r.header pad).NameFits then
      some (MapData.setOffset ⟨r.perms, 0, r.inode, r.name.takeWhile (!isSpace ·)⟩ r.offset) else none := by
    rw [extractMapdata, (h.header pad).sscanf_line]
    by_cases hf : (r.header pad).NameFits
    · by_cases hn : r.name = []
      · have hn' : (r.header pad).name = [] := hn
        simp only [if_pos hf, if_pos hn', hoffset, hinode, hn]
        rfl
      · have hn' : (r.header pad).name ≠ [] := hn
        simp only [if_pos hf, if_neg hn', hoffset, hinode]
        rfl
    · simp only [if_neg hf]
  rw [MapdataRecovered, hread, r.oneWord_iff pad]
  by_cases hf : (r.header pad).NameFits
  · rw [if_pos hf, MapData.setOffset]
    by_cases hv : r.offset = invalidValue
    · simp [hv]
    · simp [hv, hf]
  · simp [hf]

def HeaderRecovered (r : VmaRecord) (line : List Char) : Prop :=
  SmapHeaderRecovered r line ∧ MapdataRecovered r line

/-- **A header line is recovered** by both parsers exactly if its pathname is one word that is shorter than
their buffers, and the offset is not `INVALID_VALUE`. -/
theorem header_recovered_iff (h : r.WellFormed) (pad : Nat) :
    HeaderRecovered r (r.header pad).line ↔
      ((∀ c ∈ r.name, isSpace c = false) ∧ r.name.length < 255) ∧ r.offset ≠ invalidValue := by
  rw [HeaderRecovered, h.smapHeaderRecovered_iff pad, h.mapdataRecovered_iff pad]
  constructor
  · rintro ⟨-, h⟩
    exact h
  · intro h
    exact ⟨h.1, h⟩

/-- A mapping of a program, and one with a name of its own. -/
def libc : VmaRecord :=
  ⟨0x7f1c40a28000, 0x7f1c40bb0000, "r-xp".toList, 0x28000, 8, 2, 135522, "/usr/lib/libc.so.6".toList⟩

def named : VmaRecord :=
  ⟨0x7f1c40a28000, 0x7f1c40bb0000, "rw-p".toList, 0, 0, 0, 0, "[anon: my region]".toList⟩

theorem header_recovered_libc : HeaderRecovered libc (libc.header 21).line := by
  have hhead : ∀ c ∈ libc.name.head?, isSpace c = false := by
    intro c hc
    cases hc
    rfl
  have hwf : libc.WellFormed := ⟨by decide, by decide, ⟨by decide, forall_mem_of_all (by decide)⟩, by decide, hhead⟩
  exact (header_recovered_iff hwf 21).mpr ⟨⟨forall_mem_of_all (by decide), by decide⟩, by decide⟩

/-- Of the name only its first word comes back. -/
theorem header_not_recovered :
    (named.header 21).line =
      "7f1c40a28000-7f1c40bb0000 rw-p 00000000 00:00 0                      [anon: my region]\n".toList ∧
    (extractMapdata (named.header 21).line).map (fun r => r.2.name) = some "[anon:".toList ∧
    ¬∀ r : VmaRecord, r.WellFormed → ∀ pad, HeaderRecovered r (r.header pad).line := by
  refine ⟨by decide, by decide, fun hall => ?_⟩
  have hhead : ∀ c ∈ named.name.head?, isSpace c = false := by
    intro c hc
    cases hc
    rfl
  have hwf : named.WellFormed := ⟨by decide, by decide, ⟨by decide, forall_mem_of_all (by decide)⟩, by decide, hhead⟩
  have hword : extractMapdata (named.header 21).line = some (true, ⟨"rw-p".toList, 0, 0, "[anon:".toList⟩) := by
    decide
  have hread : extractMapdata (named.header 21).line = _ := (hall named hwf 21).2
  rw [hword] at hread
  exact absurd hread (by decide)

end MmExper.ReadPageflags
