import MmExper.Pagestat.Snapshot

/-!
# Well-formed `smaps`

What the kernel writes for one VMA is a block: a header line, lines of fields, and the line of the
flags at the end. The numbers of spaces are left open, and a numeral may have any spelling.
-/

namespace MmExper.Pagestat

open Lib

/-! ## The text -/

/-- A header line, `from-to perms offset dev inode [name]`; no name is an empty one. -/
structure Header where
  first : List Char
  last : List Char
  perms : List Char
  offset : List Char
  dev : List Char
  inode : List Char
  /-- The number of spaces after the inode. -/
  pad : Nat
  name : List Char

/-- A field: `Key: value kB`, `Key: value`, or the flags. -/
inductive Field where
  | kb (key : List Char) (pad : Nat) (value : List Char)
  | plain (key : List Char) (pad : Nat) (value : List Char)
  | vmFlags (flags : List (Char × Char))

def flagsKey : List Char := ['V', 'm', 'F', 'l', 'a', 'g', 's', ':']

structure Block where
  header : Header
  fields : List Field

def Header.range (h : Header) : List Char := h.first ++ '-' :: h.last

def Header.text (h : Header) : List Char :=
  h.range ++ ' ' :: (h.perms ++ ' ' :: (h.offset ++ ' ' :: (h.dev ++ ' ' :: (h.inode ++
    (List.replicate h.pad ' ' ++ h.name)))))

def Field.key : Field → List Char
  | .kb key _ _ => key
  | .plain key _ _ => key
  | .vmFlags _ => flagsKey

/-- The line after its first word, without its newline. -/
def Field.rest : Field → List Char
  | .kb _ pad value => List.replicate (pad + 1) ' ' ++ (value ++ [' ', 'k', 'B'])
  | .plain _ pad value => List.replicate (pad + 1) ' ' ++ value
  | .vmFlags flags => ' ' :: flags.flatMap fun f => [f.1, f.2, ' ']

def Field.value : Field → Option (List Char)
  | .kb _ _ value => some value
  | .plain _ _ value => some value
  | .vmFlags _ => none

/-- The flags with single spaces between them. -/
def mnemonics (flags : List (Char × Char)) : List Char :=
  [' '].intercalate (flags.map fun f => [f.1, f.2])

def Header.line (h : Header) : List Char := h.text ++ ['\n']
def Field.line (f : Field) : List Char := f.key ++ (f.rest ++ ['\n'])

def Block.lines (b : Block) : List (List Char) := b.header.line :: b.fields.map Field.line

def smaps (bs : List Block) : List Char := (bs.flatMap Block.lines).flatten

def Header.addresses (h : Header) : Word × Word :=
  (BitVec.ofNat 64 (numeral 16 h.first), BitVec.ofNat 64 (numeral 16 h.last))

/-! ## What the kernel writes -/

/-- A permission: one of `r`, `w`, `x`, `s`, `p` and `-`. -/
def isPerm (c : Char) : Bool := c ∈ ['r', 'w', 'x', 's', 'p', '-']

structure IsHex (ds : List Char) : Prop where
  ne_nil : ds ≠ []
  digits : ∀ c ∈ ds, isHexDigit c = true
  short : ds.length ≤ 16

structure Header.WellFormed (h : Header) : Prop where
  first : IsHex h.first ∧ numeral 16 h.first < 2 ^ 64 - 1
  last : IsHex h.last ∧ numeral 16 h.last < 2 ^ 64 - 1
  perms : h.perms.length = 4 ∧ ∀ c ∈ h.perms, isPerm c = true
  offset : IsHex h.offset
  /-- Two numbers with a colon in between. -/
  dev : ∃ major minor, IsHex major ∧ IsHex minor ∧ h.dev = major ++ ':' :: minor
  inode : IsDecimal h.inode
  name_line : '\n' ∉ h.name
  name_word : ∀ c ∈ h.name.head?, isSpace c = false ∧ 0 < h.pad

/-- The key of a field ends in a colon and fits the buffer for it. -/
structure IsKey (key : List Char) : Prop where
  word : IsWord key
  colon : key.getLast? = some ':'
  short : key.length < 255
  notFlags : key ≠ flagsKey

def Field.WellFormed : Field → Prop
  | .kb key _ value => IsKey key ∧ IsDecimal value
  | .plain key _ value => IsKey key ∧ IsDecimal value
  -- Two-letter mnemonics, at least one.
  | .vmFlags flags => flags ≠ [] ∧ ∀ f ∈ flags, f.1.isAlpha = true ∧ f.2.isAlpha = true

def Field.isKb : Field → Bool
  | .kb _ _ _ => true
  | _ => false

def Field.isFlags : Field → Bool
  | .vmFlags _ => true
  | _ => false

/-- A block as the kernel writes it: it begins with a field that has a unit, `Size`, and ends with the
flags, which come only there. -/
structure Block.WellFormed (b : Block) : Prop where
  header : b.header.WellFormed
  fields : ∀ f ∈ b.fields, f.WellFormed
  unit_first : ∃ f fs, b.fields = f :: fs ∧ f.isKb = true
  flags_last : ∃ fs f, b.fields = fs ++ [f] ∧ f.isFlags = true ∧ ∀ g ∈ fs, g.isFlags = false

/-- The first word of the pathname, which is what is read of it, fits the buffer for it. -/
def Header.NameFits (h : Header) : Prop := (h.name.takeWhile (!isSpace ·)).length < 255

instance (h : Header) : Decidable h.NameFits := inferInstanceAs (Decidable (_ < _))

end MmExper.Pagestat
