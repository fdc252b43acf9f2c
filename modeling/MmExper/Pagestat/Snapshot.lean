import MmExper.Pagestat.Address

/-!
# Taking snapshots

`pagestat.c` reads `/proc/$pid/smaps` line by line: a header line for a VMA, field lines after it, and
then what `/proc/$pid/pagemap` says about its pages. A `FILE` is the list of the lines still to be
read. A function returns nothing when `sscanf` writes past the end of a buffer, since everything is
undefined then.

The buffers of a loop are not initialised, and an `sscanf` that fails leaves them as they are. They are
arguments here, and a conversion that assigns nothing keeps what they hold.
-/

namespace MmExper.Pagestat

open Lib

def maxMaps : Nat := 8192

/-- The lines of an open file that have not been read. -/
abbrev File := List (List Char)

structure PageStat where
  vmaStart : Word
  vmaEnd : Word
  perms : List Char
  offset : Word
  name : Option (List Char)
  vmSize : Word
  rss : Word
  /-- Did we manually count entries? -/
  rssCounted : Bool
  referenced : Word
  anon : Word
  anonHuge : Word
  swap : Word
  locked : Word
  vmFlags : Option (List Char)
  pagemaps : List Word
  kpagecounts : List Word
  kpageflags : List Word
  deriving DecidableEq

/-- What `calloc` returns for a `struct pagestat`. -/
def PageStat.zero : PageStat where
  vmaStart := 0
  vmaEnd := 0
  perms := []
  offset := 0
  name := none
  vmSize := 0
  rss := 0
  rssCounted := false
  referenced := 0
  anon := 0
  anonHuge := 0
  swap := 0
  locked := 0
  vmFlags := none
  pagemaps := []
  kpagecounts := []
  kpageflags := []

/-- A file of 64-bit values: nothing if it cannot be opened, and nothing for a value that cannot be
read. -/
abbrev ValueFile := Option (Nat → Option Word)

/-- What the system answers. -/
structure Proc where
  smaps : Option (List Char)
  pagemap : ValueFile
  kpagecount : ValueFile
  kpageflags : ValueFile
  /-- `getpagesize()`. -/
  pageSize : Word

/-- What the buffers of a call hold before anything is assigned to them. -/
structure Junk where
  buf : List Char
  key : List Char
  size : Word
  unit : List Char

/-! ## Header lines -/

def isSmapHeaderField (line : List Char) : Bool := line.getLast? ≠ some ':'

def getSmapHeaderFields (ms : PageStat) (line : List Char) : Option (Option PageStat) :=
  match sscanf [.str 255, .str 5, .str 64, .str 64, .ulong, .str 255] line with
  | none => none
  | some [.str _, .str perms, .str offset, .str _, .ulong _] =>
    some (some { ms with offset := parseHex offset, perms := perms })
  | some [.str _, .str perms, .str offset, .str _, .ulong _, .str name] =>
    some (some { ms with offset := parseHex offset, perms := perms, name := some name })
  -- Can't parse smap header line.
  | some _ => some none

/-! ## Field lines -/

/-- The buffers of the field loop after its `sscanf`. -/
def scanField (b : Junk) (line : List Char) : Option Junk :=
  match sscanf [.str 255, .ulong, .str 16] line with
  | none => none
  | some [.str key] => some { b with key := key }
  | some [.str key, .ulong size] => some { b with key := key, size := size }
  | some [.str key, .ulong size, .str unit] =>
    some { b with key := key, size := size, unit := unit }
  | some _ => some b

/-- The loop over `count` that drops trailing newlines and spaces of the flags. -/
def flagsCount (line : List Char) : Nat → Nat
  | 0 => 0
  | count + 1 =>
    let chr := line.getD (10 + count) '\n'
    if chr ≠ '\n' ∧ chr ≠ ' ' then count + 1 else flagsCount line count

/-- The text of `vm_flags`, if there are any flags: `offset` is `sizeof("VmFlags: ")`, ten. -/
def flagsText (line : List Char) : Option (List Char) :=
  let count := flagsCount line (line.length - 10)
  if count = 0 then none else some ((line.drop 9).take (count + 1))

/-- The chain of `strncmp`s: nothing for `false`. -/
def setField (ms : PageStat) (b : Junk) (line : List Char) : Option PageStat :=
  if b.key = "Size:".toList then some { ms with vmSize := b.size }
  else if b.key = "Rss:".toList then some { ms with rss := b.size }
  else if b.key = "Referenced:".toList then some { ms with referenced := b.size }
  else if b.key = "Anonymous:".toList then some { ms with anon := b.size }
  else if b.key = "AnonHugePages:".toList then some { ms with anonHuge := b.size }
  else if b.key = "Swap:".toList then some { ms with swap := b.size }
  else if b.key = "Locked:".toList then some { ms with locked := b.size }
  else if b.key = "VmFlags:".toList then
    (flagsText line).map fun flags => { ms with vmFlags := some flags }
  else some ms

/-- `get_smap_other_fields()`: the record (nothing for `false`) and the lines left. The line that ends
the loop has been read. -/
def getSmapOtherFields (ms : PageStat) (b : Junk) : File → Option (Option PageStat × File)
  | [] => some (some ms, [])
  | line :: fp =>
    match scanField b line with
    | none => none
    | some b =>
      -- Unrecognised unit.
      if b.unit ≠ "kB".toList then some (none, fp)
      else if isSmapHeaderField b.key then some (some ms, fp)
      else
        match setField ms b line with
        | none => some (none, fp)
        | some ms => getSmapOtherFields ms b fp

/-! ## Page tables -/

def pagemapSwappedBit : Nat := 62
def pagemapPresentBit : Nat := 63
def pagemapPfnMask : Word := (1#64 <<< 55) - 1#64

def checkBit (val : Word) (bit : Nat) : Bool := val &&& (1#64 <<< bit) = 1#64 <<< bit

def hasPfn (val : Word) : Bool := !checkBit val pagemapSwappedBit && checkBit val pagemapPresentBit

def getPfn (val : Word) : Word := if hasPfn val then val &&& pagemapPfnMask else invalidValue

def countVirtPages (pageSize : Word) (ps : PageStat) : Word := ps.vmSize * 1024#64 / pageSize

def readU64s (file : ValueFile) (offset count : Nat) : Option (List Word) :=
  file.bind fun values => (List.range count).mapM fun i => values (offset + i)

def readU64 (file : ValueFile) (offset : Nat) : Word :=
  match readU64s file offset 1 with
  | some [ret] => ret
  | _ => invalidValue

def tweakCounts (pageSize : Word) (ps : PageStat) : PageStat :=
  let pagecount := BitVec.ofNat 64 (ps.pagemaps.countP hasPfn)
  let rssKib := pagecount * pageSize / 1024#64
  if ps.rss = rssKib then ps else { ps with rss := rssKib, rssCounted := true }

/-- The value of a page table file for each page that has a PFN, and zero for the others. -/
def pfnValues (file : ValueFile) (pagemaps : List Word) : List Word :=
  pagemaps.map fun entry =>
    if getPfn entry = invalidValue then 0#64 else readU64 file (getPfn entry).toNat

/-- `get_pagetable_fields()`: nothing for `false`. -/
def getPagetableFields (proc : Proc) (ps : PageStat) : Option PageStat :=
  let count := countVirtPages proc.pageSize ps
  let offset := ps.vmaStart / proc.pageSize
  (readU64s proc.pagemap offset.toNat count.toNat).map fun pagemaps =>
    tweakCounts proc.pageSize
      { ps with
        pagemaps := pagemaps
        kpagecounts := pfnValues proc.kpagecount pagemaps
        kpageflags := pfnValues proc.kpageflags pagemaps }

/-! ## Snapshots -/

/-- The loop of `get_pagestat_snapshot()` that finds the start of the block: the range and the header
line, or nothing, and the lines left. -/
def findHeader (vaddr : Word) (buf : List Char) :
    File → Option (Option (Word × Word × List Char) × File)
  | [] => some (none, [])
  | line :: fp =>
    match sscanf [.str 255] line with
    | none => none
    | some vals =>
      let buf := match vals with
        | [.str w] => w
        | _ => buf
      if !isSmapHeaderField buf then findHeader vaddr buf fp
      else
        match extractAddressRange buf with
        | (_, none) => some (none, fp)
        | (buf, some (first, last)) =>
          -- `INVALID_VALUE` implies get first.
          if vaddr = invalidValue ∨ vaddr ≥ first ∧ vaddr < last then
            some (some (first, last, line), fp)
          else findHeader vaddr buf fp

/-- `get_pagestat_snapshot()`: the record (nothing for `NULL`) and the file as it is left. -/
def getPagestatSnapshot (proc : Proc) (junk : Junk) (fp : Option File) (vaddr : Word) :
    Option (Option PageStat × Option File) :=
  match fp with
  | none => some (none, none)
  | some fp =>
    match findHeader vaddr junk.buf fp with
    | none => none
    | some (none, fp) => some (none, some fp)
    | some (some (first, last, line), fp) =>
      match getSmapHeaderFields { PageStat.zero with vmaStart := first, vmaEnd := last } line with
      | none => none
      | some none => some (none, some fp)
      | some (some ret) =>
        match getSmapOtherFields ret junk fp with
        | none => none
        | some (none, fp) => some (none, some fp)
        | some (some ret, fp) => some (getPagetableFields proc ret, some fp)

/-- The loop of `pagestat_snapshot_all()` with `n` iterations left: the entries before the first
`NULL`, or nothing inside when there are too many. -/
def snapshots (proc : Proc) (junk : Nat → Junk) (fp : Option File) :
    Nat → Option (Option (List PageStat))
  | 0 => some none
  | n + 1 =>
    match getPagestatSnapshot proc (junk n) fp invalidValue with
    | none => none
    | some (none, _) => some (some [])
    | some (some ps, fp) => (snapshots proc junk fp n).map fun r => r.map (ps :: ·)

def pagestatSnapshotAll (proc : Proc) (junk : Nat → Junk) : Option (Option (List PageStat)) :=
  snapshots proc junk (proc.smaps.map lines) maxMaps

end MmExper.Pagestat
