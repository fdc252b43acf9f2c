import MmExper.Lib.CharDevice
import MmExper.Pagestat.Entry
import MmExper.ReadPageflags.Maps

/-!
# Printing page flags

`read-pageflags.c` prints a line for one page: the permissions of its VMA, the flags of its pagemap entry,
its PFN, its counts, and its page flags under their full names. It has its own copy of the bits.
-/

namespace MmExper.ReadPageflags

open Lib
open Pagestat (Env Kpf checkBit flagged)

def pagemapSoftDirtyBit : Nat := 55
def pagemapExclusivelyMappedBit : Nat := 56
def pagemapFilePageShAnonBit : Nat := 61
def pagemapSwappedBit : Nat := 62
def pagemapPresentBit : Nat := 63
def pagemapPfnMask : Word := (1#64 <<< 55) - 1#64

def extractPfn (val : Word) : Word :=
  if val = invalidValue then invalidValue
  else if checkBit val pagemapSwappedBit then invalidValue
  else if !checkBit val pagemapPresentBit then invalidValue
  else val &&& pagemapPfnMask

/-- It is `get_pfn()` of `pagestat.c`. -/
theorem extractPfn_eq (val : Word) : extractPfn val = Pagestat.getPfn val := by
  have hinvalid : Pagestat.getPfn invalidValue = invalidValue := by decide
  rw [extractPfn]
  by_cases hval : val = invalidValue
  · rw [if_pos hval, hval, hinvalid]
  · rw [if_neg hval, Pagestat.getPfn, Pagestat.hasPfn]
    show (if checkBit val Pagestat.pagemapSwappedBit then _ else if !checkBit val Pagestat.pagemapPresentBit then _
      else val &&& Pagestat.pagemapPfnMask) = _
    cases checkBit val Pagestat.pagemapSwappedBit with
    | true => rfl
    | false => cases checkBit val Pagestat.pagemapPresentBit <;> rfl

/-- What the devices answer for a PFN. -/
structure Devices where
  /-- `get_refcount()`. -/
  refcount : Word → BitVec 32
  /-- What `print_page_buffers()` reads, if the device is there. -/
  pageBuffers : Word → Option (List Char)

def printKpageflags (env : Env) (flags : Word) : List Char :=
  flagged [
    (env.has flags (.header .active), "ACTIVE "),
    (env.has flags (.header .anon), "ANON "),
    (env.has flags (.header .buddy), "BUDDY "),
    (env.has flags (.header .compoundHead), "COMPOUND_HEAD "),
    (env.has flags (.header .compoundTail), "COMPOUND_TAIL "),
    (env.has flags (.header .dirty), "DIRTY "),
    (env.has flags (.header .error), "ERROR "),
    (env.has flags (.header .huge), "HUGE "),
    (env.has flags (.header .hwpoison), "HWPOISON "),
    (env.has flags (.header .idle), "IDLE "),
    (env.has flags (.header .ksm), "KSM "),
    (env.has flags (.header .locked), "LOCKED "),
    (env.has flags (.header .lru), "LRU "),
    (env.has flags (.header .mmap), "MMAP "),
    (env.has flags (.header .nopage), "NOPAGE "),
    (env.has flags (.header .offline), "OFFLINE "),
    (env.has flags (.header .pgtable), "PGTABLE "),
    (env.has flags (.header .reclaim), "RECLAIM "),
    (env.has flags (.header .referenced), "REFERENCED "),
    (env.has flags (.header .slab), "SLAB "),
    (env.has flags (.header .swapbacked), "SWAPBACKED "),
    (env.has flags (.header .swapcache), "SWAPCACHE "),
    (env.has flags (.header .thp), "THP "),
    (env.has flags (.header .unevictable), "UNEVICTABLE "),
    (env.has flags (.header .uptodate), "UPTODATE "),
    (env.has flags (.header .writeback), "WRITEBACK "),
    (env.has flags (.header .zeroPage), "ZERO_PAGE "),
    (env.has flags .reserved, "RESERVED "),
    (env.has flags .mlocked, "MLOCKED ")] ++
  -- Handle overloaded flag.
  ((if env.has flags .mappedtodisk then
    if env.has flags (.header .anon) then "ANON_EXCLUSIVE ".toList else "MAPPEDTODISK ".toList
    else []) ++
  flagged [
    (env.has flags .priv, "PRIVATE "),
    (env.has flags .priv2, "PRIVATE_2 "),
    (env.has flags .ownerPriv, "OWNER_PRIVATE "),
    (env.has flags .arch, "ARCH "),
    (env.has flags .uncached, "UNCACHED "),
    (env.has flags .softdirty, "SOFTDIRTY "),
    (env.has flags .arch2, "ARCH_2 ")])

def printMapData (mapfields : Option MapData) : List Char :=
  match mapfields with
  | none => []
  | some mapfields => "[".toList ++ mapfields.perms ++ "] ".toList

def printPagemapFlags (val : Word) : List Char :=
  "[".toList ++
    (if checkBit val pagemapSoftDirtyBit then "s".toList else " ".toList) ++
    (if checkBit val pagemapExclusivelyMappedBit then "x".toList else " ".toList) ++
    (if checkBit val pagemapFilePageShAnonBit then "f".toList else " ".toList) ++
    (if checkBit val pagemapSwappedBit then "S".toList else " ".toList) ++
    (if checkBit val pagemapPresentBit then "p".toList else " ".toList) ++ "] ".toList

def printCounts (dev : Devices) (pfn mapcount : Word) : List Char :=
  (if dev.refcount pfn ≠ -1#32 then "refcount=".toList ++ signedDecimal (dev.refcount pfn) ++ " ".toList else []) ++
    (match dev.pageBuffers pfn with
      | none => []
      | some buffers => "page_buffers=".toList ++ buffers ++ " ".toList) ++
    (if mapcount = invalidValue then "mapcount=(failed) ".toList
      else "mapcount=".toList ++ decimal mapcount ++ " ".toList)

/-- The text in brackets at the end of a line. -/
def printDescr (descr : List Char) : List Char := " [".toList ++ descr ++ "]\n".toList

/-- `print_flags_virt_precalc()`, with the text of the pointer: what it returns, and what it prints. -/
def printFlagsVirtPrecalc (dev : Devices) (env : Env) (pointer : List Char)
    (pagemap pfn kpageflags mapcount : Word) (mapfields : Option MapData) (descr : List Char) :
    Bool × List Char :=
  let start := pointer ++ ": ".toList ++ printMapData mapfields
  if pagemap = invalidValue then (false, start ++ ("(invalid pagemap)".toList ++ printDescr descr))
  else
    let start := start ++ printPagemapFlags pagemap
    if pfn = invalidValue then (true, start ++ ("(not present)".toList ++ printDescr descr))
    else if pfn = 0#64 then (false, start ++ ("(cannot retrieve PFN)".toList ++ printDescr descr))
    else
      let start := start ++ ("pfn=".toList ++ decimal pfn ++ ": ".toList)
      if kpageflags = invalidValue then
        (false, start ++ ("(cannot retrieve kpageflags)".toList ++ printDescr descr))
      else
        (true, start ++ printCounts dev pfn mapcount ++ printKpageflags env kpageflags ++ printDescr descr)

end MmExper.ReadPageflags
