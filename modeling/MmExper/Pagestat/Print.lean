import MmExper.Lib.Numerals
import MmExper.Pagestat.Snapshot

/-!
# Printing snapshots

`pagestat_print` writes a header and then one line for each page, in which a page that is like the one
before it is only counted. What it counts with are five variables of the file, and they outlive the call.

A listing is a list of lines here, and a line has its text.
-/

namespace MmExper.Pagestat

open Lib

/-- The page flags whose bits are in `linux/kernel-page-flags.h`. -/
inductive HeaderFlag where
  | locked | error | referenced | uptodate | dirty | lru | active | slab | writeback | reclaim | buddy
  | mmap | anon | swapcache | swapbacked | compoundHead | compoundTail | huge | unevictable | hwpoison
  | nopage | ksm | thp | offline | zeroPage | idle | pgtable
  deriving DecidableEq

/-- `KPF_*`: these flags, and the ones that `pagestat.c` defines. -/
inductive Kpf where
  | header (flag : HeaderFlag)
  | reserved | mlocked | mappedtodisk | priv | priv2 | ownerPriv | arch | uncached | softdirty | arch2
  deriving DecidableEq

/-- What the listings depend on besides the snapshot. -/
structure Env where
  /-- `getpagesize()`. -/
  pageSize : Word
  /-- The bits in `linux/kernel-page-flags.h`. -/
  headerBit : HeaderFlag → Nat
  /-- What is read behind the end of an array. -/
  beyond : Nat → Word

def Env.bit (env : Env) : Kpf → Nat
  | .header flag => env.headerBit flag
  | .reserved => 32
  | .mlocked => 33
  | .mappedtodisk => 34
  | .priv => 35
  | .priv2 => 36
  | .ownerPriv => 37
  | .arch => 38
  | .uncached => 39
  | .softdirty => 40
  | .arch2 => 41

/-- `CHECK_BIT()` for a page flag. -/
def Env.has (env : Env) (flags : Word) (flag : Kpf) : Bool := checkBit flags (env.bit flag)

def Env.read (env : Env) (xs : List Word) (index : Word) : Word :=
  xs.getD index.toNat (env.beyond index.toNat)

/-! ## The line of a page

A line is data here, so that listings can be compared before they are texts. -/

inductive Line where
  /-- A page: its address, its pagemap entry, and its page flags and count. -/
  | mapping (addr val flags count : Word)
  /-- So many pages like the one of the line above, the last one here. -/
  | repetitions (addr count : Word)
  deriving DecidableEq

/-- The texts of the conditions that hold. -/
def flagged (texts : List (Bool × String)) : List Char :=
  texts.flatMap fun t => if t.1 then t.2.toList else []

def printKpageflags (env : Env) (flags : Word) : List Char :=
  let mappedToDisk := env.has flags .mappedtodisk
  let anon := env.has flags (.header .anon)
  flagged [
    (env.has flags (.header .anon), "Ano "),
    -- Handle overloaded flag.
    (mappedToDisk && anon, "AnE "),
    (env.has flags (.header .buddy), "Bud "),
    (env.has flags (.header .compoundHead), "CmH "),
    (env.has flags (.header .compoundTail), "CmT "),
    (env.has flags (.header .dirty), "Drt "),
    (env.has flags (.header .error), "Err "),
    (env.has flags (.header .huge), "Hug "),
    (env.has flags (.header .hwpoison), "xxH "),
    (env.has flags (.header .idle), "Idl "),
    (env.has flags (.header .ksm), "KSM "),
    (env.has flags (.header .locked), "Lok "),
    (env.has flags (.header .lru), "LRU "),
    (mappedToDisk && !anon, "Mdk "),
    (env.has flags (.header .mmap), "MMp "),
    (env.has flags (.header .nopage), "NoP "),
    (env.has flags (.header .offline), "Off "),
    (env.has flags (.header .pgtable), "Tbl "),
    (env.has flags (.header .reclaim), "Rcm "),
    (env.has flags (.header .slab), "Slb "),
    (env.has flags (.header .swapbacked), "SwB "),
    (env.has flags (.header .swapcache), "SwC "),
    (env.has flags (.header .thp), "THP "),
    (env.has flags (.header .unevictable), "Une "),
    (env.has flags (.header .uptodate), "Upd "),
    (env.has flags (.header .writeback), "WrB "),
    (env.has flags (.header .zeroPage), "Zpg "),
    (env.has flags .reserved, "Rsv "),
    (env.has flags .mlocked, "Mlk "),
    (env.has flags .priv, "Prv "),
    (env.has flags .priv2, "Pv2 "),
    (env.has flags .ownerPriv, "OwP "),
    (env.has flags .arch, "Ach "),
    (env.has flags .uncached, "Unc "),
    (env.has flags .softdirty, "DtS "),
    (env.has flags .arch2, "Ar2 ")]

def pagemapSoftDirtyBit : Nat := 55
def pagemapExclusiveMappedBit : Nat := 56
def pagemapUffdWpBit : Nat := 57
def pagemapIsFileBit : Nat := 61
def pagemapSwapTypeNumBits : Nat := 5
def pagemapSwapTypeMask : Word := (1#64 <<< 5) - 1#64
def pagemapSwapOffsetMask : Word := (1#64 <<< 50) - 1#64

/-- What `do_print_mapping()` prints about a page that is swapped out. -/
def swapText (val : Word) : List Char :=
  let offset := val >>> pagemapSwapTypeNumBits
  "swap_type=[".toList ++ hexadecimal (val &&& pagemapSwapTypeMask) ++ "] ".toList ++
    ("swap_offset=[".toList ++ hexadecimal (offset &&& pagemapSwapOffsetMask) ++ "] ".toList)

/-- What `do_print_mapping()` prints about the physical page. -/
def pageText (env : Env) (pfn flags count : Word) : List Char :=
  (if flags ≠ invalidValue then printKpageflags env flags else []) ++
    ("/ ".toList ++ hexadecimal pfn ++ " ".toList) ++
    "/ ".toList ++
    (if env.has flags (.header .lru) then "LRU ".toList else "NON-LRU ".toList) ++
    (if env.has flags (.header .active) then "ACTIVE ".toList else "INACTIVE ".toList) ++
    flagged [(env.has flags (.header .referenced), "REF ")] ++
    (if count ≠ invalidValue then "/ ".toList ++ decimal count else [])

/-- The text of the line of a page after its address. -/
def mappingText (env : Env) (val flags count : Word) : List Char :=
  let pfn := getPfn val
  let havePfn := pfn ≠ invalidValue
  let swapped := checkBit val pagemapSwappedBit
  (if checkBit val pagemapSoftDirtyBit then "Ds ".toList else "   ".toList) ++
    ((if checkBit val pagemapExclusiveMappedBit then "Xm ".toList else "   ".toList) ++
    (if checkBit val pagemapUffdWpBit then "Uw ".toList else "   ".toList) ++
    (if checkBit val pagemapIsFileBit then "Fl ".toList else "   ".toList) ++
    (if swapped then "Sw ".toList else "   ".toList) ++
    (if checkBit val pagemapPresentBit then "Pr ".toList else "   ".toList) ++
    (if swapped ∨ havePfn then "/ ".toList else []) ++
    (if swapped then swapText val
      else if havePfn then pageText env pfn flags count
      else []))

def Line.chars (env : Env) : Line → List Char
  | .mapping addr val flags count =>
    (if addr ≠ invalidValue then hexadecimal16 addr ++ ": ".toList else []) ++
      mappingText env val flags count
  | .repetitions addr count =>
    hexadecimal16 addr ++ ": (".toList ++ decimal count ++ " more repetitions of above)".toList

def text (env : Env) (ls : List Line) : List Char := ls.flatMap fun l => l.chars env ++ ['\n']

section

variable {env : Env} {ls ls' : List Line} {addr val flags count : Word}

/-! No text of a line has a newline in it. -/

theorem newline_not_mem_flagged {texts : List (Bool × String)}
    (h : ∀ s ∈ texts.map Prod.snd, '\n' ∉ s.toList) : '\n' ∉ flagged texts := by
  rw [flagged, List.mem_flatMap]
  rintro ⟨t, ht, hmem⟩
  split at hmem
  · exact h t.2 (List.mem_map_of_mem ht) hmem
  · exact List.not_mem_nil hmem

theorem newline_not_mem_printKpageflags : '\n' ∉ printKpageflags env flags := by
  apply newline_not_mem_flagged
  simp only [List.map_cons, List.map_nil]
  decide

theorem newline_not_mem_swapText : '\n' ∉ swapText val := by
  unfold swapText
  simp only [List.mem_append, not_or]
  refine ⟨⟨⟨?_, newline_not_mem_hexadecimal⟩, ?_⟩, ⟨?_, newline_not_mem_hexadecimal⟩, ?_⟩
  all_goals decide

theorem newline_not_mem_pageText {pfn : Word} : '\n' ∉ pageText env pfn flags count := by
  have hflags : '\n' ∉ if flags ≠ invalidValue then printKpageflags env flags else [] := by
    split
    · exact newline_not_mem_printKpageflags
    · exact List.not_mem_nil
  have href : '\n' ∉ flagged [(env.has flags (.header .referenced), "REF ")] := by
    apply newline_not_mem_flagged
    simp only [List.map_cons, List.map_nil]
    decide
  simp only [pageText, List.mem_append, not_or]
  refine ⟨⟨⟨⟨⟨⟨hflags, ⟨?_, newline_not_mem_hexadecimal⟩, ?_⟩, ?_⟩, ?_⟩, ?_⟩, href⟩, ?_⟩
  all_goals first | decide | split
  all_goals first | decide | skip
  simp [newline_not_mem_decimal]

theorem newline_not_mem_mappingText : '\n' ∉ mappingText env val flags count := by
  have hrest : '\n' ∉ if checkBit val pagemapSwappedBit then swapText val
      else if getPfn val ≠ invalidValue then pageText env (getPfn val) flags count else [] := by
    split
    · exact newline_not_mem_swapText
    · split
      · exact newline_not_mem_pageText
      · exact List.not_mem_nil
  simp only [mappingText, List.mem_append, not_or]
  refine ⟨?_, ⟨⟨⟨⟨⟨?_, ?_⟩, ?_⟩, ?_⟩, ?_⟩, ?_⟩, hrest⟩
  all_goals split <;> decide

theorem Line.newline_not_mem_chars {l : Line} : '\n' ∉ l.chars env := by
  cases l with
  | mapping addr val flags count =>
      simp only [Line.chars, List.mem_append, not_or]
      refine ⟨?_, newline_not_mem_mappingText⟩
      split
      · simp [newline_not_mem_hexadecimal16]
      · exact List.not_mem_nil
  | repetitions addr count =>
      simp [Line.chars, newline_not_mem_hexadecimal16, newline_not_mem_decimal]

@[simp] theorem text_nil : text env [] = [] := rfl

@[simp] theorem text_append : text env (ls ++ ls') = text env ls ++ text env ls' := List.flatMap_append

theorem count_text : (text env ls).count '\n' = ls.length := by
  induction ls with
  | nil => rfl
  | cons l ls ih =>
      have hl : (l.chars env).count '\n' = 0 := List.count_eq_zero.mpr Line.newline_not_mem_chars
      rw [← List.singleton_append, text_append, List.count_append, ih]
      simp [text, hl, Nat.add_comm]

theorem text_eq_nil : text env ls = [] ↔ ls = [] := by
  constructor
  · intro h
    have hcount : (text env ls).count '\n' = ls.length := count_text
    rw [h] at hcount
    exact List.eq_nil_of_length_eq_zero hcount.symm
  · rintro rfl
    rfl

theorem head_mappingText :
    (mappingText env val flags count).head? = if checkBit val pagemapSoftDirtyBit then 'D' else ' ' := by
  by_cases h : checkBit val pagemapSoftDirtyBit = true
  · simp only [mappingText, if_pos h]
    rfl
  · simp only [mappingText, if_neg h]
    rfl

/-- The line of a page is not a line of repetitions that ends at the same address. -/
theorem text_mapping_ne {count' : Word} :
    text env [.mapping addr val flags count] ≠ text env [.repetitions addr count'] := by
  intro h
  simp only [text, List.flatMap_cons, List.flatMap_nil, List.append_nil,
    Line.chars, List.append_assoc] at h
  by_cases haddr : addr = invalidValue
  · -- The address is left out of the one and begins the other.
    subst haddr
    rw [if_neg (by simp), List.nil_append] at h
    have hhead := congrArg List.head? h
    rw [List.head?_append, head_mappingText] at hhead
    split at hhead <;> cases hhead
  · rw [if_pos haddr, List.append_assoc] at h
    have hhead := congrArg List.head? (List.append_cancel_left (List.append_cancel_left h :
      ": ".toList ++ _ = ": ".toList ++ ("(".toList ++ _)))
    rw [List.head?_append, head_mappingText] at hhead
    split at hhead <;> cases hhead

end

def doPrintMapping (env : Env) (addr : Word) (ps : PageStat) (index val : Word) : Line :=
  .mapping addr val (env.read ps.kpageflags index) (env.read ps.kpagecounts index)

/-! ## Abbreviated listings

The variables outlive the call. `last_seen_map` is all ones while nothing has been seen. -/

/-- The variables that the listings are abbreviated with. -/
structure Seen where
  lastSeenMap : Word
  lastSeenPfn : Word
  lastSeenAddr : Word
  lastSeenIndex : Word
  seenMapCount : Word
  deriving DecidableEq

def Seen.init : Seen := ⟨invalidValue, 0#64, 0#64, 0#64, 0#64⟩

def printAbbrev (env : Env) (ps : PageStat) (seen : Seen) : List Line :=
  -- Should never happen.
  if seen.lastSeenMap = invalidValue then []
  else if seen.seenMapCount > 2#64 then
    [.repetitions seen.lastSeenAddr (seen.seenMapCount - 1#64)]
  else if seen.seenMapCount = 2#64 then
    [doPrintMapping env seen.lastSeenAddr ps seen.lastSeenIndex
      (if seen.lastSeenPfn = invalidValue then seen.lastSeenMap
        else seen.lastSeenMap ||| seen.lastSeenPfn)]
  else []

/-- `new_val` of `print_mapping()`: the page is not like the last one. -/
def Seen.newVal (seen : Seen) (val : Word) : Bool :=
  val &&& ~~~pagemapPfnMask ≠ seen.lastSeenMap ∨
    getPfn val ≠ seen.lastSeenPfn ∧ getPfn val ≠ seen.lastSeenPfn + 1#64

/-- The page is the last one now, and is counted. -/
def Seen.see (seen : Seen) (addr index val : Word) : Seen where
  lastSeenMap := val &&& ~~~pagemapPfnMask
  lastSeenPfn := getPfn val
  lastSeenAddr := addr
  lastSeenIndex := index
  seenMapCount := seen.seenMapCount + 1#64

def printMapping (env : Env) (addr : Word) (ps : PageStat) (index : Word) (abbreviated : Bool)
    (seen : Seen) : List Line × Seen :=
  let val := env.read ps.pagemaps index
  let newVal := seen.newVal val
  let (ls, seen) :=
    if abbreviated && newVal then (printAbbrev env ps seen, { seen with seenMapCount := 0#64 }) else ([], seen)
  let seen := seen.see addr index val
  if abbreviated && !newVal then (ls, seen) else (ls ++ [doPrintMapping env addr ps index val], seen)

section

variable {env : Env} {ps : PageStat} {seen : Seen} {addr index : Word}

/-- A page that is not like the last one ends what was counted and gets its line. -/
theorem printMapping_new (h : seen.newVal (env.read ps.pagemaps index) = true) :
    printMapping env addr ps index true seen =
      (printAbbrev env ps seen ++ [doPrintMapping env addr ps index (env.read ps.pagemaps index)],
        { seen with seenMapCount := 0#64 }.see addr index (env.read ps.pagemaps index)) := by
  simp [printMapping, h]

/-- A page that is like the last one is counted. -/
theorem printMapping_old (h : seen.newVal (env.read ps.pagemaps index) = false) :
    printMapping env addr ps index true seen =
      ([], seen.see addr index (env.read ps.pagemaps index)) := by
  simp [printMapping, h]

theorem printMapping_full : printMapping env addr ps index false seen =
    ([doPrintMapping env addr ps index (env.read ps.pagemaps index)],
      seen.see addr index (env.read ps.pagemaps index)) := by
  simp [printMapping]

/-- The flags of a page are never taken for `INVALID_VALUE`. -/
theorem Seen.see_map_ne {val : Word} : (seen.see addr index val).lastSeenMap ≠ invalidValue := by
  intro h
  have hbit := congrArg (fun w : Word => w.getLsbD 0) h
  have hmask : (~~~pagemapPfnMask : Word).getLsbD 0 = false := by decide
  have hinvalid : (invalidValue : Word).getLsbD 0 = true := by decide
  simp only [Seen.see, BitVec.getLsbD_and, hmask, Bool.and_false, hinvalid] at hbit
  cases hbit

theorem length_printAbbrev : (printAbbrev env ps seen).length ≤ 1 := by
  unfold printAbbrev
  split
  · exact Nat.zero_le 1
  · split
    · exact Nat.le_refl 1
    · split
      · exact Nat.le_refl 1
      · exact Nat.zero_le 1

theorem printAbbrev_invalid (h : seen.lastSeenMap = invalidValue) : printAbbrev env ps seen = [] := by
  rw [printAbbrev, if_pos h]

theorem printAbbrev_repetitions (h : seen.lastSeenMap ≠ invalidValue) (hcount : 2 < seen.seenMapCount.toNat) :
    printAbbrev env ps seen = [.repetitions seen.lastSeenAddr (seen.seenMapCount - 1#64)] := by
  rw [printAbbrev, if_neg h, if_pos]
  rw [gt_iff_lt, BitVec.lt_def]
  exact hcount

/-- A page that was counted alone has its line already. -/
theorem printAbbrev_eq_nil (h : seen.lastSeenMap ≠ invalidValue) :
    printAbbrev env ps seen = [] ↔ seen.seenMapCount.toNat < 2 := by
  have hmore : seen.seenMapCount > 2#64 ↔ 2 < seen.seenMapCount.toNat := BitVec.lt_def
  have htwo : seen.seenMapCount = 2#64 ↔ seen.seenMapCount.toNat = 2 := BitVec.toNat_inj.symm
  rw [printAbbrev, if_neg h]
  split
  · next hcount =>
    have := hmore.mp hcount
    simp only [List.cons_ne_nil, false_iff]
    omega
  · next hcount =>
    have hcount := mt hmore.mpr hcount
    split
    · next heq =>
      have := htwo.mp heq
      simp only [List.cons_ne_nil, false_iff]
      omega
    · next hne =>
      have hne := mt htwo.mpr hne
      simp only [true_iff]
      omega

end

def printMappingTerminate (env : Env) (ps : PageStat) (seen : Seen) : List Line × Seen :=
  (printAbbrev env ps seen,
    { seen with
      lastSeenMap := invalidValue
      lastSeenIndex := 0#64
      lastSeenPfn := 0#64
      seenMapCount := 0#64 })

/-- The loop of `pagestat_print()` with `n` pages to go, and the end of the listing. -/
def printPages (env : Env) (ps : PageStat) (addr index : Word) : Nat → Seen → List Line × Seen
  | 0, seen => printMappingTerminate env ps seen
  | n + 1, seen =>
    let (ls, seen) := printMapping env addr ps index true seen
    let (ls', seen) := printPages env ps (addr + env.pageSize) (index + 1#64) n seen
    (ls ++ ls', seen)

/-! ## Headers

The lines before the listing: the name, the range and the fields of the record. -/

def doPrintName (name : List Char) : List Char := "----==== ".toList ++ name ++ " ====---- \n\n".toList

def printName (ps : PageStat) : List Char :=
  match ps.name with
  | none => doPrintName "(anon)".toList
  | some name => doPrintName name

/-- What `%s` prints. -/
def strText : Option (List Char) → List Char
  | none => "(null)".toList
  | some s => s

def field (label : String) (value : List Char) : List Char := label.toList ++ "=[".toList ++ value ++ "]".toList

/-- The value of `rss`, marked if it was counted. -/
def rssText (ps : PageStat) : List Char := decimal ps.rss ++ if ps.rssCounted then "*".toList else []

def printHeader (ps : PageStat) : List Char :=
  printName ps ++
    ("0x".toList ++ hexadecimal ps.vmaStart ++ " [vma_start]\n".toList) ++
    ("0x".toList ++ hexadecimal ps.vmaEnd ++ " [vma_end]\n\n".toList) ++
    (field "vm_size" (decimal ps.vmSize) ++ field " rss" (rssText ps) ++
      field " ref" (decimal ps.referenced) ++ field " anon" (decimal ps.anon) ++
      field " anon_huge" (decimal ps.anonHuge) ++ field " swap" (decimal ps.swap) ++
      field " locked" (decimal ps.locked) ++ field "\nvm_flags" (strText ps.vmFlags) ++
      field " perms" ps.perms ++ field " offset" (decimal ps.offset) ++ "\n\n".toList)

/-- `ignored_ps()`, for the name. -/
def ignoredPs (name : List Char) : Bool :=
  name = "[vvar]".toList || name = "[vdso]".toList || name = "[vsyscall]".toList ||
    name = "[heap]".toList || name = "[stack]".toList ||
    "/usr/bin".toList.isPrefixOf name || "/usr/lib".toList.isPrefixOf name ||
    "/var/cache".toList.isPrefixOf name || "/usr/share".toList.isPrefixOf name

/-- `ps->name != NULL && ignored_ps(ps)`. -/
def PageStat.ignored (ps : PageStat) : Bool := ps.name.any ignoredPs

/-- `pagestat_print()`: whether something is printed, and what. -/
def pagestatPrint (env : Env) (ps : Option PageStat) (seen : Seen) : Bool × List Char × Seen :=
  match ps with
  | none => (false, [], seen)
  | some ps =>
    if ps.ignored then (false, [], seen)
    else
      let (ls, seen) := printPages env ps ps.vmaStart 0#64 (countVirtPages env.pageSize ps).toNat seen
      (true, printHeader ps ++ text env ls, seen)

/-! ## A small snapshot -/

/-- Pages of 4 kB, the bits of Linux, and nothing behind the arrays. -/
def Env.linux : Env where
  pageSize := 4096
  headerBit
    | .locked => 0
    | .error => 1
    | .referenced => 2
    | .uptodate => 3
    | .dirty => 4
    | .lru => 5
    | .active => 6
    | .slab => 7
    | .writeback => 8
    | .reclaim => 9
    | .buddy => 10
    | .mmap => 11
    | .anon => 12
    | .swapcache => 13
    | .swapbacked => 14
    | .compoundHead => 15
    | .compoundTail => 16
    | .huge => 17
    | .unevictable => 18
    | .hwpoison => 19
    | .nopage => 20
    | .ksm => 21
    | .thp => 22
    | .offline => 23
    | .zeroPage => 24
    | .idle => 25
    | .pgtable => 26
  beyond _ := 0

def onePage (rss val : Word) : PageStat :=
  { PageStat.zero with
    vmaStart := 0x1000
    vmaEnd := 0x2000
    perms := "rw-p".toList
    vmSize := 4
    rss := rss
    pagemaps := [val]
    kpagecounts := [0]
    kpageflags := [0] }

end MmExper.Pagestat
