import MmExper.Pagestat.Entry
import MmExper.ReadPageflags.Flags

/-!
# Two reports of page flags

A line of either program is made of pieces, some of which report a page flag. `pagestat` reports most flags
together and three of them, or that they are not set, at the end of its line. Both leave out the flags if
they could not be read, but `pagestat` does so in the first of the two places only.
-/

namespace MmExper.ReadPageflags

open Lib
open Pagestat (Env Kpf checkBit flagged mappingText pageText getPfn hasPfn)

inductive Report where
  | flag (kpf : Kpf)
  | anonExclusive
  deriving DecidableEq

/-- The bits say so: `KPF_MAPPEDTODISK` is overloaded. -/
def Report.isSet (env : Env) (flags : Word) : Report → Bool
  | .anonExclusive => flags.getLsbD (env.bit .mappedtodisk) && flags.getLsbD (env.bit (.header .anon))
  | .flag .mappedtodisk => flags.getLsbD (env.bit .mappedtodisk) && !flags.getLsbD (env.bit (.header .anon))
  | .flag kpf => flags.getLsbD (env.bit kpf)

structure Piece where
  report : Option Report
  chars : List Char

def Piece.plain (chars : List Char) : Piece := ⟨none, chars⟩

def render (pieces : List Piece) : List Char := pieces.flatMap Piece.chars

def reported (pieces : List Piece) : List Report := pieces.filterMap Piece.report

def reports (env : Env) (flags : Word) (table : List (Report × String)) : List Piece :=
  (table.filter fun t => t.1.isSet env flags).map fun t => ⟨some t.1, t.2.toList⟩

/-! ## The lines

A line as pieces, each with its text and with the flag it reports. -/

/-- The names in `print_kpageflags()` of `pagestat.c`. -/
def shortNames : List (Report × String) := [
  (.flag (.header .anon), "Ano "),
  (.anonExclusive, "AnE "),
  (.flag (.header .buddy), "Bud "),
  (.flag (.header .compoundHead), "CmH "),
  (.flag (.header .compoundTail), "CmT "),
  (.flag (.header .dirty), "Drt "),
  (.flag (.header .error), "Err "),
  (.flag (.header .huge), "Hug "),
  (.flag (.header .hwpoison), "xxH "),
  (.flag (.header .idle), "Idl "),
  (.flag (.header .ksm), "KSM "),
  (.flag (.header .locked), "Lok "),
  (.flag (.header .lru), "LRU "),
  (.flag .mappedtodisk, "Mdk "),
  (.flag (.header .mmap), "MMp "),
  (.flag (.header .nopage), "NoP "),
  (.flag (.header .offline), "Off "),
  (.flag (.header .pgtable), "Tbl "),
  (.flag (.header .reclaim), "Rcm "),
  (.flag (.header .slab), "Slb "),
  (.flag (.header .swapbacked), "SwB "),
  (.flag (.header .swapcache), "SwC "),
  (.flag (.header .thp), "THP "),
  (.flag (.header .unevictable), "Une "),
  (.flag (.header .uptodate), "Upd "),
  (.flag (.header .writeback), "WrB "),
  (.flag (.header .zeroPage), "Zpg "),
  (.flag .reserved, "Rsv "),
  (.flag .mlocked, "Mlk "),
  (.flag .priv, "Prv "),
  (.flag .priv2, "Pv2 "),
  (.flag .ownerPriv, "OwP "),
  (.flag .arch, "Ach "),
  (.flag .uncached, "Unc "),
  (.flag .softdirty, "DtS "),
  (.flag .arch2, "Ar2 ")]

/-- The names in `print_kpageflags()` of `read-pageflags.c`. -/
def fullNames : List (Report × String) := [
  (.flag (.header .active), "ACTIVE "),
  (.flag (.header .anon), "ANON "),
  (.flag (.header .buddy), "BUDDY "),
  (.flag (.header .compoundHead), "COMPOUND_HEAD "),
  (.flag (.header .compoundTail), "COMPOUND_TAIL "),
  (.flag (.header .dirty), "DIRTY "),
  (.flag (.header .error), "ERROR "),
  (.flag (.header .huge), "HUGE "),
  (.flag (.header .hwpoison), "HWPOISON "),
  (.flag (.header .idle), "IDLE "),
  (.flag (.header .ksm), "KSM "),
  (.flag (.header .locked), "LOCKED "),
  (.flag (.header .lru), "LRU "),
  (.flag (.header .mmap), "MMAP "),
  (.flag (.header .nopage), "NOPAGE "),
  (.flag (.header .offline), "OFFLINE "),
  (.flag (.header .pgtable), "PGTABLE "),
  (.flag (.header .reclaim), "RECLAIM "),
  (.flag (.header .referenced), "REFERENCED "),
  (.flag (.header .slab), "SLAB "),
  (.flag (.header .swapbacked), "SWAPBACKED "),
  (.flag (.header .swapcache), "SWAPCACHE "),
  (.flag (.header .thp), "THP "),
  (.flag (.header .unevictable), "UNEVICTABLE "),
  (.flag (.header .uptodate), "UPTODATE "),
  (.flag (.header .writeback), "WRITEBACK "),
  (.flag (.header .zeroPage), "ZERO_PAGE "),
  (.flag .reserved, "RESERVED "),
  (.flag .mlocked, "MLOCKED "),
  (.anonExclusive, "ANON_EXCLUSIVE "),
  (.flag .mappedtodisk, "MAPPEDTODISK "),
  (.flag .priv, "PRIVATE "),
  (.flag .priv2, "PRIVATE_2 "),
  (.flag .ownerPriv, "OWNER_PRIVATE "),
  (.flag .arch, "ARCH "),
  (.flag .uncached, "UNCACHED "),
  (.flag .softdirty, "SOFTDIRTY "),
  (.flag .arch2, "ARCH_2 ")]

/-- A flag, or the text for one that is not set. -/
def either (env : Env) (flags : Word) (kpf : Kpf) (set unset : String) : Piece :=
  if env.has flags kpf then ⟨some (.flag kpf), set.toList⟩ else Piece.plain unset.toList

/-- The end of the line of `pagestat` for a page with a PFN. -/
def pagePieces (env : Env) (pfn flags count : Word) : List Piece :=
  (if flags ≠ invalidValue then reports env flags shortNames else []) ++
    [Piece.plain ("/ ".toList ++ hexadecimal pfn ++ " ".toList), Piece.plain "/ ".toList,
      either env flags (.header .lru) "LRU " "NON-LRU ",
      either env flags (.header .active) "ACTIVE " "INACTIVE ",
      either env flags (.header .referenced) "REF " "",
      Piece.plain (if count ≠ invalidValue then "/ ".toList ++ decimal count else [])]

/-- The pieces that `print_flags_virt_precalc()` prints after the PFN. -/
def virtPieces (dev : Devices) (env : Env) (pfn kpageflags mapcount : Word) (descr : List Char) : List Piece :=
  if kpageflags = invalidValue then [Piece.plain "(cannot retrieve kpageflags)".toList, Piece.plain (printDescr descr)]
  else Piece.plain (printCounts dev pfn mapcount) :: reports env kpageflags fullNames ++ [Piece.plain (printDescr descr)]

variable {env : Env} {flags : Word} {r : Report}

theorem has_eq (hbits : ∀ f, env.headerBit f < 32) (flags : Word) (kpf : Kpf) :
    env.has flags kpf = flags.getLsbD (env.bit kpf) := by
  have hbit : env.bit kpf < 64 := by
    cases kpf with
    | header f => exact Nat.lt_trans (hbits f) (by decide)
    | _ => simp [Env.bit]
  exact Pagestat.checkBit_eq_getLsbD hbit flags

theorem render_append (pieces pieces' : List Piece) : render (pieces ++ pieces') = render pieces ++ render pieces' :=
  List.flatMap_append

theorem reported_append (pieces pieces' : List Piece) :
    reported (pieces ++ pieces') = reported pieces ++ reported pieces' := List.filterMap_append

theorem render_reports (env : Env) (flags : Word) (table : List (Report × String)) :
    render (reports env flags table) = flagged (table.map fun t => (t.1.isSet env flags, t.2)) := by
  induction table with
  | nil => rfl
  | cons t table ih =>
      rw [List.map_cons, flagged, List.flatMap_cons, reports, List.filter_cons]
      cases t.1.isSet env flags with
      | true => exact congrArg (t.2.toList ++ ·) ih
      | false => exact ih

/-- The flags of a table are reported exactly if they are set. -/
theorem mem_reported_reports {table : List (Report × String)} :
    r ∈ reported (reports env flags table) ↔ r.isSet env flags = true ∧ r ∈ table.map Prod.fst := by
  simp only [reported, reports, List.mem_filterMap, List.mem_map, List.mem_filter]
  constructor
  · rintro ⟨_, ⟨t, ⟨ht, hset⟩, rfl⟩, ⟨⟩⟩
    exact ⟨hset, t, ht, rfl⟩
  · rintro ⟨hset, t, ht, rfl⟩
    exact ⟨_, ⟨t, ⟨ht, hset⟩, rfl⟩, rfl⟩

theorem flagged_append (texts texts' : List (Bool × String)) :
    flagged (texts ++ texts') = flagged texts ++ flagged texts' := List.flatMap_append

/-! ## What is printed

The pieces spell the line that the program prints. -/

theorem render_shortNames (hbits : ∀ f, env.headerBit f < 32) (flags : Word) :
    render (reports env flags shortNames) = Pagestat.printKpageflags env flags := by
  rw [render_reports, Pagestat.printKpageflags]
  simp only [has_eq hbits]
  rfl

theorem render_fullNames (hbits : ∀ f, env.headerBit f < 32) (flags : Word) :
    render (reports env flags fullNames) = printKpageflags env flags := by
  have hoverload : ∀ mapped anon : Bool,
      flagged [(mapped && anon, "ANON_EXCLUSIVE "), (mapped && !anon, "MAPPEDTODISK ")] =
      if mapped then if anon then "ANON_EXCLUSIVE ".toList else "MAPPEDTODISK ".toList else [] := by
    decide
  rw [render_reports, printKpageflags]
  simp only [has_eq hbits, ← hoverload, ← flagged_append]
  rfl

theorem render_either (kpf : Kpf) (set unset : String) (pieces : List Piece) :
    render (either env flags kpf set unset :: pieces) =
      (if env.has flags kpf then set.toList else unset.toList) ++ render pieces := by
  rw [render, List.flatMap_cons, either]
  split <;> rfl

theorem render_pagePieces (hbits : ∀ f, env.headerBit f < 32) (pfn flags count : Word) :
    render (pagePieces env pfn flags count) = pageText env pfn flags count := by
  have hfirst : render (if flags ≠ invalidValue then reports env flags shortNames else []) =
      if flags ≠ invalidValue then Pagestat.printKpageflags env flags else [] := by
    split
    · exact render_shortNames hbits flags
    · rfl
  have hplain : ∀ chars pieces, render (Piece.plain chars :: pieces) = chars ++ render pieces := fun _ _ => rfl
  have hnil : render [] = [] := rfl
  have href : flagged [(env.has flags (.header .referenced), "REF ")] =
      if env.has flags (.header .referenced) then "REF ".toList else "".toList := by
    cases env.has flags (.header .referenced) <;> rfl
  rw [pagePieces, render_append, hfirst, pageText, href]
  simp only [render_either, hplain, hnil, List.append_assoc, List.append_nil]
  rfl

/-- The line of a page with a PFN in `pagestat`. -/
theorem mappingText_page {val : Word} (h : hasPfn val = true) (env : Env) (flags count : Word) :
    mappingText env val flags count = Pagestat.entryText val ++ pageText env (getPfn val) flags count := by
  have hpfn : getPfn val ≠ Pagestat.invalidValue := by
    rw [ne_eq, Pagestat.getPfn_eq_invalid, h]
    exact Bool.noConfusion
  rw [Pagestat.mappingText_eq, Pagestat.not_swapped_of_hasPfn h, if_pos hpfn]
  rfl

/-- What `print_flags_virt_precalc()` prints before the page flags and the counts. -/
def virtStart (pointer : List Char) (pagemap pfn : Word) (mapfields : Option MapData) : List Char :=
  pointer ++ ": ".toList ++ printMapData mapfields ++ printPagemapFlags pagemap ++
    ("pfn=".toList ++ decimal pfn ++ ": ".toList)

/-- The line of a page with a PFN in `read-pageflags`. -/
theorem printFlagsVirtPrecalc_page (hbits : ∀ f, env.headerBit f < 32) {pagemap pfn : Word}
    (hpagemap : pagemap ≠ invalidValue) (hpfn : pfn ≠ invalidValue) (hzero : pfn ≠ 0#64) (dev : Devices)
    (pointer : List Char) (kpageflags mapcount : Word) (mapfields : Option MapData) (descr : List Char) :
    (printFlagsVirtPrecalc dev env pointer pagemap pfn kpageflags mapcount mapfields descr).2 =
      virtStart pointer pagemap pfn mapfields ++ render (virtPieces dev env pfn kpageflags mapcount descr) := by
  have hplain : ∀ chars pieces, render (Piece.plain chars :: pieces) = chars ++ render pieces := fun _ _ => rfl
  have hnil : render [] = [] := rfl
  rw [printFlagsVirtPrecalc, virtPieces, virtStart]
  simp only [if_neg hpagemap, if_neg hpfn, if_neg hzero]
  by_cases hflags : kpageflags = invalidValue
  · simp only [if_pos hflags, hplain, hnil, List.append_nil]
  · simp only [if_neg hflags, List.cons_append, hplain, render_append, render_fullNames hbits, hnil, List.append_nil,
      List.append_assoc]

/-! ## What is reported

Which flags the pieces of the two lines report. -/

/-- Both lines report the same flags: those that are set, and none if the word could not be read. -/
structure ReportsAgree (env : Env) (flags : Word) (rs rs' : List Report) : Prop where
  same : ∀ r, r ∈ rs ↔ r ∈ rs'
  exact : ∀ r, r ∈ rs ↔ flags ≠ invalidValue ∧ r.isSet env flags = true

theorem reported_either (hbits : ∀ f, env.headerBit f < 32) (kpf : Kpf) (set unset : String)
    (hkpf : (Report.flag kpf).isSet env flags = flags.getLsbD (env.bit kpf)) :
    r ∈ reported [either env flags kpf set unset] ↔ r = .flag kpf ∧ r.isSet env flags = true := by
  rw [either, has_eq hbits, ← hkpf]
  by_cases hset : (Report.flag kpf).isSet env flags = true
  · rw [if_pos hset]
    show r ∈ [Report.flag kpf] ↔ _
    rw [List.mem_singleton]
    exact ⟨fun e => ⟨e, e ▸ hset⟩, fun h => h.1⟩
  · rw [if_neg hset]
    show r ∈ [] ↔ _
    exact iff_of_false List.not_mem_nil fun h => hset (h.1 ▸ h.2)

/-- Every flag has a name in `read-pageflags`. -/
theorem mem_fullNames (r : Report) : r ∈ fullNames.map Prod.fst := by
  cases r with
  | anonExclusive => decide
  | flag kpf =>
      cases kpf with
      | header f => cases f <;> decide
      | _ => decide

/-- In `pagestat` two flags have none but the one at the end of the line. -/
theorem mem_shortNames (r : Report) : r ∈ shortNames.map Prod.fst ∨
    r = .flag (.header .active) ∨ r = .flag (.header .referenced) := by
  cases r with
  | anonExclusive => decide
  | flag kpf =>
      cases kpf with
      | header f => cases f <;> decide
      | _ => decide

theorem mem_reported_virtPieces (dev : Devices) (pfn mapcount : Word) (descr : List Char) :
    r ∈ reported (virtPieces dev env pfn flags mapcount descr) ↔
      flags ≠ invalidValue ∧ r.isSet env flags = true := by
  have hplain : ∀ chars pieces, reported (Piece.plain chars :: pieces) = reported pieces := fun _ _ => rfl
  have hnil : reported [] = [] := rfl
  rw [virtPieces]
  by_cases hflags : flags = invalidValue
  · rw [if_pos hflags, hplain, hplain, hnil]
    exact iff_of_false List.not_mem_nil fun h => h.1 hflags
  · rw [if_neg hflags, List.cons_append, hplain, reported_append, hplain, hnil, List.append_nil,
      mem_reported_reports]
    exact ⟨fun h => ⟨hflags, h.1⟩, fun h => ⟨h.2, mem_fullNames r⟩⟩

theorem mem_reported_pagePieces (hbits : ∀ f, env.headerBit f < 32) (pfn count : Word) :
    r ∈ reported (pagePieces env pfn flags count) ↔
      (flags ≠ invalidValue ∨ r = .flag (.header .lru) ∨ r = .flag (.header .active) ∨
        r = .flag (.header .referenced)) ∧ r.isSet env flags = true := by
  have hplain : ∀ chars pieces, reported (Piece.plain chars :: pieces) = reported pieces := fun _ _ => rfl
  have hnil : reported [] = [] := rfl
  have hfirst : r ∈ reported (if flags ≠ invalidValue then reports env flags shortNames else []) ↔
      flags ≠ invalidValue ∧ r.isSet env flags = true ∧ r ∈ shortNames.map Prod.fst := by
    by_cases hflags : flags = invalidValue
    · rw [if_neg (not_not.mpr hflags)]
      exact iff_of_false List.not_mem_nil fun h => h.1 hflags
    · rw [if_pos hflags, mem_reported_reports]
      exact (and_iff_right hflags).symm
  have hcons : ∀ p pieces, reported (p :: pieces) = reported [p] ++ reported pieces :=
    fun p pieces => reported_append [p] pieces
  rw [pagePieces, reported_append, List.mem_append, hfirst, hplain, hplain, hcons, List.mem_append,
    reported_either hbits _ _ _ rfl, hcons (either env flags (.header .active) _ _), List.mem_append,
    reported_either hbits _ _ _ rfl, hcons (either env flags (.header .referenced) _ _), List.mem_append,
    reported_either hbits _ _ _ rfl, hplain, hnil]
  simp only [List.not_mem_nil, or_false]
  constructor
  · rintro (⟨hflags, hset, -⟩ | ⟨hlru, hset⟩ | ⟨hactive, hset⟩ | ⟨href, hset⟩)
    · exact ⟨.inl hflags, hset⟩
    · exact ⟨.inr (.inl hlru), hset⟩
    · exact ⟨.inr (.inr (.inl hactive)), hset⟩
    · exact ⟨.inr (.inr (.inr href)), hset⟩
  · rintro ⟨hflags | hlru | hactive | href, hset⟩
    · rcases mem_shortNames r with hname | hactive | href
      · exact .inl ⟨hflags, hset, hname⟩
      · exact .inr (.inr (.inl ⟨hactive, hset⟩))
      · exact .inr (.inr (.inr ⟨href, hset⟩))
    · exact .inr (.inl ⟨hlru, hset⟩)
    · exact .inr (.inr (.inl ⟨hactive, hset⟩))
    · exact .inr (.inr (.inr ⟨href, hset⟩))

/-- **The two reports agree** exactly if the page flags could be read: `pagestat` reports `LRU`, `ACTIVE` and
`REF` also if they could not. -/
theorem page_flag_reports_iff (hbits : ∀ f, env.headerBit f < 32) {val : Word} (hpfn : hasPfn val = true)
    (hzero : getPfn val ≠ 0#64) (dev : Devices) (pointer : List Char) (flags count mapcount : Word)
    (mapfields : Option MapData) (descr : List Char) :
    mappingText env val flags count =
        Pagestat.entryText val ++ render (pagePieces env (getPfn val) flags count) ∧
      (printFlagsVirtPrecalc dev env pointer val (extractPfn val) flags mapcount mapfields descr).2 =
        virtStart pointer val (extractPfn val) mapfields ++
          render (virtPieces dev env (extractPfn val) flags mapcount descr) ∧
      (ReportsAgree env flags (reported (pagePieces env (getPfn val) flags count))
        (reported (virtPieces dev env (extractPfn val) flags mapcount descr)) ↔ flags ≠ invalidValue) := by
  have hvalid : getPfn val ≠ invalidValue := by
    show ¬getPfn val = Pagestat.invalidValue
    rw [Pagestat.getPfn_eq_invalid, hpfn]
    exact Bool.noConfusion
  have hval : val ≠ invalidValue := by
    rintro rfl
    exact absurd hpfn (by decide)
  rw [extractPfn_eq]
  refine ⟨?_, printFlagsVirtPrecalc_page hbits hval hvalid hzero dev pointer flags mapcount mapfields descr, ?_⟩
  · rw [render_pagePieces hbits, mappingText_page hpfn]
  constructor
  · intro h hflags
    -- Every bit is set then.
    have hlru := (h.exact (.flag (.header .lru))).mp ((mem_reported_pagePieces hbits _ _).mpr
      ⟨Or.inr (Or.inl rfl), by
        show flags.getLsbD (env.bit (.header .lru)) = true
        have hbit : env.bit (.header .lru) < 64 := Nat.lt_trans (hbits .lru) (by decide)
        rw [hflags, invalidValue, BitVec.getLsbD_not, BitVec.getLsbD_zero, decide_eq_true hbit]
        rfl⟩)
    exact hlru.1 hflags
  · intro hflags
    have hpage : ∀ r, r ∈ reported (pagePieces env (getPfn val) flags count) ↔
        flags ≠ invalidValue ∧ r.isSet env flags = true := by
      intro r
      rw [mem_reported_pagePieces hbits, or_iff_left_of_imp fun _ => hflags]
    exact ⟨fun r => (hpage r).trans (mem_reported_virtPieces dev _ mapcount descr).symm, hpage⟩

def noDevices : Devices := ⟨fun _ => -1#32, fun _ => none⟩

/-- An anonymous page of a program that is its own. -/
theorem page_flag_reports_anon :
    ReportsAgree Env.linux 0x400001068
      (reported (pagePieces Env.linux (getPfn 0x8000000000000005) 0x400001068 1))
      (reported (virtPieces noDevices Env.linux (extractPfn 0x8000000000000005) 0x400001068 1 [])) := by
  have hbits : ∀ f, Env.linux.headerBit f < 32 := by
    intro f
    cases f <;> decide
  exact (page_flag_reports_iff hbits (by decide) (by decide) noDevices [] 0x400001068 1 1 none []).2.2.mpr
    (by decide)

/-- Three flags are reported that were never read. -/
theorem page_flag_reports_differ :
    reported (pagePieces Env.linux 5 invalidValue 1) =
        [.flag (.header .lru), .flag (.header .active), .flag (.header .referenced)] ∧
      ¬∀ env val dev flags count mapcount descr, (∀ f, env.headerBit f < 32) → hasPfn val = true →
        getPfn val ≠ 0#64 → ReportsAgree env flags (reported (pagePieces env (getPfn val) flags count))
          (reported (virtPieces dev env (extractPfn val) flags mapcount descr)) := by
  refine ⟨by decide, fun h => ?_⟩
  have hbits : ∀ f, Env.linux.headerBit f < 32 := by
    intro f
    cases f <;> decide
  have hagree := h Env.linux 0x8000000000000005 noDevices invalidValue 1 1 [] hbits (by decide) (by decide)
  exact ((hagree.exact (.flag (.header .lru))).mp (by decide)).1 rfl

end MmExper.ReadPageflags
