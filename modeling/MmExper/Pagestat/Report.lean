import MmExper.Pagestat.Fields
import MmExper.Pagestat.Print
import MmExper.ReadPageflags.Lookup

/-!
# From `smaps` to a listing

`pagestat_snapshot()` looks an address up in `smaps`, reads the block of its VMA and the page tables, and
`pagestat_print()` prints what it found. What is printed is what the kernel wrote, except for the resident size: it is
counted from the page tables, and marked if `smaps` says something else.
-/

namespace MmExper.Pagestat

open Lib
open ReadPageflags (Mapping Ascending mapsText smapsText smapsLines EndsAt EndsNowhere)

/-- `pagestat_snapshot()` and `pagestat_snapshot_remote()`: nothing where the file cannot be opened, which is closed all
the same. -/
def pagestatSnapshot (proc : Proc) (junk : Junk) (vaddr : Word) : Option (Option PageStat) :=
  match proc.smaps with
  | none => none
  | some text => (getPagestatSnapshot proc junk (some (lines text)) vaddr).map Prod.fst

/-- The number in the field, zero if there is none. -/
def fieldValue (fs : List Field) (key : String) : Word := (valueOf fs key.toList).getD 0#64

def pagemapOf (proc : Proc) (h : Header) (fs : List Field) : Option (List Word) :=
  readU64s proc.pagemap (h.addresses.1 / proc.pageSize).toNat
    (fieldValue fs "Size:" * 1024#64 / proc.pageSize).toNat

/-- The pages that have a PFN, in kB. -/
def residentKib (pageSize : Word) (pagemaps : List Word) : Word :=
  BitVec.ofNat 64 (pagemaps.countP hasPfn) * pageSize / 1024#64

/-- What the kernel wrote about a VMA, as it is printed. -/
def report (pageSize : Word) (h : Header) (fs : List Field) (flags : List (Char × Char)) (pagemaps : List Word) :
    List Char :=
  let rss := residentKib pageSize pagemaps
  let mark := if fieldValue fs "Rss:" = rss then [] else "*".toList
  doPrintName (if h.name = [] then "(anon)".toList else h.name.takeWhile (!isSpace ·)) ++
    ("0x".toList ++ hexadecimal h.addresses.1 ++ " [vma_start]\n".toList) ++
    ("0x".toList ++ hexadecimal h.addresses.2 ++ " [vma_end]\n\n".toList) ++
    (field "vm_size" (decimal (fieldValue fs "Size:")) ++ field " rss" (decimal rss ++ mark) ++
      field " ref" (decimal (fieldValue fs "Referenced:")) ++ field " anon" (decimal (fieldValue fs "Anonymous:")) ++
      field " anon_huge" (decimal (fieldValue fs "AnonHugePages:")) ++
      field " swap" (decimal (fieldValue fs "Swap:")) ++ field " locked" (decimal (fieldValue fs "Locked:")) ++
      field "\nvm_flags" (mnemonics flags) ++ field " perms" h.perms ++
      field " offset" (decimal (BitVec.ofNat 64 (numeral 16 h.offset))) ++ "\n\n".toList)

variable {proc : Proc} {junk : Junk} {ms pre post : List Mapping} {m : Mapping} {v : Word} {fs : List Field}
  {flags : List (Char × Char)} {pagemaps : List Word} {ps : PageStat}

/-! ## The record

The parts of the call in order: the search, the fields, the page tables. -/

/-- After the block of a VMA comes the next one, if there is one. -/
theorem follows_smapsLines (h : ∀ m ∈ post, m.WellFormed) : Follows (smapsLines post) := by
  cases post with
  | nil => exact Or.inl rfl
  | cons m post => exact Or.inr ⟨m.header, (h m List.mem_cons_self).header, _, rfl⟩

/-- The record of a VMA, before the page tables are read. -/
def Header.record (h : Header) (fs : List Field) (flags : List (Char × Char)) : PageStat :=
  { PageStat.zero with
    vmaStart := h.addresses.1
    vmaEnd := h.addresses.2
    perms := h.perms
    offset := BitVec.ofNat 64 (numeral 16 h.offset)
    name := if h.name = [] then none else some (h.name.takeWhile (!isSpace ·))
    vmSize := fieldValue fs "Size:"
    rss := fieldValue fs "Rss:"
    referenced := fieldValue fs "Referenced:"
    anon := fieldValue fs "Anonymous:"
    anonHuge := fieldValue fs "AnonHugePages:"
    swap := fieldValue fs "Swap:"
    locked := fieldValue fs "Locked:"
    vmFlags := some (mnemonics flags) }

def PageStat.withPages (ps : PageStat) (proc : Proc) (pagemaps : List Word) : PageStat :=
  tweakCounts proc.pageSize
    { ps with
      pagemaps := pagemaps
      kpagecounts := pfnValues proc.kpagecount pagemaps
      kpageflags := pfnValues proc.kpageflags pagemaps }

theorem getPagestatSnapshot_vma (h : ∀ n ∈ pre ++ m :: post, n.WellFormed)
    (hend : findHeader v junk.buf (lines (smapsText (pre ++ m :: post))) =
      some (some (m.first, m.last, m.header.line), m.fields ++ smapsLines post))
    (hname : m.header.NameFits) (hbody : IsBody fs flags) (hfields : m.fields = fs.map Field.line)
    (hpages : pagemapOf proc m.header fs = some pagemaps) :
    getPagestatSnapshot proc junk (some (lines (smapsText (pre ++ m :: post)))) v =
      some (some ((m.header.record fs flags).withPages proc pagemaps), some (smapsLines post).tail) := by
  have hm := (h m (by simp)).header
  have hafter : Follows (smapsLines post) := follows_smapsLines fun n hn => h n (by simp [hn])
  rw [getPagestatSnapshot, hend]
  simp only [hm.getSmapHeaderFields, if_pos hname, hfields, hbody.getSmapOtherFields_eq hafter]
  have hrecord : ({ PageStat.zero with
      vmaStart := m.first
      vmaEnd := m.last
      offset := parseHex m.header.offset
      perms := m.header.perms
      name := if m.header.name = [] then PageStat.zero.name else some (m.header.name.takeWhile (!isSpace ·)) } :
      PageStat).read fs = m.header.record fs flags := by
    rw [PageStat.read, hbody.flagsOf, parseHex_numeral hm.offset.digits]
    rfl
  have htables : Pagestat.getPagetableFields proc (m.header.record fs flags) =
      some ((m.header.record fs flags).withPages proc pagemaps) := by
    rw [Pagestat.getPagetableFields]
    exact congrArg (Option.map _) hpages
  rw [← htables, ← hrecord]

/-! ## The text

The record holds the numbers of the fields, and so does the report. -/

/-- The pages that have a PFN are counted, and nothing else is changed. -/
theorem withPages_eq (ps : PageStat) : ps.withPages proc pagemaps =
    { ps with
      rss := residentKib proc.pageSize pagemaps
      rssCounted := if ps.rss = residentKib proc.pageSize pagemaps then ps.rssCounted else true
      pagemaps := pagemaps
      kpagecounts := pfnValues proc.kpagecount pagemaps
      kpageflags := pfnValues proc.kpageflags pagemaps } := by
  rw [PageStat.withPages, tweakCounts]
  show (if ps.rss = residentKib proc.pageSize pagemaps then _ else _) = _
  split
  · next hrss => rw [← hrss]
  · rfl

theorem printHeader_report (h : Header) : printHeader ((h.record fs flags).withPages proc pagemaps) =
    report proc.pageSize h fs flags pagemaps := by
  have hname : printName (h.record fs flags) =
      doPrintName (if h.name = [] then "(anon)".toList else h.name.takeWhile (!isSpace ·)) := by
    rw [printName, Header.record]
    by_cases hnil : h.name = []
    · simp only [if_pos hnil]
    · simp only [if_neg hnil]
  have hmark : (if (if fieldValue fs "Rss:" = residentKib proc.pageSize pagemaps then false else true) = true then
      "*".toList else []) =
      if fieldValue fs "Rss:" = residentKib proc.pageSize pagemaps then [] else "*".toList := by
    split <;> rfl
  rw [withPages_eq, report, ← hmark, ← hname]
  rfl

/-- **A snapshot shows what the kernel wrote** about the VMA that the address is in, with the resident size that the
page tables show, and there is no snapshot of an address that is in no VMA. -/
theorem snapshot_reports (h : ∀ m ∈ ms, m.WellFormed) (hasc : Ascending ms) (hsmaps : proc.smaps = some (smapsText ms))
    (junk : Junk) (hv : v ≠ invalidValue) :
    ((∀ m ∈ ms, ¬m.Has v) → pagestatSnapshot proc junk v = some none) ∧
    ∀ m ∈ ms, m.Has v → m.header.NameFits → ∀ fs flags pagemaps, IsBody fs flags → m.fields = fs.map Field.line →
      pagemapOf proc m.header fs = some pagemaps →
      ∃ ps, pagestatSnapshot proc junk v = some (some ps) ∧
        printHeader ps = report proc.pageSize m.header fs flags pagemaps ∧
        ps.pagemaps = pagemaps ∧ ps.kpagecounts = pfnValues proc.kpagecount pagemaps ∧
        ps.kpageflags = pfnValues proc.kpageflags pagemaps := by
  have hsnapshot : pagestatSnapshot proc junk v =
      (getPagestatSnapshot proc junk (some (lines (smapsText ms))) v).map Prod.fst := by
    rw [pagestatSnapshot, hsmaps]
  rw [hsnapshot]
  constructor
  · intro hno
    have hends : EndsNowhere ms v [] junk.buf (0, 0) := .of_not_has h hno hv [] junk.buf (0, 0)
    rw [hends.snapshot proc junk rfl]
    rfl
  · intro m hm hmv hname fs flags pagemaps hbody hfields hpages
    obtain ⟨pre, post, rfl⟩ := List.append_of_mem hm
    have hends : EndsAt (pre ++ m :: post) v [] junk.buf (0, 0) m post :=
      .of_has h (fun n hn => hasc.unique hmv n (List.mem_append_left _ hn)) hmv hv [] junk.buf (0, 0)
    rw [getPagestatSnapshot_vma h hends.smaps hname hbody hfields hpages]
    refine ⟨_, rfl, printHeader_report m.header, ?_⟩
    rw [withPages_eq]
    exact ⟨rfl, rfl, rfl⟩

def pageFields : List Field :=
  [.kb "Size:".toList 16 "4".toList, .kb "Rss:".toList 17 "0".toList, .vmFlags [('r', 'd'), ('e', 'x')]]

theorem pageFields_isBody : IsBody pageFields [('r', 'd'), ('e', 'x')] where
  fields := by
    simp only [pageFields, List.forall_mem_cons]
    exact ⟨⟨⟨⟨by decide, forall_mem_of_all (by decide)⟩, by decide, by decide, by decide⟩,
        by decide, forall_mem_of_all (by decide)⟩,
      ⟨⟨⟨by decide, forall_mem_of_all (by decide)⟩, by decide, by decide, by decide⟩,
        by decide, forall_mem_of_all (by decide)⟩,
      ⟨by decide, by decide⟩, by simp⟩
  values := by decide
  unit_first := ⟨_, _, rfl, rfl⟩
  keys := by decide
  flags := by simp [pageFields]

def onePageProc : Proc where
  smaps := some (smapsText [⟨pageHeader, pageFields.map Field.line⟩])
  pagemap := some fun _ => some 0x8000000000000005
  kpagecount := none
  kpageflags := none
  pageSize := 4096#64

theorem snapshot_reports_onePage :
    ∃ ps, pagestatSnapshot onePageProc ⟨[], [], 0, []⟩ 0x400000 = some (some ps) ∧
      printHeader ps = report 4096#64 pageHeader pageFields [('r', 'd'), ('e', 'x')] [0x8000000000000005] ∧
      ps.pagemaps = [0x8000000000000005] ∧ ps.kpagecounts = pfnValues none [0x8000000000000005] ∧
      ps.kpageflags = pfnValues none [0x8000000000000005] := by
  have hlines : ∀ l ∈ pageFields.map Field.line, IsFieldLine l := by
    rw [List.forall_mem_map]
    exact fun f hf => (pageFields_isBody.fields f hf).isFieldLine
  have hwell : ∀ m ∈ [(⟨pageHeader, pageFields.map Field.line⟩ : Mapping)], m.WellFormed := by
    rw [List.forall_mem_singleton]
    exact ⟨pageHeader_wellFormed, hlines, by decide⟩
  exact (snapshot_reports hwell (List.pairwise_singleton _ _) (show onePageProc.smaps = _ from rfl) ⟨[], [], 0, []⟩
    (by decide)).2
    _ (List.mem_singleton_self _) (by decide) (by decide) pageFields _ _ pageFields_isBody rfl (by decide)

end MmExper.Pagestat
