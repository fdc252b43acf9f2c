import MmExper.Pagestat.Lines

/-!
# Which blocks become snapshots

`get_smap_other_fields` sees that a block is over when it has read the header line of the next one, and
that line is gone then: the next snapshot begins by skipping the rest of that block. So of the blocks
of a well-formed `smaps` every other one is lost (`snapshots_alternate`).
-/

namespace MmExper.Pagestat

open Lib

variable {proc : Proc} {junk : Nat → Junk} {ms : PageStat} {b : Junk} {f : Field} {fs : List Field}
  {c : Block} {bs : List Block}

/-! ## The loop over the fields

It reads to the end of the block and one line further. -/

/-- A field line is read and the loop goes on, as long as there is a unit. -/
theorem Field.WellFormed.read (hf : f.WellFormed) (ms : PageStat)
    (hunit : f.isKb = true ∨ b.unit = "kB".toList) :
    ∃ ms' b', Reads [f] ms (some ms') ∧ b'.unit = "kB".toList ∧ ∀ fp,
      getSmapOtherFields ms b (f.line :: fp) = getSmapOtherFields ms' b' fp := by
  obtain ⟨b', hkb, hkey, hsize, hturn⟩ := hf.turn ms hunit
  obtain ⟨ms', hset, hreads⟩ := hf.setField ms hkey hsize
  exact ⟨ms', b', ⟨ms', rfl, hreads⟩, hkb, hturn ms' hset⟩

theorem Reads.cons {ms ms' : PageStat} {r : Option PageStat} (h : Reads [f] ms (some ms')) (h' : Reads fs ms' r) :
    Reads (f :: fs) ms r := by
  obtain ⟨_, ⟨⟩, h₁, h₂, h₃⟩ := h
  obtain ⟨ms'', hr, h₄, h₅, h₆⟩ := h'
  refine ⟨ms'', hr, h₄.trans h₁, h₅.trans h₂, ?_⟩
  rw [h₆, h₃]
  rfl

/-- So are many. -/
theorem read_fields (hfs : ∀ f ∈ fs, f.WellFormed) (ms : PageStat) (hunit : b.unit = "kB".toList) :
    ∃ ms' b', Reads fs ms (some ms') ∧ b'.unit = "kB".toList ∧ ∀ fp,
      getSmapOtherFields ms b (fs.map Field.line ++ fp) = getSmapOtherFields ms' b' fp := by
  induction fs generalizing ms b with
  | nil => exact ⟨ms, b, ⟨ms, rfl, rfl, rfl, rfl⟩, hunit, fun _ => rfl⟩
  | cons f fs ih =>
      obtain ⟨ms₁, b₁, hreads, hunit₁, hread⟩ := (hfs f List.mem_cons_self).read ms (.inr hunit)
      obtain ⟨ms₂, b₂, hreads', hunit₂, hread'⟩ :=
        ih (fun g hg => hfs g (List.mem_cons_of_mem _ hg)) ms₁ hunit₁
      exact ⟨ms₂, b₂, hreads.cons hreads', hunit₂, fun fp => (hread _).trans (hread' fp)⟩

/-- The fields of a block are read up to whatever comes after them. -/
theorem Block.WellFormed.read (hc : c.WellFormed) (ms : PageStat) (b : Junk) :
    ∃ ms' b', Reads c.fields ms (some ms') ∧ b'.unit = "kB".toList ∧ ∀ fp,
      getSmapOtherFields ms b (c.fields.map Field.line ++ fp) = getSmapOtherFields ms' b' fp := by
  obtain ⟨f, fs, hfs, hkb⟩ := hc.unit_first
  have hwf := hc.fields
  rw [hfs] at hwf ⊢
  obtain ⟨ms₁, b₁, hreads, hunit, hread⟩ := (hwf f List.mem_cons_self).read (b := b) ms (.inl hkb)
  obtain ⟨ms₂, b₂, hreads', hunit', hread'⟩ :=
    read_fields (fun g hg => hwf g (List.mem_cons_of_mem _ hg)) ms₁ hunit
  exact ⟨ms₂, b₂, hreads.cons hreads', hunit', fun fp => (hread _).trans (hread' fp)⟩

/-- The loop ends with the header line of the next block, and has read it. -/
theorem getSmapOtherFields_end (hbs : ∀ c ∈ bs, c.WellFormed) (hunit : b.unit = "kB".toList) :
    getSmapOtherFields ms b (bs.flatMap Block.lines) =
      some (some ms, (bs.flatMap Block.lines).tail) := by
  cases bs with
  | nil => rfl
  | cons c bs =>
      have hw := (hbs c List.mem_cons_self).header
      rw [List.flatMap_cons, Block.lines, List.cons_append]
      exact hw.getSmapOtherFields ms hunit _

/-! ## The search for a header line -/

/-- Field lines are skipped. -/
theorem findHeader_fields (vaddr : Word) (hfs : ∀ f ∈ fs, f.WellFormed) (buf : List Char) :
    ∃ buf', ∀ fp, findHeader vaddr buf (fs.map Field.line ++ fp) = findHeader vaddr buf' fp := by
  apply findHeader_fieldLines
  intro l hl
  obtain ⟨f, hf, rfl⟩ := List.mem_map.mp hl
  exact (hfs f hf).isFieldLine

/-- The first header line is taken. -/
theorem Header.WellFormed.findHeader {h : Header} (hw : h.WellFormed) (buf : List Char) (fp : File) :
    Pagestat.findHeader invalidValue buf (h.line :: fp) =
      some (some (h.addresses.1, h.addresses.2, h.line), fp) := by
  rw [hw.findHeader_line, if_pos (Or.inl rfl)]

/-! ## One snapshot

What is lost is the first line of the rest. -/

def PageStat.addresses (ps : PageStat) : Word × Word := (ps.vmaStart, ps.vmaEnd)

/-- The pagemap entries of the VMA: as many pages as its size says, from its first one on. -/
def Block.pagemaps (proc : Proc) (c : Block) : Option (List Word) :=
  readU64s proc.pagemap (c.header.addresses.1 / proc.pageSize).toNat
    (sizeAfter 0#64 c.fields * 1024#64 / proc.pageSize).toNat

/-- The pages of the VMAs can be looked up. -/
def PagemapReads (proc : Proc) (bs : List Block) : Prop := ∀ c ∈ bs, ∃ values, c.pagemaps proc = some values

/-- The page tables change nothing about the addresses. -/
theorem getPagetableFields_block {values : List Word} {ps : PageStat} (hp : c.pagemaps proc = some values)
    (hstart : ps.vmaStart = c.header.addresses.1) (hsize : ps.vmSize = sizeAfter 0#64 c.fields) :
    ∃ ps', Pagestat.getPagetableFields proc ps = some ps' ∧ ps'.addresses = ps.addresses := by
  rw [Block.pagemaps, ← hstart, ← hsize] at hp
  rw [Pagestat.getPagetableFields]
  simp only [countVirtPages, hp, Option.map_some]
  refine ⟨_, rfl, ?_⟩
  rw [tweakCounts]
  split <;> rfl

/-- A snapshot of what is left after a block was lost: its fields and the blocks `bs`. -/
theorem snapshot_next {values : List Word} (hp : c.pagemaps proc = some values) (j : Junk) (hfs : ∀ f ∈ fs, f.WellFormed)
    (hc : c.WellFormed) (hbs : ∀ c ∈ bs, c.WellFormed) :
    if c.header.NameFits then
      ∃ ps, getPagestatSnapshot proc j (some (fs.map Field.line ++ (c :: bs).flatMap Block.lines))
          invalidValue = some (some ps, some (bs.flatMap Block.lines).tail) ∧
        ps.addresses = c.header.addresses
    else
      getPagestatSnapshot proc j (some (fs.map Field.line ++ (c :: bs).flatMap Block.lines))
        invalidValue = none := by
  obtain ⟨buf, hskip⟩ := findHeader_fields invalidValue hfs j.buf
  have hhead : findHeader invalidValue j.buf (fs.map Field.line ++ (c :: bs).flatMap Block.lines) =
      some (some (c.header.addresses.1, c.header.addresses.2, c.header.line),
        c.fields.map Field.line ++ bs.flatMap Block.lines) := by
    rw [hskip, List.flatMap_cons, Block.lines, List.cons_append, hc.header.findHeader]
  rw [getPagestatSnapshot, hhead]
  simp only [hc.header.getSmapHeaderFields]
  by_cases hf : c.header.NameFits
  · simp only [if_pos hf]
    -- A name for the record, whose other fields do not matter.
    generalize hms : ({ PageStat.zero with
      vmaStart := c.header.addresses.1
      vmaEnd := c.header.addresses.2
      perms := c.header.perms
      offset := parseHex c.header.offset
      name := _ } : PageStat) = ms
    obtain ⟨ms', b', ⟨_, ⟨⟩, hfirst, hlast, hsize⟩, hunit, hread⟩ := hc.read ms j
    rw [← hms] at hfirst hlast hsize
    obtain ⟨ps, hps, haddr⟩ := getPagetableFields_block hp hfirst hsize
    simp only [hread, getSmapOtherFields_end hbs hunit, hps]
    refine ⟨ps, rfl, haddr.trans ?_⟩
    rw [PageStat.addresses, hfirst, hlast]
  · simp only [if_neg hf]

/-- Nothing but fields left: no more snapshots. -/
theorem snapshot_none (proc : Proc) (j : Junk) (hfs : ∀ f ∈ fs, f.WellFormed) :
    getPagestatSnapshot proc j (some (fs.map Field.line)) invalidValue = some (none, some []) := by
  obtain ⟨buf, hskip⟩ := findHeader_fields invalidValue hfs j.buf
  have hend := hskip []
  rw [List.append_nil] at hend
  rw [getPagestatSnapshot, hend]
  rfl

/-! ## All snapshots

With its header line gone, the next block is skipped as so many field lines. So every other block
becomes a snapshot. -/

/-- Every other one, from the first on. -/
def alternate {α : Type} : List α → List α
  | [] => []
  | [a] => [a]
  | a :: _ :: as => a :: alternate as

theorem alternate_cons {α : Type} (a : α) (as : List α) :
    alternate (a :: as) = a :: alternate as.tail := by
  cases as <;> simp [alternate]

theorem length_alternate {α : Type} (as : List α) : (alternate as).length = (as.length + 1) / 2 := by
  induction as using alternate.induct with
  | case1 => simp [alternate]
  | case2 a => simp [alternate]
  | case3 a b as ih =>
      simp only [alternate, List.length_cons, ih]
      omega

/-- What is left after the header line of the first block is lost. -/
theorem tail_lines (hbs : ∀ c ∈ bs, c.WellFormed) : ∃ fs : List Field, (∀ f ∈ fs, f.WellFormed) ∧
    (bs.flatMap Block.lines).tail = fs.map Field.line ++ bs.tail.flatMap Block.lines := by
  cases bs with
  | nil => exact ⟨[], by simp, rfl⟩
  | cons c bs => exact ⟨c.fields, (hbs c List.mem_cons_self).fields, rfl⟩

/-- The snapshots of what is left after a block was lost. -/
def Alternates (r : Option (Option (List PageStat))) (bs : List Block) : Prop :=
  if ∀ c ∈ alternate bs, c.header.NameFits then
    ∃ pss, r = some (some pss) ∧ pss.map PageStat.addresses =
      (alternate bs).map fun c => c.header.addresses
  else r = none

/-- **Every other block** becomes a snapshot, unless a name is too long for its buffer. -/
theorem snapshots_alternate (hp : PagemapReads proc bs) (junk : Nat → Junk) {n : Nat}
    (hbs : ∀ c ∈ bs, c.WellFormed) (hfs : ∀ f ∈ fs, f.WellFormed) (hn : bs.length < n) :
    Alternates (snapshots proc junk (some (fs.map Field.line ++ bs.flatMap Block.lines)) n) bs := by
  induction n generalizing bs fs with
  | zero => omega
  | succ n ih =>
      rw [snapshots]
      cases bs with
      | nil =>
          rw [List.flatMap_nil, List.append_nil, snapshot_none proc (junk n) hfs, Alternates,
            if_pos (by simp [alternate])]
          exact ⟨[], rfl, by simp [alternate]⟩
      | cons c bs =>
          -- The block is read to its end and one line further, which is the next block's header.
          obtain ⟨values, hv⟩ := hp c List.mem_cons_self
          have hone := snapshot_next hv (junk n) hfs (hbs c List.mem_cons_self)
            fun d hd => hbs d (List.mem_cons_of_mem _ hd)
          obtain ⟨fs', hfs', htail⟩ := tail_lines fun d hd => hbs d (List.mem_cons_of_mem _ hd)
          have hblocks : ∀ d ∈ bs.tail, d.WellFormed := fun d hd =>
            hbs d (List.mem_cons_of_mem _ (List.mem_of_mem_tail hd))
          have hpages : PagemapReads proc bs.tail := fun d hd =>
            hp d (List.mem_cons_of_mem _ (List.mem_of_mem_tail hd))
          have hrest := ih hpages hblocks hfs' (by simp only [List.length_cons, List.length_tail] at *; omega)
          rw [Alternates] at hrest ⊢
          simp only [alternate_cons, List.forall_mem_cons, List.map_cons]
          -- The name of a header line that is read has to fit.
          by_cases hf : c.header.NameFits
          · rw [if_pos hf] at hone
            obtain ⟨ps, hps, haddr⟩ := hone
            rw [hps, htail]
            simp only [hf, true_and]
            split at hrest
            · next hfits =>
              obtain ⟨pss, hpss, haddrs⟩ := hrest
              rw [if_pos hfits, hpss]
              exact ⟨ps :: pss, rfl, by rw [List.map_cons, haddr, haddrs]⟩
            · next hfits =>
              rw [if_neg hfits, hrest]
              rfl
          · rw [if_neg hf] at hone
            rw [hone, if_neg fun h => hf h.1]

/-! ## Complete snapshots -/

/-- The text is that of the blocks, and their pages can be looked up. -/
structure Shows (proc : Proc) (bs : List Block) : Prop where
  text : proc.smaps = some (smaps bs)
  blocks : ∀ c ∈ bs, c.WellFormed
  few : bs.length < maxMaps
  pagemap : PagemapReads proc bs

/-- There is one entry for each VMA, in order, with its addresses. -/
def Complete (proc : Proc) (junk : Nat → Junk) (bs : List Block) : Prop :=
  ∃ pss, pagestatSnapshotAll proc junk = some (some pss) ∧
    pss.map PageStat.addresses = bs.map fun c => c.header.addresses

/-- The lines of the text are those of the blocks. -/
theorem Shows.lines (h : Shows proc bs) : proc.smaps.map Lib.lines = some (bs.flatMap Block.lines) := by
  rw [h.text, Option.map_some, smaps, lines_flatten]
  intro l hl
  obtain ⟨c, hc, hl⟩ := List.mem_flatMap.mp hl
  rcases List.mem_cons.mp hl with rfl | hl
  · exact (h.blocks c hc).header.isLine
  · obtain ⟨f, hf, rfl⟩ := List.mem_map.mp hl
    exact ((h.blocks c hc).fields f hf).isLine

theorem Shows.alternates (h : Shows proc bs) (junk : Nat → Junk) :
    Alternates (pagestatSnapshotAll proc junk) bs := by
  rw [pagestatSnapshotAll, h.lines]
  have hnone : ∀ f ∈ ([] : List Field), f.WellFormed := by simp
  exact snapshots_alternate h.pagemap junk h.blocks hnone h.few

/-- **A snapshot of everything** has an entry for every VMA exactly when there is at most one VMA, and
the first word of its pathname is shorter than its buffer. -/
theorem snapshot_all_complete_iff (h : Shows proc bs) (junk : Nat → Junk) :
    Complete proc junk bs ↔ bs.length ≤ 1 ∧ ∀ c ∈ bs, c.header.NameFits := by
  have halt := h.alternates junk
  rw [Alternates] at halt
  constructor
  · rintro ⟨pss, hpss, haddr⟩
    rw [hpss] at halt
    split at halt
    · next hfits =>
      obtain ⟨_, ⟨⟩, haddr'⟩ := halt
      have hlen := congrArg List.length (haddr.symm.trans haddr')
      rw [List.length_map, List.length_map, length_alternate] at hlen
      have hone : bs.length ≤ 1 := by omega
      refine ⟨hone, fun c hc => hfits c ?_⟩
      match bs, hone with
      | [_], _ => exact hc
    · cases halt
  · rintro ⟨hone, hfits⟩
    have heq : alternate bs = bs := by
      match bs, hone with
      | [], _ => rfl
      | [_], _ => rfl
    rw [heq, if_pos hfits] at halt
    exact halt

def pageHeader : Header where
  first := "00400000".toList
  last := "00401000".toList
  perms := "r-xp".toList
  offset := "00000000".toList
  dev := "08:02".toList
  inode := "173521".toList
  pad := 10
  name := "/usr/bin/dbus".toList

theorem pageHeader_wellFormed : pageHeader.WellFormed where
  first := ⟨⟨by decide, forall_mem_of_all (by decide), by decide⟩, by decide⟩
  last := ⟨⟨by decide, forall_mem_of_all (by decide), by decide⟩, by decide⟩
  perms := ⟨by decide, forall_mem_of_all (by decide)⟩
  offset := ⟨by decide, forall_mem_of_all (by decide), by decide⟩
  dev := ⟨"08".toList, "02".toList, ⟨by decide, forall_mem_of_all (by decide), by decide⟩,
    ⟨by decide, forall_mem_of_all (by decide), by decide⟩, by decide⟩
  inode := ⟨by decide, forall_mem_of_all (by decide)⟩
  name_line := by decide
  name_word := by
    rintro c ⟨⟩
    decide

def pageBlock (h : Header) : Block where
  header := h
  fields := [.kb "Size:".toList 16 "4".toList, .plain "THPeligible:".toList 4 "0".toList,
    .vmFlags [('r', 'd'), ('e', 'x')]]

theorem pageBlock_wellFormed {h : Header} (hw : h.WellFormed) : (pageBlock h).WellFormed where
  header := hw
  fields := by
    simp only [pageBlock, List.forall_mem_cons]
    exact ⟨⟨⟨⟨by decide, forall_mem_of_all (by decide)⟩, by decide, by decide, by decide⟩,
        by decide, forall_mem_of_all (by decide)⟩,
      ⟨⟨⟨by decide, forall_mem_of_all (by decide)⟩, by decide, by decide, by decide⟩,
        by decide, forall_mem_of_all (by decide)⟩,
      ⟨by decide, by decide⟩, by simp⟩
  unit_first := ⟨_, _, rfl, rfl⟩
  flags_last := ⟨[_, _], _, rfl, rfl, by simp [Field.isFlags]⟩

def nextHeader : Header :=
  { pageHeader with first := "00401000".toList, last := "00402000".toList }

theorem nextHeader_wellFormed : nextHeader.WellFormed :=
  { pageHeader_wellFormed with
    first := ⟨⟨by decide, forall_mem_of_all (by decide), by decide⟩, by decide⟩
    last := ⟨⟨by decide, forall_mem_of_all (by decide), by decide⟩, by decide⟩ }

/-- A process with these VMAs and nothing mapped yet. -/
def unmapped (bs : List Block) : Proc where
  smaps := some (smaps bs)
  pagemap := some fun _ => some 0#64
  kpagecount := none
  kpageflags := none
  pageSize := 4096#64

theorem unmapped_pagemap (bs : List Block) : PagemapReads (unmapped bs) bs := by
  intro c _
  rw [Block.pagemaps]
  generalize (sizeAfter 0#64 c.fields * 1024#64 / (unmapped bs).pageSize).toNat = count
  refine ⟨(List.range count).map fun _ => 0#64, ?_⟩
  simp only [readU64s, unmapped, Option.bind_some]
  generalize List.range count = l
  induction l with
  | nil => rfl
  | cons i l ih => simp [ih]

theorem unmapped_shows {bs : List Block} (hbs : ∀ c ∈ bs, c.WellFormed) (hlen : bs.length < maxMaps) :
    Shows (unmapped bs) bs :=
  ⟨rfl, hbs, hlen, unmapped_pagemap bs⟩

def noJunk (_ : Nat) : Junk := ⟨[], [], 0, []⟩

theorem snapshot_all_complete_one : Complete (unmapped [pageBlock pageHeader]) noJunk [pageBlock pageHeader] :=
  (snapshot_all_complete_iff (unmapped_shows (by simpa using pageBlock_wellFormed pageHeader_wellFormed)
    (by decide)) noJunk).mpr ⟨by decide, by decide⟩

/-- Of two VMAs only the first one gets an entry. -/
theorem snapshot_all_incomplete :
    ¬∀ proc junk bs, Shows proc bs → Complete proc junk bs := by
  intro h
  obtain ⟨pss, hpss, haddr⟩ := h (unmapped [pageBlock pageHeader, pageBlock nextHeader]) noJunk _
    (unmapped_shows (by simpa using ⟨pageBlock_wellFormed pageHeader_wellFormed,
      pageBlock_wellFormed nextHeader_wellFormed⟩) (by decide))
  have hone : (pagestatSnapshotAll (unmapped [pageBlock pageHeader, pageBlock nextHeader]) noJunk).map
      (·.map List.length) = some (some 1) := by
    decide +kernel
  rw [hpss] at hone
  have hlen := congrArg List.length haddr
  rw [List.length_map, List.length_map] at hlen
  simp [hlen] at hone

end MmExper.Pagestat
