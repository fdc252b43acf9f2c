import MmExper.Pagestat.Complete
import MmExper.ReadPageflags.Maps

/-!
# Two searches for one address

`read_mapdata` looks an address up in `maps`, where every line is a header line, and
`get_pagestat_snapshot` in `smaps`, where the lines of fields have to be told from them. Both compare with
the range in the same way, so they end at the line of the same VMA.
-/

namespace MmExper.ReadPageflags

open Lib
open Pagestat (File Header IsFieldLine PageStat)

/-- A VMA as `maps` and `smaps` show it. -/
structure Mapping where
  header : Header
  /-- The lines after the header line in `smaps`. -/
  fields : List (List Char)

def Mapping.first (m : Mapping) : Word := m.header.addresses.1
def Mapping.last (m : Mapping) : Word := m.header.addresses.2

def Mapping.Has (m : Mapping) (v : Word) : Prop := v ≥ m.first ∧ v < m.last

instance (m : Mapping) (v : Word) : Decidable (m.Has v) := inferInstanceAs (Decidable (_ ∧ _))

structure Mapping.WellFormed (m : Mapping) : Prop where
  header : m.header.WellFormed
  fields : ∀ l ∈ m.fields, IsFieldLine l
  nonempty : m.first < m.last

/-- The VMAs are in order and apart. -/
def Ascending (ms : List Mapping) : Prop := ms.Pairwise fun m n => m.last ≤ n.first

def mapsLines (ms : List Mapping) : List (List Char) := ms.map fun m => m.header.line

def smapsLines (ms : List Mapping) : List (List Char) := ms.flatMap fun m => m.header.line :: m.fields

def mapsText (ms : List Mapping) : List Char := (mapsLines ms).flatten
def smapsText (ms : List Mapping) : List Char := (smapsLines ms).flatten

variable {ms pre post : List Mapping} {m : Mapping} {v : Word} {buf : List Char} {range : Word × Word}
  {fp : File}

/-! ## Lines -/

theorem lines_mapsText (h : ∀ m ∈ ms, m.WellFormed) : lines (mapsText ms) = mapsLines ms := by
  apply lines_flatten
  intro l hl
  obtain ⟨m, hm, rfl⟩ := List.mem_map.mp hl
  exact (h m hm).header.isLine

theorem lines_smapsText (h : ∀ m ∈ ms, m.WellFormed) : lines (smapsText ms) = smapsLines ms := by
  apply lines_flatten
  intro l hl
  obtain ⟨m, hm, hl⟩ := List.mem_flatMap.mp hl
  rcases List.mem_cons.mp hl with rfl | hl
  · exact (h m hm).header.isLine
  · exact ((h m hm).fields l hl).line

/-! ## The search in `maps`

Every line is a header line, and its range is tried. -/

/-- A line is taken if the address is in its range. -/
theorem Mapping.WellFormed.findMap (h : m.WellFormed) (v : Word) (buf : List Char) (range : Word × Word)
    (fp : File) : ReadPageflags.findMap v buf range (m.header.line :: fp) =
      if m.Has v then some (some (m.first, m.last, m.header.line), fp)
      else ReadPageflags.findMap v m.header.first (m.first, m.last) fp := by
  have hw := h.header
  have hfirst : Pagestat.IsAddress m.header.first := ⟨hw.first.1.ne_nil, hw.first.1.digits, hw.first.2⟩
  have hlast : Pagestat.IsAddress m.header.last := ⟨hw.last.1.ne_nil, hw.last.1.digits, hw.last.2⟩
  have hrange : extractAddressRange m.header.range range = (true, m.header.first, m.first, m.last) := by
    rw [extractAddressRange, Pagestat.extractAddressRangeInto_eq, Header.range,
      Pagestat.extractAddressRange_printed hfirst hlast]
    rfl
  rw [ReadPageflags.findMap, hw.sscanf_range]
  simp only [sscanf, Option.map_some, hrange]
  rfl

/-- The lines of other VMAs are skipped. -/
theorem findMap_skip (h : ∀ m ∈ pre, m.WellFormed) (hno : ∀ m ∈ pre, ¬m.Has v) (buf : List Char)
    (range : Word × Word) : ∃ buf' range', ∀ fp,
      findMap v buf range (mapsLines pre ++ fp) = findMap v buf' range' fp := by
  induction pre generalizing buf range with
  | nil => exact ⟨buf, range, fun _ => rfl⟩
  | cons m pre ih =>
      obtain ⟨buf', range', hskip⟩ := ih (fun n hn => h n (List.mem_cons_of_mem _ hn))
        (fun n hn => hno n (List.mem_cons_of_mem _ hn)) m.header.first (m.first, m.last)
      refine ⟨buf', range', fun fp => ?_⟩
      show findMap v buf range (m.header.line :: (mapsLines pre ++ fp)) = _
      rw [(h m List.mem_cons_self).findMap, if_neg (hno m List.mem_cons_self)]
      exact hskip fp

/-! ## The search in `smaps`

The lines of fields are skipped by their first word. -/

theorem Mapping.WellFormed.findHeader (h : m.WellFormed) (hv : v ≠ Pagestat.invalidValue) (buf : List Char)
    (fp : File) : Pagestat.findHeader v buf (m.header.line :: fp) =
      if m.Has v then some (some (m.first, m.last, m.header.line), fp)
      else Pagestat.findHeader v m.header.first fp := by
  rw [h.header.findHeader_line]
  simp only [hv, false_or]
  rfl

/-- So are they here, with their fields. -/
theorem findHeader_skip (h : ∀ m ∈ pre, m.WellFormed) (hno : ∀ m ∈ pre, ¬m.Has v)
    (hv : v ≠ Pagestat.invalidValue) (buf : List Char) : ∃ buf', ∀ fp,
      Pagestat.findHeader v buf (smapsLines pre ++ fp) = Pagestat.findHeader v buf' fp := by
  induction pre generalizing buf with
  | nil => exact ⟨buf, fun _ => rfl⟩
  | cons m pre ih =>
      have hm := h m List.mem_cons_self
      obtain ⟨key, hfields⟩ := Pagestat.findHeader_fieldLines hm.fields v m.header.first
      obtain ⟨buf', hskip⟩ := ih (fun n hn => h n (List.mem_cons_of_mem _ hn))
        (fun n hn => hno n (List.mem_cons_of_mem _ hn)) key
      refine ⟨buf', fun fp => ?_⟩
      have hlines : smapsLines (m :: pre) ++ fp = m.header.line :: (m.fields ++ (smapsLines pre ++ fp)) := by
        rw [smapsLines, List.flatMap_cons, List.append_assoc, List.cons_append, smapsLines]
      rw [hlines, hm.findHeader hv, if_neg (hno m List.mem_cons_self), hfields]
      exact hskip fp

/-! ## One VMA or none

As the VMAs are in order and apart, at most one has the address, and the searches stop at the first
that has. -/

/-- VMAs that are apart do not share an address. -/
theorem Ascending.unique (h : Ascending (pre ++ m :: post)) (hm : m.Has v) : ∀ n ∈ pre ++ post, ¬n.Has v := by
  obtain ⟨-, hpost, hpre⟩ := List.pairwise_append.mp h
  -- An address below `last` is not one at or above a start that comes later.
  have apart : ∀ p q : Mapping, p.last ≤ q.first → p.Has v → ¬q.Has v := by
    intro p q hle hp hq
    have h₁ := BitVec.lt_def.mp hp.2
    have h₂ := BitVec.le_def.mp hle
    have h₃ := BitVec.le_def.mp hq.1
    omega
  intro n hn hv
  rcases List.mem_append.mp hn with hn | hn
  · exact apart n m (hpre n hn m List.mem_cons_self) hv hm
  · exact apart m n ((List.pairwise_cons.mp hpost).1 n hn) hm hv

/-- Both searches end at the line of this VMA, with the lines after it left. -/
structure EndsAt (ms : List Mapping) (v : Word) (buf buf' : List Char) (range : Word × Word) (m : Mapping)
    (post : List Mapping) : Prop where
  maps : findMap v buf range (lines (mapsText ms)) =
    some (some (m.first, m.last, m.header.line), mapsLines post)
  smaps : Pagestat.findHeader v buf' (lines (smapsText ms)) =
    some (some (m.first, m.last, m.header.line), m.fields ++ smapsLines post)

/-- Both searches fail, and so do the functions they are in. -/
structure EndsNowhere (ms : List Mapping) (v : Word) (buf buf' : List Char) (range : Word × Word) : Prop where
  maps : findMap v buf range (lines (mapsText ms)) = some (none, [])
  smaps : Pagestat.findHeader v buf' (lines (smapsText ms)) = some (none, [])
  readMapdata : readMapdata (some (mapsText ms)) v buf range = some (false, none)
  snapshot : ∀ proc (junk : Pagestat.Junk), junk.buf = buf' →
    Pagestat.getPagestatSnapshot proc junk (some (lines (smapsText ms))) v = some (none, some [])

/-- The VMAs before the one that has the address are skipped, in both files. -/
theorem EndsAt.of_has (h : ∀ n ∈ pre ++ m :: post, n.WellFormed) (hno : ∀ n ∈ pre, ¬n.Has v) (hm : m.Has v)
    (hv : v ≠ Pagestat.invalidValue) (buf buf' : List Char) (range : Word × Word) :
    EndsAt (pre ++ m :: post) v buf buf' range m post := by
  have hpre : ∀ n ∈ pre, n.WellFormed := fun n hn => h n (List.mem_append_left _ hn)
  have hwell : m.WellFormed := h m (by simp)
  constructor
  · obtain ⟨key, range', hskip⟩ := findMap_skip hpre hno buf range
    have hlines : mapsLines (pre ++ m :: post) = mapsLines pre ++ m.header.line :: mapsLines post :=
      List.map_append
    rw [lines_mapsText h, hlines, hskip, hwell.findMap, if_pos hm]
  · obtain ⟨key, hskip⟩ := findHeader_skip hpre hno hv buf'
    have hlines : smapsLines (pre ++ m :: post) =
        smapsLines pre ++ m.header.line :: (m.fields ++ smapsLines post) := by
      rw [smapsLines, List.flatMap_append, List.flatMap_cons, List.cons_append]
      rfl
    rw [lines_smapsText h, hlines, hskip, hwell.findHeader hv, if_pos hm]

/-- All VMAs are skipped. -/
theorem EndsNowhere.of_not_has (h : ∀ m ∈ ms, m.WellFormed) (hno : ∀ m ∈ ms, ¬m.Has v)
    (hv : v ≠ Pagestat.invalidValue) (buf buf' : List Char) (range : Word × Word) :
    EndsNowhere ms v buf buf' range := by
  have hmaps : findMap v buf range (lines (mapsText ms)) = some (none, []) := by
    obtain ⟨key, range', hskip⟩ := findMap_skip h hno buf range
    have hend := hskip []
    rwa [List.append_nil, ← lines_mapsText h] at hend
  have hsmaps : Pagestat.findHeader v buf' (lines (smapsText ms)) = some (none, []) := by
    obtain ⟨key, hskip⟩ := findHeader_skip h hno hv buf'
    have hend := hskip []
    rwa [List.append_nil, ← lines_smapsText h] at hend
  refine ⟨hmaps, hsmaps, ?_, ?_⟩
  · rw [ReadPageflags.readMapdata]
    simp only [hmaps]
  · rintro proc junk rfl
    rw [Pagestat.getPagestatSnapshot]
    simp only [hsmaps]

/-- **Both lookups select the same VMA**, the one that has the address, and both fail if none has. -/
theorem address_lookups_agree (h : ∀ m ∈ ms, m.WellFormed) (hasc : Ascending ms)
    (hv : v ≠ Pagestat.invalidValue) (buf buf' : List Char) (range : Word × Word) :
    (∃ pre m post, ms = pre ++ m :: post ∧ m.Has v ∧ (∀ n ∈ pre ++ post, ¬n.Has v) ∧
      EndsAt ms v buf buf' range m post) ∨
    (∀ m ∈ ms, ¬m.Has v) ∧ EndsNowhere ms v buf buf' range := by
  by_cases hex : ∃ m ∈ ms, m.Has v
  · obtain ⟨m, hm, hmv⟩ := hex
    obtain ⟨pre, post, rfl⟩ := List.append_of_mem hm
    have hno := hasc.unique hmv
    exact .inl ⟨pre, m, post, rfl, hmv, hno,
      .of_has h (fun n hn => hno n (List.mem_append_left _ hn)) hmv hv buf buf' range⟩
  · have hno : ∀ m ∈ ms, ¬m.Has v := fun m hm hmv => hex ⟨m, hm, hmv⟩
    exact .inr ⟨hno, .of_not_has h hno hv buf buf' range⟩

def textAndData : List Mapping :=
  [⟨Pagestat.pageHeader, [(Pagestat.Field.kb "Size:".toList 16 "4".toList).line]⟩,
    ⟨{ Pagestat.pageHeader with first := "00601000".toList, last := "00602000".toList }, []⟩]

theorem textAndData_wellFormed : ∀ m ∈ textAndData, m.WellFormed := by
  have hsize : (Pagestat.Field.kb "Size:".toList 16 "4".toList).WellFormed :=
    ⟨⟨⟨by decide, forall_mem_of_all (by decide)⟩, by decide, by decide, by decide⟩,
      by decide, forall_mem_of_all (by decide)⟩
  simp only [textAndData, List.forall_mem_cons, List.not_mem_nil, false_implies, implies_true, and_true]
  refine ⟨⟨Pagestat.pageHeader_wellFormed, ?_, by decide⟩, ⟨?_, by simp, by decide⟩⟩
  · intro l hl
    rw [List.mem_singleton.mp hl]
    exact hsize.isFieldLine
  · exact { Pagestat.pageHeader_wellFormed with
      first := ⟨⟨by decide, forall_mem_of_all (by decide), by decide⟩, by decide⟩
      last := ⟨⟨by decide, forall_mem_of_all (by decide), by decide⟩, by decide⟩ }

/-- The first address after the program is in neither. -/
theorem address_lookups_agree_gap :
    (∃ pre m post, textAndData = pre ++ m :: post ∧ m.Has 0x401000 ∧ (∀ n ∈ pre ++ post, ¬n.Has 0x401000) ∧
      EndsAt textAndData 0x401000 [] [] (0, 0) m post) ∨
    (∀ m ∈ textAndData, ¬m.Has 0x401000) ∧ EndsNowhere textAndData 0x401000 [] [] (0, 0) :=
  address_lookups_agree textAndData_wellFormed (by
    show List.Pairwise _ _
    decide) (by decide) [] [] (0, 0)

end MmExper.ReadPageflags
