import MmExper.Pagestat.Complete

/-!
# What is read from the fields of a block

The fields of a block come in any order, with at most one for each key, so the record after the loop
holds for each key the value of its field, and what it held before if there is no such field.
-/

namespace MmExper.Pagestat

open Lib

/-- The value of the field with this key, if there is one. -/
def valueOf (fs : List Field) (key : List Char) : Option Word :=
  (fs.find? fun f => f.key = key).bind fun f => f.value.map fun value => BitVec.ofNat 64 (numeral 10 value)

/-- The text of the flags, if there are any. -/
def flagsOf (fs : List Field) : Option (List Char) :=
  fs.findSome? fun f =>
    match f with
    | .vmFlags flags => some (mnemonics flags)
    | _ => none

def PageStat.read (ms : PageStat) (fs : List Field) : PageStat :=
  { ms with
    vmSize := (valueOf fs "Size:".toList).getD ms.vmSize
    rss := (valueOf fs "Rss:".toList).getD ms.rss
    referenced := (valueOf fs "Referenced:".toList).getD ms.referenced
    anon := (valueOf fs "Anonymous:".toList).getD ms.anon
    anonHuge := (valueOf fs "AnonHugePages:".toList).getD ms.anonHuge
    swap := (valueOf fs "Swap:".toList).getD ms.swap
    locked := (valueOf fs "Locked:".toList).getD ms.locked
    vmFlags := (flagsOf fs).or ms.vmFlags }

/-- The fields of a block: the first one has a unit, no two have the same key, values are 64-bit
numbers, and `flags` are the flags. -/
structure IsBody (fs : List Field) (flags : List (Char × Char)) : Prop where
  fields : ∀ f ∈ fs, f.WellFormed
  values : ∀ f ∈ fs, ∀ value ∈ f.value, numeral 10 value < 2 ^ 64
  unit_first : ∃ f rest, fs = f :: rest ∧ f.isKb = true
  keys : (fs.map Field.key).Nodup
  flags : .vmFlags flags ∈ fs

/-- After a block comes the end of the file or another header line. -/
def Follows (after : File) : Prop := after = [] ∨ ∃ h : Header, h.WellFormed ∧ ∃ fp, after = h.line :: fp

variable {ms : PageStat} {b : Junk} {f : Field} {fs : List Field} {flags : List (Char × Char)} {after : File}
  {key value : List Char}

/-! ## Looking up a key -/

theorem valueOf_cons (f : Field) (fs : List Field) (key : List Char) : valueOf (f :: fs) key =
    if f.key = key then f.value.map fun value => BitVec.ofNat 64 (numeral 10 value) else valueOf fs key := by
  rw [valueOf, List.find?_cons]
  by_cases h : f.key = key
  · simp only [h, decide_true, if_true, Option.bind_some]
  · simp only [h, decide_false, if_false]
    rfl

theorem valueOf_eq_none (h : key ∉ fs.map Field.key) : valueOf fs key = none := by
  have hfind : fs.find? (fun f => f.key = key) = none := by
    rw [List.find?_eq_none]
    intro f hf e
    exact h (List.mem_map.mpr ⟨f, hf, of_decide_eq_true e⟩)
  rw [valueOf, hfind]
  rfl

/-- The value of a key is that of the field which has the key. -/
theorem valueOf_eq (hkeys : (fs.map Field.key).Nodup) (hf : f ∈ fs) : valueOf fs f.key =
    f.value.map fun value => BitVec.ofNat 64 (numeral 10 value) := by
  induction fs with
  | nil => cases hf
  | cons g fs ih =>
      rw [List.map_cons, List.nodup_cons] at hkeys
      rw [valueOf_cons]
      rcases List.mem_cons.mp hf with rfl | hf
      · rw [if_pos rfl]
      · have hne : g.key ≠ f.key := fun e => hkeys.1 (List.mem_map.mpr ⟨f, hf, e.symm⟩)
        rw [if_neg hne, ih hkeys.2 hf]

/-- What a field says about a key is kept: no field after it has that key. -/
theorem valueOf_getD (h : f.key ∉ fs.map Field.key) (key : List Char) (v : Word) :
    (valueOf fs key).getD ((valueOf [f] key).getD v) = (valueOf (f :: fs) key).getD v := by
  rw [valueOf_cons f fs, valueOf_cons f []]
  by_cases hkey : f.key = key
  · subst hkey
    rw [if_pos rfl, if_pos rfl, valueOf_eq_none h]
    rfl
  · rw [if_neg hkey, if_neg hkey]
    rfl

/-! ## The flags -/

theorem flagsOf_skip (h : f.value = some value) (fs : List Field) : flagsOf (f :: fs) = flagsOf fs := by
  cases f with
  | kb _ _ _ => rfl
  | plain _ _ _ => rfl
  | vmFlags flags => cases h

/-- A field without a value is the line of the flags. -/
theorem Field.eq_vmFlags (h : f.value = none) : ∃ flags, f = .vmFlags flags := by
  cases f with
  | vmFlags flags => exact ⟨flags, rfl⟩
  | _ => cases h

theorem flagsOf_eq_none (h : flagsKey ∉ fs.map Field.key) : flagsOf fs = none := by
  induction fs with
  | nil => rfl
  | cons f fs ih =>
      rw [List.map_cons, List.mem_cons, not_or] at h
      cases f with
      | vmFlags flags => exact absurd rfl h.1
      | _ => exact ih h.2

theorem flagsOf_or (h : f.key ∉ fs.map Field.key) (text : Option (List Char)) :
    (flagsOf fs).or ((flagsOf [f]).or text) = (flagsOf (f :: fs)).or text := by
  cases f with
  | vmFlags flags =>
      rw [flagsOf_eq_none h]
      rfl
  | _ => rfl

/-- The flags are found wherever their line is. -/
theorem IsBody.flagsOf (hb : IsBody fs flags) : Pagestat.flagsOf fs = some (mnemonics flags) := by
  have hmem := hb.flags
  have hkeys := hb.keys
  clear hb
  induction fs with
  | nil => cases hmem
  | cons f fs ih =>
      rw [List.map_cons, List.nodup_cons] at hkeys
      rcases List.mem_cons.mp hmem with rfl | hrest
      · rfl
      · cases hval : f.value with
        | some value => rw [flagsOf_skip hval, ih hrest hkeys.2]
        | none =>
            obtain ⟨flags', rfl⟩ := Field.eq_vmFlags hval
            exact absurd (List.mem_map.mpr ⟨_, hrest, rfl⟩) hkeys.1

/-! ## One field

The buffers keep the unit of the field before when the line has none, so the unit is part of what
goes from line to line. -/

/-- Reading one field and then the others is reading all of them. -/
theorem PageStat.read_read (h : f.key ∉ fs.map Field.key) (ms : PageStat) :
    (ms.read [f]).read fs = ms.read (f :: fs) := by
  simp only [PageStat.read, valueOf_getD h, flagsOf_or h]

/-- A field line sets what belongs to its key. -/
theorem Field.WellFormed.setField_eq (hf : f.WellFormed) (hfits : ∀ value ∈ f.value, numeral 10 value < 2 ^ 64)
    (ms : PageStat) (hkey : b.key = f.key) (hsize : ∀ value ∈ f.value, b.size = ulongVal value) :
    Pagestat.setField ms b f.line = some (ms.read [f]) := by
  rw [Pagestat.setField, hkey]
  cases hval : f.value with
  | none =>
      obtain ⟨flags, rfl⟩ := Field.eq_vmFlags hval
      rw [hf.flagsText]
      rfl
  | some value =>
      have hnot : f.key ≠ "VmFlags:".toList := by
        cases f with
        | kb _ _ _ => exact hf.1.notFlags
        | plain _ _ _ => exact hf.1.notFlags
        | vmFlags flags => cases hval
      have hone : ∀ key, valueOf [f] key = if f.key = key then some b.size else none := by
        intro key
        rw [valueOf_cons, hval, hsize value hval, ulongVal, if_pos (hfits value hval)]
        rfl
      have hflags : flagsOf [f] = none := flagsOf_skip hval []
      simp only [PageStat.read, hone, hflags, Option.none_or]
      generalize f.key = key at hnot
      -- One key after the other; the key of the flags is none of them.
      iterate 7
        split
        · next h =>
          subst h
          rfl
        rename_i h
        simp only [Option.getD_none]

/-- One turn of the loop, as long as there is a unit. -/
theorem Field.WellFormed.read_eq (hf : f.WellFormed) (hfits : ∀ value ∈ f.value, numeral 10 value < 2 ^ 64)
    (ms : PageStat) (hunit : f.isKb = true ∨ b.unit = "kB".toList) :
    ∃ b', b'.unit = "kB".toList ∧ ∀ fp,
      getSmapOtherFields ms b (f.line :: fp) = getSmapOtherFields (ms.read [f]) b' fp := by
  obtain ⟨b', hkb, hkey, hsize, hturn⟩ := hf.turn ms hunit
  exact ⟨b', hkb, hturn _ (hf.setField_eq hfits ms hkey hsize)⟩

/-! ## All fields

The induction is on the fields. The first one has a unit, so the contents of the buffers before the
call do not matter. -/

/-- The run of the loop over any fields. -/
theorem read_fields_eq (hfs : ∀ f ∈ fs, f.WellFormed)
    (hfits : ∀ f ∈ fs, ∀ value ∈ f.value, numeral 10 value < 2 ^ 64) (hkeys : (fs.map Field.key).Nodup)
    (ms : PageStat) (hunit : b.unit = "kB".toList) :
    ∃ b', b'.unit = "kB".toList ∧ ∀ fp,
      getSmapOtherFields ms b (fs.map Field.line ++ fp) = getSmapOtherFields (ms.read fs) b' fp := by
  induction fs generalizing ms b with
  | nil => exact ⟨b, hunit, fun _ => rfl⟩
  | cons f fs ih =>
      rw [List.map_cons, List.nodup_cons] at hkeys
      obtain ⟨b₁, hunit₁, hread⟩ := (hfs f List.mem_cons_self).read_eq (hfits f List.mem_cons_self) ms
        (.inr hunit)
      obtain ⟨b₂, hunit₂, hread'⟩ := ih (fun g hg => hfs g (List.mem_cons_of_mem _ hg))
        (fun g hg => hfits g (List.mem_cons_of_mem _ hg)) hkeys.2 (ms.read [f]) hunit₁
      refine ⟨b₂, hunit₂, fun fp => ?_⟩
      rw [← PageStat.read_read hkeys.1]
      exact (hread _).trans (hread' fp)

/-- The run of the loop over a block. -/
theorem IsBody.read_eq (hb : IsBody fs flags) (ms : PageStat) (b : Junk) :
    ∃ b', b'.unit = "kB".toList ∧ ∀ fp,
      getSmapOtherFields ms b (fs.map Field.line ++ fp) = getSmapOtherFields (ms.read fs) b' fp := by
  obtain ⟨f, rest, rfl, hkb⟩ := hb.unit_first
  have hkeys := hb.keys
  rw [List.map_cons, List.nodup_cons] at hkeys
  obtain ⟨b₁, hunit₁, hread⟩ := (hb.fields f List.mem_cons_self).read_eq (b := b)
    (hb.values f List.mem_cons_self) ms (.inl hkb)
  obtain ⟨b₂, hunit₂, hread'⟩ := read_fields_eq (fun g hg => hb.fields g (List.mem_cons_of_mem _ hg))
    (fun g hg => hb.values g (List.mem_cons_of_mem _ hg)) hkeys.2 (ms.read [f]) hunit₁
  refine ⟨b₂, hunit₂, fun fp => ?_⟩
  rw [← PageStat.read_read hkeys.1]
  exact (hread _).trans (hread' fp)

/-- The loop ends where the block does: a header line that comes after it is read and dropped. -/
theorem Follows.read (ha : Follows after) (ms : PageStat) (hunit : b.unit = "kB".toList) :
    getSmapOtherFields ms b after = some (some ms, after.tail) := by
  rcases ha with rfl | ⟨h, hw, fp, rfl⟩
  · rfl
  · exact hw.getSmapOtherFields ms hunit fp

/-- A block is read up to the line after it. -/
theorem IsBody.getSmapOtherFields_eq (hb : IsBody fs flags) (ha : Follows after) (ms : PageStat) (junk : Junk) :
    getSmapOtherFields ms junk (fs.map Field.line ++ after) = some (some (ms.read fs), after.tail) := by
  obtain ⟨b, hunit, hread⟩ := hb.read_eq ms junk
  rw [hread, ha.read _ hunit]

/-- **The fields of a block** set exactly what belongs to their keys, whatever comes after the block and
whatever the buffers held before. -/
theorem getSmapOtherFields_body (hb : IsBody fs flags) (ha : Follows after) (ms : PageStat) (junk : Junk) :
    getSmapOtherFields ms junk (fs.map Field.line ++ after) =
      some (some { ms with
        vmSize := (valueOf fs "Size:".toList).getD ms.vmSize
        rss := (valueOf fs "Rss:".toList).getD ms.rss
        referenced := (valueOf fs "Referenced:".toList).getD ms.referenced
        anon := (valueOf fs "Anonymous:".toList).getD ms.anon
        anonHuge := (valueOf fs "AnonHugePages:".toList).getD ms.anonHuge
        swap := (valueOf fs "Swap:".toList).getD ms.swap
        locked := (valueOf fs "Locked:".toList).getD ms.locked
        vmFlags := some (mnemonics flags) }, after.tail) := by
  rw [hb.getSmapOtherFields_eq ha, PageStat.read, hb.flagsOf]
  rfl

/-- Fields whose keys are prefixes of each other, with the flags in between. -/
def prefixFields : List Field :=
  [.kb "AnonHugePages:".toList 4 "2048".toList, .plain "THPeligible:".toList 0 "1".toList,
    .vmFlags [('r', 'd'), ('m', 'r')], .kb "Anonymous:".toList 7 "12".toList, .kb "SwapPss:".toList 8 "5".toList]

theorem prefixFields_isBody : IsBody prefixFields [('r', 'd'), ('m', 'r')] where
  fields := by
    simp only [prefixFields, List.forall_mem_cons]
    exact ⟨⟨⟨⟨by decide, forall_mem_of_all (by decide)⟩, by decide, by decide, by decide⟩,
        by decide, forall_mem_of_all (by decide)⟩,
      ⟨⟨⟨by decide, forall_mem_of_all (by decide)⟩, by decide, by decide, by decide⟩,
        by decide, forall_mem_of_all (by decide)⟩,
      ⟨by decide, by decide⟩,
      ⟨⟨⟨by decide, forall_mem_of_all (by decide)⟩, by decide, by decide, by decide⟩,
        by decide, forall_mem_of_all (by decide)⟩,
      ⟨⟨⟨by decide, forall_mem_of_all (by decide)⟩, by decide, by decide, by decide⟩,
        by decide, forall_mem_of_all (by decide)⟩, by simp⟩
  values := by decide
  unit_first := ⟨_, _, rfl, rfl⟩
  keys := by decide
  flags := by simp [prefixFields]

/-- The next block is left alone, its header line apart. -/
theorem getSmapOtherFields_prefixFields :
    getSmapOtherFields .zero ⟨[], [], 0, []⟩
        (prefixFields.map Field.line ++ [pageHeader.line, "Swap: 7 kB\n".toList]) =
      some (some { PageStat.zero with anon := 12, anonHuge := 2048, vmFlags := some "rd mr".toList },
        ["Swap: 7 kB\n".toList]) :=
  (getSmapOtherFields_body prefixFields_isBody (.inr ⟨pageHeader, pageHeader_wellFormed, _, rfl⟩) _ _).trans (by
    decide)

end MmExper.Pagestat
