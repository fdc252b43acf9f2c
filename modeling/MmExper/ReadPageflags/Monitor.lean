import Mathlib.Data.List.Iterate
import MmExper.ReadPageflags.Reports

/-!
# Watching a page

`print_flags_virt()` reads what `/proc` says about a page and stops at the first word that is missing.
`map-private.cc` reads the words itself, prints them with `print_flags_virt_precalc()` and compares them, again and
again: a thread with a shared mapping and one with a private mapping of the same file print a line for every change.
-/

namespace MmExper.ReadPageflags

open Lib
open Pagestat (Env checkBit)

/-! ## Reading `/proc`

A word that cannot be read is all ones, and is then printed or compared as such. -/

/-- What `/proc` answers: the text of `maps`, and the words of the other files by their offsets, unless they cannot
be read. -/
structure Proc where
  maps : Option (List Char)
  pagemap : Word → Option Word
  kpageflags : Word → Option Word
  kpagecount : Word → Option Word
  /-- `getpagesize()`. -/
  pageSize : Word

def readU64 (file : Word → Option Word) (offset : Word) : Word := (file offset).getD invalidValue

def Proc.readPagemap (proc : Proc) (ptr : Word) : Word := readU64 proc.pagemap (ptr / proc.pageSize * 8#64)

def Proc.readKpageflags (proc : Proc) (pfn : Word) : Word := readU64 proc.kpageflags (pfn * 8#64)

def Proc.readMapcount (proc : Proc) (pfn : Word) : Word := readU64 proc.kpagecount (pfn * 8#64)

/-- What the variables of `read_mapdata()` hold before they are assigned, and the text of the pointer. -/
structure Place where
  ptr : Word
  pointer : List Char
  buf : List Char
  range : Word × Word

def Proc.mapdata (proc : Proc) (place : Place) : Option (Bool × Option MapData) :=
  readMapdata proc.maps place.ptr place.buf place.range

/-- `print_flags_virt()`: what it returns, and what it prints. -/
def printFlagsVirt (proc : Proc) (dev : Devices) (env : Env) (place : Place) (descr : List Char) :
    Option (Bool × List Char) :=
  (proc.mapdata place).map fun (gotfields, record) =>
    let mapfields := if gotfields then record else none
    let print := fun pagemap pfn kpageflags mapcount =>
      printFlagsVirtPrecalc dev env place.pointer pagemap pfn kpageflags mapcount mapfields descr
    let pagemap := proc.readPagemap place.ptr
    if pagemap = invalidValue then print invalidValue invalidValue invalidValue invalidValue
    else
      let pfn := extractPfn pagemap
      if pfn = invalidValue then print pagemap pfn invalidValue invalidValue
      else
        let kpageflags := proc.readKpageflags pfn
        if kpageflags = invalidValue then print pagemap pfn invalidValue invalidValue
        else
          let mapcount := proc.readMapcount pfn
          if mapcount = invalidValue then print pagemap pfn kpageflags invalidValue
          else print pagemap pfn kpageflags mapcount

/-! ## `struct page_state` -/

structure PageState where
  pagemap : Word
  pfn : Word
  kpageflags : Word
  mapcount : Word
  mapfields : MapData

/-- The constructor, where `mapfields` holds `junk` at first. -/
def Proc.pageState (proc : Proc) (place : Place) (junk : MapData) : Option PageState :=
  let pagemap := proc.readPagemap place.ptr
  let pfn := extractPfn pagemap
  if pfn = invalidValue then some ⟨pagemap, pfn, 0#64, 0#64, junk⟩
  else
    (proc.mapdata place).map fun (ok, record) =>
      ⟨pagemap, pfn, proc.readKpageflags pfn, proc.readMapcount pfn,
        if ok then record.getD MapData.zero else MapData.zero⟩

def PageState.print (s : PageState) (dev : Devices) (env : Env) (place : Place) (descr : List Char) :
    Bool × List Char :=
  printFlagsVirtPrecalc dev env place.pointer s.pagemap s.pfn s.kpageflags s.mapcount (some s.mapfields) descr

/-- The flags that `masked()` leaves out. -/
def noise (env : Env) : List Nat :=
  [env.headerBit .dirty, env.headerBit .active, env.headerBit .referenced, env.headerBit .writeback,
    env.headerBit .lru]

def PageState.masked (env : Env) (s : PageState) : PageState :=
  if s.kpageflags = invalidValue then s
  else { s with kpageflags := (noise env).foldl (fun flags bit => flags &&& ~~~(1#64 <<< bit)) s.kpageflags }

def PageState.differs (s that : PageState) : Bool :=
  !(s.pagemap = that.pagemap ∧ s.pfn = that.pfn ∧ s.kpageflags = that.kpageflags ∧ s.mapcount = that.mapcount)

/-! ## The threads -/

def nextChar (chr : Char) : Char :=
  if chr < 'a' ∨ chr > 'z' then 'a' else if chr = 'z' then 'a' else Char.ofNat (chr.toNat + 1)

/-- The loop of the first thread: the characters it writes, and the states it prints. -/
def watchShared (env : Env) : PageState → Char → List PageState → List Char × List PageState
  | _, _, [] => ([], [])
  | prev, currChr, curr :: seen =>
    let changed := (prev.masked env).differs (curr.masked env)
    let (chrs, printed) := watchShared env (if changed then curr else prev) (nextChar currChr) seen
    (currChr :: chrs, if changed then curr :: printed else printed)

inductive Said where
  /-- `PRIVATE write` -/
  | write
  /-- `PRIVATE read` -/
  | read
  | changed (s : PageState)

/-- What the second thread finds in a round: the page before and after it reads from it, and the character it may
write after. -/
structure Round where
  preReadFault : PageState
  curr : PageState
  chr : Char

/-- The loop of the second thread: what it prints in each round, and what it writes at its end. `count` is an `int`. -/
def watchPrivate (env : Env) : PageState → BitVec 32 → List Round → List (List Said × Option Char)
  | _, _, [] => []
  | prev, count, r :: rounds =>
    let changed := (prev.masked env).differs (r.curr.masked env)
    let said :=
      if changed then
        (if count ≠ 0 ∧ count.srem 10 = 0 then [Said.write] else []) ++
          (if (r.preReadFault.masked env).differs (r.curr.masked env) then [Said.read] else []) ++
          [Said.changed r.curr]
      else []
    let prev := if changed then r.curr else prev
    let count := count + 1
    (said, if count.srem 10 = 0 then some (nextChar r.chr) else none) :: watchPrivate env prev count rounds

variable {proc : Proc} {dev : Devices} {env : Env} {place : Place} {junk : MapData} {descr : List Char}
  {s s' prev : PageState} {ok : Bool} {record : Option MapData}

/-! ## Printing -/

/-- **The early returns change nothing**: the line is the one for the words that are read without looking at them. -/
theorem printFlagsVirt_eq : printFlagsVirt proc dev env place descr = (proc.mapdata place).map fun r =>
    printFlagsVirtPrecalc dev env place.pointer (proc.readPagemap place.ptr) (extractPfn (proc.readPagemap place.ptr))
      (proc.readKpageflags (extractPfn (proc.readPagemap place.ptr)))
      (proc.readMapcount (extractPfn (proc.readPagemap place.ptr))) (if r.1 then r.2 else none) descr := by
  rw [printFlagsVirt]
  congr 1
  funext r
  obtain ⟨ok, record⟩ := r
  simp only []
  split
  · next h => simp only [printFlagsVirtPrecalc, h, if_pos]
  · next h =>
    split
    · next hpfn => simp only [printFlagsVirtPrecalc, if_neg h, if_pos hpfn]
    · next hpfn =>
      split
      · next hflags => simp only [printFlagsVirtPrecalc, if_neg h, if_neg hpfn, hflags, if_pos]
      · next hflags =>
        split
        · next hcount => rw [hcount]
        · rfl

/-- The map data stand at the start of a line and decide nothing. -/
theorem printFlagsVirtPrecalc_mapfields (dev : Devices) (env : Env) (pointer : List Char)
    (pagemap pfn kpageflags mapcount : Word) (descr : List Char) :
    ∃ result rest, ∀ mapfields, printFlagsVirtPrecalc dev env pointer pagemap pfn kpageflags mapcount mapfields descr =
      (result, pointer ++ ": ".toList ++ printMapData mapfields ++ rest) := by
  simp only [printFlagsVirtPrecalc]
  split
  · exact ⟨_, _, fun _ => rfl⟩
  · split
    · exact ⟨true, _, fun _ => by rw [List.append_assoc _ (printPagemapFlags pagemap)]⟩
    · split
      · exact ⟨false, _, fun _ => by rw [List.append_assoc _ (printPagemapFlags pagemap)]⟩
      · split
        · refine ⟨false, printPagemapFlags pagemap ++ ("pfn=".toList ++ decimal pfn ++ ": ".toList ++
            ("(cannot retrieve kpageflags)".toList ++ printDescr descr)), fun _ => ?_⟩
          simp only [List.append_assoc]
        · refine ⟨true, printPagemapFlags pagemap ++ ("pfn=".toList ++ decimal pfn ++ ": ".toList ++
            (printCounts dev pfn mapcount ++ (printKpageflags env kpageflags ++ printDescr descr))), fun _ => ?_⟩
          simp only [List.append_assoc]

/-- **A state prints the line of `print_flags_virt()`** for the same words, but for the map data: they are zero where
`maps` has nothing to say, and are not initialised where the page is not present. -/
theorem print_flags_virt_agree (hmaps : proc.mapdata place = some (ok, record))
    (hs : proc.pageState place junk = some s) :
    (∃ result rest,
      printFlagsVirt proc dev env place descr = some (result,
        place.pointer ++ ": ".toList ++ printMapData (if ok then record else none) ++ rest) ∧
      s.print dev env place descr = (result, place.pointer ++ ": ".toList ++ printMapData (some s.mapfields) ++ rest)) ∧
    s.mapfields =
      if extractPfn (proc.readPagemap place.ptr) = invalidValue then junk
      else if ok then record.getD MapData.zero else MapData.zero := by
  rw [printFlagsVirt_eq, hmaps, Option.map_some]
  rw [Proc.pageState, hmaps] at hs
  by_cases hpfn : extractPfn (proc.readPagemap place.ptr) = invalidValue
  · simp only [hpfn, if_true] at hs ⊢
    cases hs
    -- The two words that are missing are not looked at.
    have hsame : ∀ kpageflags mapcount kpageflags' mapcount' mapfields,
        printFlagsVirtPrecalc dev env place.pointer (proc.readPagemap place.ptr) invalidValue kpageflags mapcount
          mapfields descr =
        printFlagsVirtPrecalc dev env place.pointer (proc.readPagemap place.ptr) invalidValue kpageflags' mapcount'
          mapfields descr := by
      intro kpageflags mapcount kpageflags' mapcount' mapfields
      simp only [printFlagsVirtPrecalc, if_true]
    obtain ⟨result, rest, hprint⟩ := printFlagsVirtPrecalc_mapfields dev env place.pointer
      (proc.readPagemap place.ptr) invalidValue 0#64 0#64 descr
    refine ⟨⟨result, rest, ?_, hprint (some junk)⟩, rfl⟩
    rw [hsame _ _ 0#64 0#64, hprint]
  · simp only [if_neg hpfn, Option.map_some, Option.some.injEq] at hs ⊢
    subst hs
    obtain ⟨result, rest, hprint⟩ := printFlagsVirtPrecalc_mapfields dev env place.pointer
      (proc.readPagemap place.ptr) (extractPfn (proc.readPagemap place.ptr))
      (proc.readKpageflags (extractPfn (proc.readPagemap place.ptr)))
      (proc.readMapcount (extractPfn (proc.readPagemap place.ptr))) descr
    exact ⟨⟨result, rest, hprint _, hprint _⟩, rfl⟩

/-- A page that is present, where `maps` cannot be opened. -/
def Proc.present (kpageflags : Word) : Proc :=
  ⟨none, fun _ => some 0x8000000000000005, fun _ => some kpageflags, fun _ => some 1, 4096⟩

def Place.small : Place := ⟨0x1000, "0x1000".toList, [], (0, 0)⟩

def PageState.present (kpageflags : Word) : PageState := ⟨0x8000000000000005, 5, kpageflags, 1, MapData.zero⟩

theorem print_flags_virt_agree_present :
    (∃ result rest,
      printFlagsVirt (Proc.present 0x1068) noDevices Env.linux Place.small [] =
        some (result, Place.small.pointer ++ ": ".toList ++ printMapData none ++ rest) ∧
      (PageState.present 0x1068).print noDevices Env.linux Place.small [] =
        (result, Place.small.pointer ++ ": ".toList ++ printMapData (some MapData.zero) ++ rest)) ∧
    (PageState.present 0x1068).mapfields = MapData.zero :=
  print_flags_virt_agree (show _ = some (false, none) from rfl)
    (show Proc.pageState (Proc.present 0x1068) Place.small MapData.zero = _ from rfl)

/-! ## Changes

`operator!=` compares masked words. Two states that were read from `/proc` differ if and only if
something differs that is not noise. -/

def PageState.key (env : Env) (s : PageState) : Word × Word × Word × Word :=
  (s.pagemap, s.pfn, (s.masked env).kpageflags, s.mapcount)

theorem differs_masked : (s.masked env).differs (s'.masked env) = decide (s.key env ≠ s'.key env) := by
  have hkeep : ∀ s : PageState, (s.masked env).pagemap = s.pagemap ∧ (s.masked env).pfn = s.pfn ∧
      (s.masked env).mapcount = s.mapcount := by
    intro s
    rw [PageState.masked]
    split <;> exact ⟨rfl, rfl, rfl⟩
  obtain ⟨h₁, h₂, h₃⟩ := hkeep s
  obtain ⟨h₁', h₂', h₃'⟩ := hkeep s'
  simp only [PageState.differs, PageState.key, h₁, h₂, h₃, h₁', h₂', h₃', ne_eq, Prod.mk.injEq, decide_not]

def PageState.Constructed (s : PageState) : Prop := ∃ proc place junk, Proc.pageState proc place junk = some s

theorem PageState.Constructed.words (h : s.Constructed) :
    s.pfn = extractPfn s.pagemap ∧ (s.pfn = invalidValue → s.kpageflags = 0#64 ∧ s.mapcount = 0#64) := by
  obtain ⟨proc, place, junk, hs⟩ := h
  simp only [Proc.pageState] at hs
  split at hs
  · next hpfn =>
    cases hs
    exact ⟨rfl, fun _ => ⟨rfl, rfl⟩⟩
  · next hpfn =>
    obtain ⟨r, -, rfl⟩ := Option.map_eq_some_iff.mp hs
    exact ⟨rfl, fun h => absurd h hpfn⟩

/-- The flags are the same but for the noise, and they can be read or not. -/
def SameFlags (env : Env) (flags flags' : Word) : Prop :=
  (flags = invalidValue ↔ flags' = invalidValue) ∧
    ∀ i < 64, i ∉ noise env → flags.getLsbD i = flags'.getLsbD i

/-- There is something to report: another pagemap entry, or another count or other flags of a page that is
present. -/
def Changed (env : Env) (s s' : PageState) : Prop :=
  s.pagemap ≠ s'.pagemap ∨
    extractPfn s.pagemap ≠ invalidValue ∧ (s.mapcount ≠ s'.mapcount ∨ ¬SameFlags env s.kpageflags s'.kpageflags)

instance (flags flags' : Word) : Decidable (SameFlags env flags flags') := inferInstanceAs (Decidable (_ ∧ _))

instance : Decidable (Changed env s s') := inferInstanceAs (Decidable (_ ∨ _))

theorem getLsbD_foldl_noise {bits : List Nat} (hbits : ∀ bit ∈ bits, bit < 64) (flags : Word) {i : Nat} (hi : i < 64) :
    (bits.foldl (fun flags bit => flags &&& ~~~(1#64 <<< bit)) flags).getLsbD i =
      (flags.getLsbD i && decide (i ∉ bits)) := by
  induction bits generalizing flags with
  | nil => simp
  | cons bit bits ih =>
      rw [List.foldl_cons, ih fun b hb => hbits b (List.mem_cons_of_mem _ hb)]
      have hbit := getLsbD_bit (i := bit) (j := i) (hbits bit List.mem_cons_self)
      simp only [BitVec.getLsbD_and, BitVec.getLsbD_not, hi, decide_true, Bool.true_and, hbit, List.mem_cons, not_or]
      by_cases h : i = bit
      · simp [h]
      · simp [h]

/-- The flags that are compared. -/
theorem maskedFlags_eq_iff (hbits : ∀ f, env.headerBit f < 32) :
    (s.masked env).kpageflags = (s'.masked env).kpageflags ↔ SameFlags env s.kpageflags s'.kpageflags := by
  have hnoise : ∀ bit ∈ noise env, bit < 64 := by
    intro bit hbit
    simp only [noise, List.mem_cons, List.not_mem_nil, or_false] at hbit
    rcases hbit with rfl | rfl | rfl | rfl | rfl <;> exact Nat.lt_trans (hbits _) (by decide)
  have hmasked : ∀ s : PageState, s.kpageflags ≠ invalidValue → ∀ i < 64,
      (s.masked env).kpageflags.getLsbD i = (s.kpageflags.getLsbD i && decide (i ∉ noise env)) := by
    intro s hs i hi
    rw [PageState.masked, if_neg hs]
    exact getLsbD_foldl_noise hnoise s.kpageflags hi
  have hkept : ∀ s : PageState, s.kpageflags = invalidValue → (s.masked env).kpageflags = invalidValue := by
    intro s hs
    rw [PageState.masked, if_pos hs, hs]
  -- A masked word lacks a bit that `INVALID_VALUE` has.
  have hvalid : ∀ s : PageState, s.kpageflags ≠ invalidValue → (s.masked env).kpageflags ≠ invalidValue := by
    intro s hs he
    have hdirty := hmasked s hs (env.headerBit .dirty) (Nat.lt_trans (hbits _) (by decide))
    have hmem : env.headerBit .dirty ∈ noise env := List.mem_cons_self
    have hone : invalidValue.getLsbD (env.headerBit .dirty) = true := by
      have hlt := hbits .dirty
      rw [invalidValue, BitVec.getLsbD_not]
      simp only [BitVec.getLsbD_zero, Bool.not_false, Bool.and_true, decide_eq_true_eq]
      omega
    rw [he, hone] at hdirty
    simp [hmem] at hdirty
  rw [SameFlags]
  by_cases h : s.kpageflags = invalidValue
  · by_cases h' : s'.kpageflags = invalidValue
    · simp [h, h', hkept s h, hkept s' h']
    · rw [hkept s h]
      constructor
      · intro he
        exact absurd he.symm (hvalid s' h')
      · rintro ⟨hiff, -⟩
        exact absurd (hiff.mp h) h'
  · by_cases h' : s'.kpageflags = invalidValue
    · rw [hkept s' h']
      constructor
      · intro he
        exact absurd he (hvalid s h)
      · rintro ⟨hiff, -⟩
        exact absurd (hiff.mpr h') h
    · constructor
      · intro he
        refine ⟨⟨fun e => absurd e h, fun e => absurd e h'⟩, fun i hi hni => ?_⟩
        have hbit := congrArg (fun flags => flags.getLsbD i) he
        simpa only [hmasked s h i hi, hmasked s' h' i hi, hni, not_false_eq_true, decide_true, Bool.and_true]
          using hbit
      · rintro ⟨-, hbit⟩
        apply BitVec.eq_of_getLsbD_eq
        intro i hi
        rw [hmasked s h i hi, hmasked s' h' i hi]
        by_cases hni : i ∈ noise env
        · simp [hni]
        · rw [hbit i hi hni]

theorem key_ne_iff (hbits : ∀ f, env.headerBit f < 32) (hs : s.Constructed) (hs' : s'.Constructed) :
    s.key env ≠ s'.key env ↔ Changed env s s' := by
  obtain ⟨hpfn, habsent⟩ := hs.words
  obtain ⟨hpfn', habsent'⟩ := hs'.words
  rw [PageState.key, PageState.key, ne_eq, Prod.mk.injEq, Prod.mk.injEq, Prod.mk.injEq, maskedFlags_eq_iff hbits,
    Changed, hpfn, hpfn']
  by_cases hpagemap : s.pagemap = s'.pagemap
  · rw [hpagemap] at hpfn ⊢
    by_cases hnone : extractPfn s'.pagemap = invalidValue
    · obtain ⟨hflags, hcount⟩ := habsent (hpfn.trans hnone)
      obtain ⟨hflags', hcount'⟩ := habsent' (hpfn'.trans hnone)
      simp [hnone, hflags, hflags', hcount, hcount', SameFlags]
    · simp only [true_and, ne_eq, not_true_eq_false, false_or, hnone, not_false_eq_true, not_and_or]
      exact Or.comm
  · simp [hpagemap]

/-! ## The loops

The induction is on the rounds. What is carried along is the state that was printed last, up to
noise. -/

/-- The letters that are written. -/
theorem iterate_nextChar (n : Nat) : nextChar^[n] 'a' = Char.ofNat (97 + n % 26) := by
  have hnext : ∀ k < 26, nextChar (Char.ofNat (97 + k)) = Char.ofNat (97 + (k + 1) % 26) := by decide
  induction n with
  | zero => rfl
  | succ n ih =>
      rw [Function.iterate_succ_apply', ih, hnext _ (Nat.mod_lt _ (by decide)), Nat.mod_add_mod]

/-- `prev` is the state that was printed last. It is not the one before, but it is compared as that one is. -/
theorem watchShared_eq {printed : PageState} (chr : Char) (seen : List PageState)
    (hkey : printed.key env = prev.key env) :
    watchShared env printed chr seen =
      (List.iterate nextChar chr seen.length,
        (((prev :: seen).zip seen).filter fun p => decide (p.1.key env ≠ p.2.key env)).map Prod.snd) := by
  induction seen generalizing printed prev chr with
  | nil => rfl
  | cons curr seen ih =>
      rw [watchShared, differs_masked, hkey, List.zip_cons_cons, List.filter_cons]
      by_cases hchanged : prev.key env = curr.key env
      · simp only [hchanged, ne_eq, not_true_eq_false, decide_false, Bool.false_eq_true, if_false]
        rw [ih (nextChar chr) (hkey.trans hchanged)]
        rfl
      · simp only [ne_eq, hchanged, not_false_eq_true, decide_true, if_true]
        rw [ih (nextChar chr) rfl]
        rfl

/-- **The shared mapping**: the thread writes the letters in turn, and prints a state exactly if something has changed
since it last looked, although it compares with the state that it last printed. -/
theorem shared_monitor (hbits : ∀ f, env.headerBit f < 32) (hprev : prev.Constructed) {seen : List PageState}
    (hseen : ∀ s ∈ seen, s.Constructed) :
    watchShared env prev 'a' seen =
      ((List.range seen.length).map fun i => Char.ofNat (97 + i % 26),
        (((prev :: seen).zip seen).filter fun p => decide (Changed env p.1 p.2)).map Prod.snd) := by
  rw [watchShared_eq 'a' seen rfl, ← List.range_map_iterate]
  congr 1
  · exact List.map_congr_left fun i _ => iterate_nextChar i
  · congr 1
    apply List.filter_congr
    rintro ⟨before, now⟩ hp
    have hbefore : before.Constructed := by
      rcases List.mem_cons.mp (List.of_mem_zip hp).1 with rfl | hmem
      · exact hprev
      · exact hseen _ hmem
    exact decide_eq_decide.mpr (key_ne_iff hbits hbefore (hseen _ (List.of_mem_zip hp).2))

theorem PageState.present_constructed (kpageflags : Word) : (PageState.present kpageflags).Constructed := by
  refine ⟨Proc.present kpageflags, Place.small, MapData.zero, ?_⟩
  have hpfn : extractPfn 0x8000000000000005 = 5 := by decide
  show Proc.pageState ⟨none, fun _ => some 0x8000000000000005, _, _, _⟩ Place.small MapData.zero = _
  simp only [Proc.pageState, Proc.readPagemap, readU64, Option.getD_some, hpfn]
  rfl

/-- The page becomes dirty, and then `mmap`. -/
theorem shared_monitor_noise :
    watchShared Env.linux (PageState.present 0x1068) 'a' [PageState.present 0x1078, PageState.present 0x1868] =
      ((List.range 2).map fun i => Char.ofNat (97 + i % 26),
        (((PageState.present 0x1068 :: [PageState.present 0x1078, PageState.present 0x1868]).zip
          [PageState.present 0x1078, PageState.present 0x1868]).filter fun p =>
            decide (Changed Env.linux p.1 p.2)).map Prod.snd) := by
  have hbits : ∀ f, Env.linux.headerBit f < 32 := by
    intro f
    cases f <;> decide
  apply shared_monitor hbits (PageState.present_constructed _)
  intro s hs
  simp only [List.mem_cons, List.not_mem_nil, or_false] at hs
  rcases hs with rfl | rfl <;> exact PageState.present_constructed _

theorem srem_ten {n : Nat} (h : n < 2 ^ 31) : (BitVec.ofNat 32 n).srem 10 = 0 ↔ n % 10 = 0 := by
  have hnat : (BitVec.ofNat 32 n).toNat = n := toNat_ofNat_of_lt (by omega)
  have hpos : (BitVec.ofNat 32 n).msb = false := by
    rw [BitVec.msb_eq_decide, hnat]
    exact decide_eq_false (by omega)
  rw [BitVec.srem_eq, hpos, ← BitVec.toNat_inj]
  show (BitVec.ofNat 32 n % 10#32).toNat = 0 ↔ _
  rw [BitVec.toNat_umod, hnat]
  rfl

/-- The round that is the `t`-th from now, where `before` is the state that ends the round before it. -/
theorem watchPrivate_getElem? {printed before : PageState} {count t : Nat} {rounds : List Round} {r : Round}
    (hkey : printed.key env = prev.key env) (hbefore : (prev :: rounds.map Round.curr)[t]? = some before)
    (hr : rounds[t]? = some r) (ht : count + t + 1 < 2 ^ 31) :
    (watchPrivate env printed (BitVec.ofNat 32 count) rounds)[t]? = some
      (if before.key env ≠ r.curr.key env then
        (if count + t ≠ 0 ∧ (count + t) % 10 = 0 then [Said.write] else []) ++
          (if r.preReadFault.key env ≠ r.curr.key env then [Said.read] else []) ++ [Said.changed r.curr]
      else [],
      if (count + t + 1) % 10 = 0 then some (nextChar r.chr) else none) := by
  induction rounds generalizing printed prev count t with
  | nil => cases hr
  | cons r' rounds ih =>
      simp only [watchPrivate, differs_masked, hkey, decide_eq_true_eq]
      -- The count goes up by one each round, so round `t` of the rest is round `t + 1`.
      have hcount : BitVec.ofNat 32 count + 1 = BitVec.ofNat 32 (count + 1) := (BitVec.ofNat_add count 1).symm
      rw [hcount]
      cases t with
      | zero =>
          cases hbefore
          cases hr
          have hzero : BitVec.ofNat 32 count ≠ 0 ↔ count ≠ 0 := by
            rw [ne_eq, ← BitVec.toNat_inj, toNat_ofNat_of_lt (by omega)]
            rfl
          simp only [List.getElem?_cons_zero, hzero, srem_ten (show count < 2 ^ 31 by omega), srem_ten ht,
            Nat.add_zero]
      | succ t =>
          rw [List.getElem?_cons_succ] at hr ⊢
          -- What is compared with is the state that was printed last, which has the key of the last round.
          have hnext : (if prev.key env ≠ r'.curr.key env then r'.curr else printed).key env = r'.curr.key env := by
            split
            · rfl
            · next h => exact hkey.trans (not_not.mp h)
          rw [ih hnext hbefore hr (by omega)]
          simp only [Nat.add_assoc, Nat.add_comm 1 t]

/-- **The private mapping**: a round prints the state exactly if something has changed since the last round, and says
with it that the page was written to exactly if the last round ended with a write, and that it was read exactly if
the read access of this round changed something. Every tenth round ends with a write. This is said of the rounds that
can be counted in an `int`. -/
theorem private_monitor (hbits : ∀ f, env.headerBit f < 32) (hprev : prev.Constructed) {rounds : List Round}
    (hrounds : ∀ r ∈ rounds, r.preReadFault.Constructed ∧ r.curr.Constructed) {t : Nat} {before : PageState} {r : Round}
    (hbefore : (prev :: rounds.map Round.curr)[t]? = some before) (hr : rounds[t]? = some r) (ht : t < 2 ^ 31 - 1) :
    let lines := watchPrivate env prev 0 rounds
    lines[t]? = some
      (if Changed env before r.curr then
        (if t ≠ 0 ∧ (lines[t - 1]?.bind Prod.snd).isSome then [Said.write] else []) ++
          (if Changed env r.preReadFault r.curr then [Said.read] else []) ++ [Said.changed r.curr]
      else [],
      if 10 ∣ t + 1 then some (nextChar r.chr) else none) := by
  intro lines
  obtain ⟨hpre, hcurr⟩ := hrounds r (List.mem_of_getElem? hr)
  have hconstructed : before.Constructed := by
    rcases List.mem_cons.mp (List.mem_of_getElem? hbefore) with rfl | hmem
    · exact hprev
    · obtain ⟨r', hr', rfl⟩ := List.mem_map.mp hmem
      exact (hrounds r' hr').2
  -- The round before ended with a write exactly if this one's number is a multiple of ten.
  have hwrote : (t ≠ 0 ∧ (lines[t - 1]?.bind Prod.snd).isSome) ↔ t ≠ 0 ∧ t % 10 = 0 := by
    cases t with
    | zero => simp
    | succ u =>
        have hu : u < rounds.length := by
          have := (List.getElem?_eq_some_iff.mp hr).1
          omega
        have hlt : u < (prev :: rounds.map Round.curr).length := by
          rw [List.length_cons, List.length_map]
          omega
        have hline : (watchPrivate env prev 0 rounds)[u]? = _ :=
          watchPrivate_getElem? rfl (List.getElem?_eq_getElem hlt) (List.getElem?_eq_getElem hu)
            (show 0 + u + 1 < 2 ^ 31 by omega)
        rw [Nat.zero_add] at hline
        simp only [Nat.add_sub_cancel, lines, hline, Option.bind_some]
        by_cases h : (u + 1) % 10 = 0 <;> simp [h]
  have hline : lines[t]? = _ := watchPrivate_getElem? rfl hbefore hr (show 0 + t + 1 < 2 ^ 31 by omega)
  rw [hline, Nat.zero_add]
  simp only [key_ne_iff hbits hconstructed hcurr, key_ne_iff hbits hpre hcurr, hwrote, Nat.dvd_iff_mod_eq_zero]

def Round.read : Round := ⟨PageState.present 0x1068, PageState.present 0x1868, 'x'⟩

theorem private_monitor_read :
    let lines := watchPrivate Env.linux (PageState.present 0x1068) 0 [Round.read]
    lines[0]? = some
      (if Changed Env.linux (PageState.present 0x1068) (PageState.present 0x1868) then
        (if 0 ≠ 0 ∧ (lines[0 - 1]?.bind Prod.snd).isSome then [Said.write] else []) ++
          (if Changed Env.linux (PageState.present 0x1068) (PageState.present 0x1868) then [Said.read] else []) ++
          [Said.changed (PageState.present 0x1868)]
      else [],
      if 10 ∣ 0 + 1 then some (nextChar 'x') else none) := by
  have hbits : ∀ f, Env.linux.headerBit f < 32 := by
    intro f
    cases f <;> decide
  apply private_monitor hbits (PageState.present_constructed _) (r := Round.read) _ rfl rfl (by decide)
  intro r hr
  rw [List.mem_singleton.mp hr]
  exact ⟨PageState.present_constructed _, PageState.present_constructed _⟩

end MmExper.ReadPageflags
