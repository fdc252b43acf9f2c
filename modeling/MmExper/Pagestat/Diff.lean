import MmExper.Pagestat.Print

/-!
# Comparing snapshots

`pagestat_print_diff` prints what changed between two snapshots of a VMA, and returns whether anything
did. Of the three groups of comparisons that it makes, the result is about the last one.
-/

namespace MmExper.Pagestat

open Lib

/-- One comparison: whether the items differ, and what is printed if they do. -/
structure Comparison where
  differs : Bool
  chars : List Char

def change (label : String) (old new : List Char) : List Char :=
  label.toList ++ "=[".toList ++ old ++ "]->[".toList ++ new ++ "] ".toList

/-- `COMPARE()` of a number. -/
def compare (label : String) (field : PageStat → Word) (a b : PageStat) : Comparison :=
  ⟨field a ≠ field b, change label (decimal (field a)) (decimal (field b))⟩

/-- `COMPARE()` of `rss`, which is printed with its mark. -/
def compareRss (a b : PageStat) : Comparison := ⟨a.rss ≠ b.rss, change "rss" (rssText a) (rssText b)⟩

/-- `COMPARE_STR()`: `NULL` is compared as the empty string, and 255 characters are looked at. -/
def compareStr (label : String) (field : PageStat → Option (List Char)) (a b : PageStat) : Comparison :=
  ⟨((field a).getD []).take 255 ≠ ((field b).getD []).take 255,
    change label (strText (field a)) (strText (field b))⟩

def compareStrUnsafe (label : String) (field : PageStat → List Char) (a b : PageStat) : Comparison :=
  ⟨field a ≠ field b, change label (field a) (field b)⟩

def compareCounts (a b : PageStat) : List Comparison :=
  [compareRss a b,
    compare "ref" PageStat.referenced a b,
    compare "anon" PageStat.anon a b,
    compare "anon_huge" PageStat.anonHuge a b,
    compare "swap" PageStat.swap a b,
    compare "locked" PageStat.locked a b]

def compareAttributes (a b : PageStat) : List Comparison :=
  [compareStr "vm_flags" PageStat.vmFlags a b,
    compareStrUnsafe "perms" PageStat.perms a b,
    compare "offset" PageStat.offset a b,
    compareStr "name" PageStat.name a b]

/-- What a group of comparisons prints. After it `seen_first` is false again. -/
def printGroup (group : List Comparison) : List Char :=
  (group.flatMap fun c => if c.differs then c.chars else []) ++
    if group.any Comparison.differs then ['\n'] else []

/-- One of the three words of the page differs. -/
def pageDiffers (env : Env) (a b : PageStat) (index : Word) : Bool :=
  env.read a.pagemaps index ≠ env.read b.pagemaps index ∨
    env.read a.kpagecounts index ≠ env.read b.kpagecounts index ∨
    env.read a.kpageflags index ≠ env.read b.kpageflags index

/-- The loop of `pagestat_print_diff()` with `n` pages to go: what is printed, `seen_first`, and the
variables of the listings. -/
def printDiffPages (env : Env) (a b : PageStat) (addr index : Word) :
    Nat → Bool → Seen → List Char × Bool × Seen
  | 0, seenFirst, seen => ([], seenFirst, seen)
  | n + 1, seenFirst, seen =>
    if pageDiffers env a b index then
      let (ls, seen) := printMapping env addr a index false seen
      let (ls', seen) := printMapping env invalidValue b index false seen
      let (out, seenFirst', seen) :=
        printDiffPages env a b (addr + env.pageSize) (index + 1#64) n true seen
      ((if seenFirst then [] else ['\n']) ++ text env ls ++ "               -> ".toList ++ text env ls' ++ out,
        seenFirst', seen)
    else printDiffPages env a b (addr + env.pageSize) (index + 1#64) n seenFirst seen

/-- `pagestat_print_diff()` of two snapshots of the same range. -/
def printDiffSame (env : Env) (a b : PageStat) (seen : Seen) : Bool × List Char × Seen :=
  let groups := printGroup (compareCounts a b) ++ printGroup (compareAttributes a b)
  let (out, seenFirst, seen) :=
    printDiffPages env a b a.vmaStart 0#64 (countVirtPages env.pageSize a).toNat false seen
  if !seenFirst then (false, groups ++ out, seen)
  else (true, groups ++ out ++ ['\n'] ++ printHeader a, seen)

/-- `pagestat_print_diff()`: the result, and what is printed. -/
def pagestatPrintDiff (env : Env) (psA psB : Option PageStat) (seen : Seen) :
    Bool × List Char × Seen :=
  match psA, psB with
  | none, none => (false, [], seen)
  | none, some b => pagestatPrint env (some b) seen
  | some a, none => pagestatPrint env (some a) seen
  | some a, some b =>
    -- This will be too fiddly to deal with manually so just output both.
    if a.vmaStart ≠ b.vmaStart ∨ a.vmaEnd ≠ b.vmaEnd then
      let (printed, outA, seen) := pagestatPrint env (some a) seen
      if !printed then (false, outA, seen)
      else
        let (_, outB, seen) := pagestatPrint env (some b) seen
        (true, outA ++
          "^^^^---- VMA RANGE CHANGE. Outputting both for manual diff ----vvvv\n".toList ++ outB, seen)
    else printDiffSame env a b seen

/-- The loop of `pagestat_print_diff_all()` over the pairs of entries. -/
def printDiffs (env : Env) : List (Option PageStat × Option PageStat) → Seen → Bool × List Char × Seen
  | [], seen => (false, [], seen)
  | (a, b) :: pairs, seen =>
    let (updated, out, seen) := pagestatPrintDiff env a b seen
    let (rest, out', seen) := printDiffs env pairs seen
    (updated || rest, out ++ (if updated then "\n\n\n".toList else []) ++ out', seen)

/-- `pagestat_print_diff_all()`: the arrays have `MAX_MAPS` entries, and all of them are looked at. -/
def pagestatPrintDiffAll (env : Env) (pssA pssB : Nat → Option PageStat) (seen : Seen) :
    Bool × List Char × Seen :=
  printDiffs env ((List.range maxMaps).map fun i => (pssA i, pssB i)) seen

/-! ## What the result says

`seen_first` is reset at the end of each group, so what is returned is whether a page differed. -/

variable {env : Env} {a b : PageStat} {addr index : Word} {n : Nat} {seenFirst : Bool} {seen : Seen}

structure SameVma (a b : PageStat) : Prop where
  vmaStart : a.vmaStart = b.vmaStart
  vmaEnd : a.vmaEnd = b.vmaEnd
  vmSize : a.vmSize = b.vmSize

def PagesDiffer (env : Env) (a b : PageStat) : Prop :=
  ∃ i < (countVirtPages env.pageSize a).toNat, pageDiffers env a b (BitVec.ofNat 64 i) = true

def Differs (env : Env) (a b : PageStat) : Prop :=
  a.rss ≠ b.rss ∨ a.referenced ≠ b.referenced ∨ a.anon ≠ b.anon ∨ a.anonHuge ≠ b.anonHuge ∨
    a.swap ≠ b.swap ∨ a.locked ≠ b.locked ∨ a.vmFlags.getD [] ≠ b.vmFlags.getD [] ∨
    a.perms ≠ b.perms ∨ a.offset ≠ b.offset ∨ a.name.getD [] ≠ b.name.getD [] ∨ PagesDiffer env a b

theorem PagesDiffer.differs (h : PagesDiffer env a b) : Differs env a b := by
  unfold Differs
  simp only [h, or_true]

/-- A page that differs is seen twice, once in each snapshot. -/
theorem printDiffPages_differs (h : pageDiffers env a b index = true) :
    (printDiffPages env a b addr index (n + 1) seenFirst seen).2 =
      (printDiffPages env a b (addr + env.pageSize) (index + 1#64) n true
        ((seen.see addr index (env.read a.pagemaps index)).see invalidValue index
          (env.read b.pagemaps index))).2 := by
  rw [printDiffPages, if_pos h]
  simp only [printMapping_full]

theorem printDiffPages_same (h : ¬pageDiffers env a b index = true) :
    printDiffPages env a b addr index (n + 1) seenFirst seen =
      printDiffPages env a b (addr + env.pageSize) (index + 1#64) n seenFirst seen := by
  rw [printDiffPages, if_neg h]

theorem pageDiffers_shift {k : Nat} : pageDiffers env a b (index + BitVec.ofNat 64 (k + 1)) =
    pageDiffers env a b (index + 1#64 + BitVec.ofNat 64 k) := by
  rw [BitVec.add_assoc, ← BitVec.ofNat_add, Nat.add_comm]

/-- `seen_first` is set by a page that differs, and stays set. -/
theorem printDiffPages_seenFirst : (printDiffPages env a b addr index n seenFirst seen).2.1 = true ↔
    seenFirst = true ∨ ∃ k < n, pageDiffers env a b (index + BitVec.ofNat 64 k) = true := by
  induction n generalizing addr index seenFirst seen with
  | zero => simp [printDiffPages]
  | succ n ih =>
      have hfirst : index + BitVec.ofNat 64 0 = index := BitVec.add_zero index
      rw [Nat.exists_lt_succ_left, hfirst]
      simp only [pageDiffers_shift]
      by_cases hp : pageDiffers env a b index = true
      · rw [printDiffPages_differs hp, ih]
        simp [hp]
      · rw [printDiffPages_same hp, ih]
        simp [hp]

/-- **The result is about the pages only.** -/
theorem pagestatPrintDiff_iff (h : SameVma a b) :
    (pagestatPrintDiff env (some a) (some b) seen).1 = true ↔ PagesDiffer env a b := by
  have hrange : ¬(a.vmaStart ≠ b.vmaStart ∨ a.vmaEnd ≠ b.vmaEnd) := by
    rw [h.vmaStart, h.vmaEnd]
    simp
  have hresult : (printDiffSame env a b seen).1 =
      (printDiffPages env a b a.vmaStart 0#64 (countVirtPages env.pageSize a).toNat false seen).2.1 := by
    unfold printDiffSame
    simp only []
    split
    · next hseen => simpa using hseen
    · next hseen => simpa using hseen
  show (if a.vmaStart ≠ b.vmaStart ∨ a.vmaEnd ≠ b.vmaEnd then _ else printDiffSame env a b seen).1 = true ↔ _
  rw [if_neg hrange, hresult, printDiffPages_seenFirst]
  simp [PagesDiffer]

inductive Paired : Option PageStat → Option PageStat → Prop
  | none : Paired none none
  | some {a b : PageStat} (h : SameVma a b) : Paired (some a) (some b)

def SomePair (p : PageStat → PageStat → Prop) (pssA pssB : Nat → Option PageStat) : Prop :=
  ∃ i < maxMaps, ∃ a b, pssA i = some a ∧ pssB i = some b ∧ p a b

theorem printDiffs_iff {pairs : List (Option PageStat × Option PageStat)} (h : ∀ p ∈ pairs, Paired p.1 p.2) :
    (printDiffs env pairs seen).1 = true ↔
      ∃ p ∈ pairs, ∃ a b, p.1 = some a ∧ p.2 = some b ∧ PagesDiffer env a b := by
  induction pairs generalizing seen with
  | nil => simp [printDiffs]
  | cons p pairs ih =>
      obtain ⟨psA, psB⟩ := p
      have hstep : ∃ seen', (printDiffs env ((psA, psB) :: pairs) seen).1 =
          ((pagestatPrintDiff env psA psB seen).1 || (printDiffs env pairs seen').1) := ⟨_, rfl⟩
      obtain ⟨seen', hstep⟩ := hstep
      have hhead : (pagestatPrintDiff env psA psB seen).1 = true ↔
          ∃ a b, psA = some a ∧ psB = some b ∧ PagesDiffer env a b := by
        cases h _ List.mem_cons_self with
        | none => simp [pagestatPrintDiff]
        | some hsame => simp [pagestatPrintDiff_iff hsame]
      rw [hstep, Bool.or_eq_true, hhead, ih fun p hp => h p (List.mem_cons_of_mem _ hp)]
      simp only [List.mem_cons, exists_eq_or_imp]

theorem pagestatPrintDiffAll_iff {pssA pssB : Nat → Option PageStat}
    (h : ∀ i < maxMaps, Paired (pssA i) (pssB i)) :
    (pagestatPrintDiffAll env pssA pssB seen).1 = true ↔ SomePair (PagesDiffer env) pssA pssB := by
  rw [pagestatPrintDiffAll, printDiffs_iff]
  · simp [SomePair]
  · simpa using h

/-- **The diff reports what it finds only where a page differs.** For snapshots of one VMA, and for arrays
of such pairs, the result is right exactly if some page differs or nothing does. -/
theorem diff_reports_iff (env : Env) (seen : Seen) :
    (∀ a b, SameVma a b →
      (((pagestatPrintDiff env (some a) (some b) seen).1 = true ↔ Differs env a b) ↔
        (PagesDiffer env a b ∨ ¬Differs env a b))) ∧
    (∀ pssA pssB, (∀ i < maxMaps, Paired (pssA i) (pssB i)) →
      (((pagestatPrintDiffAll env pssA pssB seen).1 = true ↔ SomePair (Differs env) pssA pssB) ↔
        (SomePair (PagesDiffer env) pssA pssB ∨ ¬SomePair (Differs env) pssA pssB))) := by
  constructor
  · intro a b h
    have himp : PagesDiffer env a b → Differs env a b := PagesDiffer.differs
    rw [pagestatPrintDiff_iff h]
    tauto
  · intro pssA pssB h
    have himp : SomePair (PagesDiffer env) pssA pssB → SomePair (Differs env) pssA pssB := by
      rintro ⟨i, hi, a, b, ha, hb, hp⟩
      exact ⟨i, hi, a, b, ha, hb, hp.differs⟩
    rw [pagestatPrintDiffAll_iff h]
    tauto

/-! ## A difference that is not reported -/

/-- `rss` is printed as changed, and the result says that nothing did. -/
theorem diff_unreported :
    SameVma (onePage 0 0) (onePage 4 0) ∧ Differs Env.linux (onePage 0 0) (onePage 4 0) ∧
      pagestatPrintDiff Env.linux (some (onePage 0 0)) (some (onePage 4 0)) Seen.init =
        (false, "rss=[0]->[4] \n".toList, Seen.init) := by
  refine ⟨⟨rfl, rfl, rfl⟩, Or.inl (by decide), by decide +kernel⟩

theorem diff_reports_iff_one :
    ((pagestatPrintDiff Env.linux (some (onePage 0 0)) (some (onePage 4 (1#64 <<< 55))) Seen.init).1 = true ↔
      Differs Env.linux (onePage 0 0) (onePage 4 (1#64 <<< 55))) ∧
    ((pagestatPrintDiffAll Env.linux (fun i => if i = 0 then some (onePage 0 0) else none)
        (fun i => if i = 0 then some (onePage 4 (1#64 <<< 55)) else none) Seen.init).1 = true ↔
      SomePair (Differs Env.linux) (fun i => if i = 0 then some (onePage 0 0) else none)
        (fun i => if i = 0 then some (onePage 4 (1#64 <<< 55)) else none)) := by
  have hsame : SameVma (onePage 0 0) (onePage 4 (1#64 <<< 55)) := ⟨rfl, rfl, rfl⟩
  have hpage : PagesDiffer Env.linux (onePage 0 0) (onePage 4 (1#64 <<< 55)) := ⟨0, by decide, by decide⟩
  refine ⟨((diff_reports_iff Env.linux Seen.init).1 _ _ hsame).mpr (Or.inl hpage),
    ((diff_reports_iff Env.linux Seen.init).2 _ _ fun i _ => ?_).mpr (Or.inl ⟨0, by decide, _, _, rfl, rfl, hpage⟩)⟩
  by_cases hi : i = 0
  · rw [if_pos hi, if_pos hi]
    exact .some hsame
  · rw [if_neg hi, if_neg hi]
    exact .none

end MmExper.Pagestat
