import MmExper.Pagestat.Diff

/-!
# Watching a process

`watch-cmd.c` takes a snapshot of all VMAs again and again, prints how each one differs from the one before, and says
so if nothing was updated, unless it is told to be silent.
-/

namespace MmExper.Pagestat

open Lib

/-- A round of the loop of `watch-cmd.c`: what is printed for the last snapshots and the current ones. -/
def watchRound (env : Env) (silent : Bool) (pss pssCurr : Nat → Option PageStat) (seen : Seen) : List Char × Seen :=
  let updated := pagestatPrintDiffAll env pss pssCurr seen
  (updated.2.1 ++ if !updated.1 && !silent then "(no updates)\n".toList else [], updated.2.2)

/-- The loop: what each round prints. -/
def watch (env : Env) (silent : Bool) :
    (Nat → Option PageStat) → List (Nat → Option PageStat) → Seen → List (List Char)
  | _, [], _ => []
  | pss, pssCurr :: rest, seen =>
    let round := watchRound env silent pss pssCurr seen
    round.1 :: watch env silent pssCurr rest round.2

def differing (env : Env) (a b : PageStat) (index : Word) (n : Nat) : List Nat :=
  (List.range n).filter fun k => pageDiffers env a b (index + BitVec.ofNat 64 k)

def pageChange (env : Env) (a b : PageStat) (addr index : Word) : List Char :=
  text env [doPrintMapping env addr a index (env.read a.pagemaps index)] ++ "               -> ".toList ++
    text env [doPrintMapping env invalidValue b index (env.read b.pagemaps index)]

/-- Nothing differs that is compared, where texts are compared up to 255 characters. -/
structure SameData (env : Env) (a b : PageStat) : Prop where
  rss : a.rss = b.rss
  referenced : a.referenced = b.referenced
  anon : a.anon = b.anon
  anonHuge : a.anonHuge = b.anonHuge
  swap : a.swap = b.swap
  locked : a.locked = b.locked
  vmFlags : (a.vmFlags.getD []).take 255 = (b.vmFlags.getD []).take 255
  perms : a.perms = b.perms
  offset : a.offset = b.offset
  name : (a.name.getD []).take 255 = (b.name.getD []).take 255
  pages : ¬PagesDiffer env a b

def SameRange (a b : PageStat) : Prop := a.vmaStart = b.vmaStart ∧ a.vmaEnd = b.vmaEnd

/-- There is nothing to print about these two entries. Where the addresses differ, or there is one entry only, this is
about the name of the one that would be printed first. -/
inductive Unchanged (env : Env) : Option PageStat → Option PageStat → Prop
  | none : Unchanged env none none
  | added {b : PageStat} (h : b.ignored = true) : Unchanged env none (some b)
  | removed {a : PageStat} (h : a.ignored = true) : Unchanged env (some a) none
  | moved {a b : PageStat} (h : ¬SameRange a b) (hignored : a.ignored = true) : Unchanged env (some a) (some b)
  | same {a b : PageStat} (h : SameRange a b) (hdata : SameData env a b) : Unchanged env (some a) (some b)

variable {env : Env} {a b : PageStat} {psA psB : Option PageStat} {addr index : Word} {n : Nat} {seenFirst : Bool}
  {seen : Seen} {group : List Comparison} {pss pssCurr : Nat → Option PageStat}

/-! ## The pages

The loop over the pages prints those that differ, with the state of the listings passed along. What
it prints of a page does not depend on that state. -/

theorem differing_succ : differing env a b index (n + 1) =
    (if pageDiffers env a b index = true then [0] else []) ++
      (differing env a b (index + 1#64) n).map Nat.succ := by
  have hfirst : index + BitVec.ofNat 64 0 = index := BitVec.add_zero index
  rw [differing, List.range_succ_eq_map, List.filter_cons, List.filter_map]
  simp only [hfirst, Function.comp_def, pageDiffers_shift, differing]
  split <;> rfl

/-- **The loop prints the two lines of the pages that differ**, after an empty line. -/
theorem printDiffPages_out : (printDiffPages env a b addr index n seenFirst seen).1 =
    (if seenFirst = true ∨ differing env a b index n = [] then [] else ['\n']) ++
      (differing env a b index n).flatMap fun k =>
        pageChange env a b (addr + BitVec.ofNat 64 k * env.pageSize) (index + BitVec.ofNat 64 k) := by
  induction n generalizing addr index seenFirst seen with
  | zero => simp [printDiffPages, differing]
  | succ n ih =>
      have hshift : ∀ k, pageChange env a b (addr + BitVec.ofNat 64 (k + 1) * env.pageSize)
          (index + BitVec.ofNat 64 (k + 1)) =
          pageChange env a b (addr + env.pageSize + BitVec.ofNat 64 k * env.pageSize)
            (index + 1#64 + BitVec.ofNat 64 k) := by
        intro k
        have hk : BitVec.ofNat 64 (k + 1) = 1#64 + BitVec.ofNat 64 k := by
          rw [← BitVec.ofNat_add, Nat.add_comm]
        rw [hk, BitVec.add_mul, BitVec.one_mul, BitVec.add_assoc, BitVec.add_assoc]
      rw [differing_succ, List.flatMap_append, List.flatMap_map]
      simp only [Nat.succ_eq_add_one, hshift]
      by_cases hp : pageDiffers env a b index = true
      · rw [printDiffPages, if_pos hp]
        simp only [printMapping_full, ih, hp, if_true, List.cons_append, reduceCtorEq, or_false, true_or,
          List.nil_append, List.flatMap_cons, List.flatMap_nil, List.append_nil]
        have hzero : pageChange env a b (addr + BitVec.ofNat 64 0 * env.pageSize) (index + BitVec.ofNat 64 0) =
            pageChange env a b addr index := by
          rw [BitVec.zero_mul, BitVec.add_zero, BitVec.add_zero]
        rw [hzero, pageChange]
        simp only [List.append_assoc]
      · rw [printDiffPages_same hp, ih]
        simp [hp]

/-- `pagestat_print_diff()` of two snapshots of the same addresses. -/
theorem pagestatPrintDiff_same (h : SameRange a b) :
    pagestatPrintDiff env (some a) (some b) seen = printDiffSame env a b seen := by
  show (if a.vmaStart ≠ b.vmaStart ∨ a.vmaEnd ≠ b.vmaEnd then _ else _) = _
  rw [if_neg]
  simp [h.1, h.2]

/-- What is returned and printed, by the pages that differ. -/
theorem printDiffSame_pages (env : Env) (a b : PageStat) (seen : Seen) :
    let pages := differing env a b 0#64 (countVirtPages env.pageSize a).toNat
    let groups := printGroup (compareCounts a b) ++ printGroup (compareAttributes a b)
    (printDiffSame env a b seen).1 = !pages.isEmpty ∧
    (printDiffSame env a b seen).2.1 =
      if pages = [] then groups
      else groups ++ (['\n'] ++ (pages.flatMap fun k =>
        pageChange env a b (a.vmaStart + BitVec.ofNat 64 k * env.pageSize) (BitVec.ofNat 64 k)) ++
          ['\n'] ++ printHeader a) := by
  intro pages groups
  have hseen : (printDiffPages env a b a.vmaStart 0#64 (countVirtPages env.pageSize a).toNat false seen).2.1 =
      !pages.isEmpty := by
    rw [Bool.eq_iff_iff, printDiffPages_seenFirst]
    simp [pages, differing, List.filter_eq_nil_iff]
  have hout : (printDiffPages env a b a.vmaStart 0#64 (countVirtPages env.pageSize a).toNat false seen).1 = _ :=
    printDiffPages_out
  rw [printDiffSame]
  simp only [hseen, hout, Bool.not_not, BitVec.zero_add]
  by_cases hpages : pages = []
  · simp [pages, hpages, groups]
  · simp [pages, hpages, groups]

/-- **What a diff prints**: the groups that differ, and for the pages that differ, if there are any, an empty line,
their lines before and after, and the header of the first snapshot. -/
theorem diff_lists (env : Env) (seen : Seen) (h : SameRange a b) :
    let pages := differing env a b 0#64 (countVirtPages env.pageSize a).toNat
    let groups := printGroup (compareCounts a b) ++ printGroup (compareAttributes a b)
    (pagestatPrintDiff env (some a) (some b) seen).1 = !pages.isEmpty ∧
    (pagestatPrintDiff env (some a) (some b) seen).2.1 =
      if pages = [] then groups
      else groups ++ (['\n'] ++ (pages.flatMap fun k =>
        pageChange env a b (a.vmaStart + BitVec.ofNat 64 k * env.pageSize) (BitVec.ofNat 64 k)) ++
          ['\n'] ++ printHeader a) := by
  rw [pagestatPrintDiff_same h]
  exact printDiffSame_pages env a b seen

/-- `rss` and a page. -/
theorem diff_lists_onePage :
    let a := onePage 0 0
    let b := onePage 4 (1#64 <<< 55)
    let pages := differing Env.linux a b 0#64 (countVirtPages Env.linux.pageSize a).toNat
    let groups := printGroup (compareCounts a b) ++ printGroup (compareAttributes a b)
    (pagestatPrintDiff Env.linux (some a) (some b) Seen.init).1 = !pages.isEmpty ∧
    (pagestatPrintDiff Env.linux (some a) (some b) Seen.init).2.1 =
      if pages = [] then groups
      else groups ++ (['\n'] ++ (pages.flatMap fun k =>
        pageChange Env.linux a b (a.vmaStart + BitVec.ofNat 64 k * Env.linux.pageSize) (BitVec.ofNat 64 k)) ++
          ['\n'] ++ printHeader a) :=
  diff_lists Env.linux Seen.init ⟨rfl, rfl⟩

/-! ## Nothing to print

No text is empty, so nothing is printed only if nothing differs. -/

theorem printGroup_eq_nil (h : ∀ c ∈ group, c.chars ≠ []) :
    printGroup group = [] ↔ ∀ c ∈ group, c.differs = false := by
  rw [printGroup, List.append_eq_nil_iff, List.flatMap_eq_nil_iff]
  constructor
  · rintro ⟨hchars, -⟩ c hc
    by_contra hdiffers
    have hnil := hchars c hc
    rw [if_pos (by simpa using hdiffers)] at hnil
    exact h c hc hnil
  · intro hsame
    refine ⟨fun c hc => by simp [hsame c hc], ?_⟩
    rw [if_neg]
    rw [Bool.not_eq_true, List.any_eq_false]
    intro c hc
    simp [hsame c hc]

theorem change_ne_nil {label : String} {old new : List Char} : change label old new ≠ [] := by
  simp [change]

theorem pagesDiffer_iff : PagesDiffer env a b ↔ differing env a b 0#64 (countVirtPages env.pageSize a).toNat ≠ [] := by
  simp [PagesDiffer, differing, List.filter_eq_nil_iff]

/-- Both groups of comparisons find nothing. -/
theorem printGroups_eq_nil : printGroup (compareCounts a b) ++ printGroup (compareAttributes a b) = [] ↔
    (a.rss = b.rss ∧ a.referenced = b.referenced ∧ a.anon = b.anon ∧ a.anonHuge = b.anonHuge ∧ a.swap = b.swap ∧
      a.locked = b.locked) ∧
    (a.vmFlags.getD []).take 255 = (b.vmFlags.getD []).take 255 ∧ a.perms = b.perms ∧ a.offset = b.offset ∧
      (a.name.getD []).take 255 = (b.name.getD []).take 255 := by
  have hcounts : ∀ c ∈ compareCounts a b, c.chars ≠ [] := by
    simp [compareCounts, compareRss, compare, change_ne_nil]
  have hattributes : ∀ c ∈ compareAttributes a b, c.chars ≠ [] := by
    simp [compareAttributes, compareStr, compareStrUnsafe, compare, change_ne_nil]
  rw [List.append_eq_nil_iff, printGroup_eq_nil hcounts, printGroup_eq_nil hattributes]
  simp [compareCounts, compareRss, compare, compareAttributes, compareStr, compareStrUnsafe]

theorem pagestatPrintDiff_same_eq_nil (h : SameRange a b) :
    (pagestatPrintDiff env (some a) (some b) seen).2.1 = [] ↔ SameData env a b := by
  have hpages := @pagesDiffer_iff env a b
  rw [pagestatPrintDiff_same h, (printDiffSame_pages env a b seen).2]
  by_cases hnone : differing env a b 0#64 (countVirtPages env.pageSize a).toNat = []
  · rw [if_pos hnone, printGroups_eq_nil]
    have hsame : ¬PagesDiffer env a b := by
      rw [hpages, hnone]
      exact fun h => h rfl
    constructor
    · rintro ⟨⟨h₁, h₂, h₃, h₄, h₅, h₆⟩, h₇, h₈, h₉, h₁₀⟩
      exact ⟨h₁, h₂, h₃, h₄, h₅, h₆, h₇, h₈, h₉, h₁₀, hsame⟩
    · intro hdata
      exact ⟨⟨hdata.rss, hdata.referenced, hdata.anon, hdata.anonHuge, hdata.swap, hdata.locked⟩, hdata.vmFlags,
        hdata.perms, hdata.offset, hdata.name⟩
  · rw [if_neg hnone]
    constructor
    · intro hnil
      simp at hnil
    · intro hdata
      exact absurd (hpages.mpr hnone) hdata.pages

/-- A snapshot is printed unless its name is ignored. -/
theorem pagestatPrint_eq_nil : (pagestatPrint env (some a) seen).2.1 = [] ↔ a.ignored = true := by
  rw [pagestatPrint]
  split
  · next h => simp [h]
  · next h => simp [h, printHeader]

theorem pagestatPrint_result : (pagestatPrint env (some a) seen).1 = !a.ignored := by
  rw [pagestatPrint]
  split
  · next h => simp [h]
  · next h => simp [h]

theorem pagestatPrintDiff_moved (h : ¬SameRange a b) :
    ((pagestatPrintDiff env (some a) (some b) seen).2.1 = [] ↔ a.ignored = true) ∧
      (pagestatPrintDiff env (some a) (some b) seen).1 = !a.ignored := by
  have hrange : a.vmaStart ≠ b.vmaStart ∨ a.vmaEnd ≠ b.vmaEnd := by
    rw [SameRange, not_and_or] at h
    exact h
  simp only [pagestatPrintDiff, if_pos hrange, pagestatPrint_result, Bool.not_not]
  split
  · next hignored => simp [hignored, pagestatPrint_eq_nil]
  · next hignored => simp [hignored]

/-- **Nothing is printed about entries that are unchanged, and about no others.** -/
theorem pagestatPrintDiff_eq_nil : (pagestatPrintDiff env psA psB seen).2.1 = [] ↔ Unchanged env psA psB := by
  constructor
  · intro hnil
    cases psA with
    | none =>
        cases psB with
        | none => exact Unchanged.none
        | some b => exact Unchanged.added (pagestatPrint_eq_nil.mp hnil)
    | some a =>
        cases psB with
        | none => exact Unchanged.removed (pagestatPrint_eq_nil.mp hnil)
        | some b =>
            by_cases h : SameRange a b
            · exact Unchanged.same h ((pagestatPrintDiff_same_eq_nil h).mp hnil)
            · exact Unchanged.moved h ((pagestatPrintDiff_moved h).1.mp hnil)
  · intro hsame
    cases hsame with
    | none => rfl
    | added h => exact pagestatPrint_eq_nil.mpr h
    | removed h => exact pagestatPrint_eq_nil.mpr h
    | moved h hignored => exact (pagestatPrintDiff_moved h).1.mpr hignored
    | same h hdata => exact (pagestatPrintDiff_same_eq_nil h).mpr hdata

/-- What is not printed is not reported. -/
theorem Unchanged.result (h : Unchanged env psA psB) : (pagestatPrintDiff env psA psB seen).1 = false := by
  cases h with
  | none => rfl
  | added h => exact pagestatPrint_result.trans (by rw [h]; rfl)
  | removed h => exact pagestatPrint_result.trans (by rw [h]; rfl)
  | moved h hignored => rw [(pagestatPrintDiff_moved h).2, hignored, Bool.not_true]
  | same h hdata =>
      rw [pagestatPrintDiff_same h, (printDiffSame_pages env _ _ seen).1, not_not.mp (mt pagesDiffer_iff.mpr hdata.pages)]
      rfl

/-! ## The rounds

A comparison may print a difference and return false. Then `(no updates)` comes after it, and the
round is not quiet. -/

theorem printDiffs_eq_nil {pairs : List (Option PageStat × Option PageStat)} :
    ((printDiffs env pairs seen).2.1 = [] ↔ ∀ p ∈ pairs, Unchanged env p.1 p.2) ∧
      ((∀ p ∈ pairs, Unchanged env p.1 p.2) → (printDiffs env pairs seen).1 = false) := by
  induction pairs generalizing seen with
  | nil => simp [printDiffs]
  | cons p pairs ih =>
      obtain ⟨psA, psB⟩ := p
      obtain ⟨hnil, hresult⟩ := @ih (pagestatPrintDiff env psA psB seen).2.2
      rw [List.forall_mem_cons]
      constructor
      · simp only [printDiffs, List.append_eq_nil_iff, hnil, pagestatPrintDiff_eq_nil]
        constructor
        · rintro ⟨⟨h, -⟩, hrest⟩
          exact ⟨h, hrest⟩
        · rintro ⟨h, hrest⟩
          exact ⟨⟨h, by simp [h.result]⟩, hrest⟩
      · rintro ⟨h, hrest⟩
        simp only [printDiffs, h.result, hresult hrest, Bool.or_self]

/-- What is reported ends with two empty lines. -/
theorem printDiffs_newlines {pairs : List (Option PageStat × Option PageStat)}
    (h : (printDiffs env pairs seen).1 = true) : 3 ≤ (printDiffs env pairs seen).2.1.count '\n' := by
  induction pairs generalizing seen with
  | nil => cases h
  | cons p pairs ih =>
      obtain ⟨psA, psB⟩ := p
      simp only [printDiffs, Bool.or_eq_true] at h ⊢
      rw [List.count_append, List.count_append]
      rcases h with h | h
      · rw [if_pos h]
        have hlines : "\n\n\n".toList.count '\n' = 3 := by decide
        omega
      · exact Nat.le_trans (ih h) (Nat.le_add_left _ _)

theorem pagestatPrintDiffAll_eq_nil :
    ((pagestatPrintDiffAll env pss pssCurr seen).2.1 = [] ↔ ∀ i < maxMaps, Unchanged env (pss i) (pssCurr i)) ∧
      ((∀ i < maxMaps, Unchanged env (pss i) (pssCurr i)) → (pagestatPrintDiffAll env pss pssCurr seen).1 = false) := by
  have hpairs : (∀ i < maxMaps, Unchanged env (pss i) (pssCurr i)) ↔
      ∀ p ∈ (List.range maxMaps).map fun i => (pss i, pssCurr i), Unchanged env p.1 p.2 := by
    simp only [List.forall_mem_map, List.mem_range]
  rw [hpairs, pagestatPrintDiffAll]
  exact printDiffs_eq_nil

theorem watchRound_quiet (silent : Bool) :
    (watchRound env silent pss pssCurr seen).1 = (if silent then [] else "(no updates)\n".toList) ↔
      ∀ i < maxMaps, Unchanged env (pss i) (pssCurr i) := by
  obtain ⟨hnil, hresult⟩ := @pagestatPrintDiffAll_eq_nil env seen pss pssCurr
  have hnewlines : (pagestatPrintDiffAll env pss pssCurr seen).1 = true →
      3 ≤ (pagestatPrintDiffAll env pss pssCurr seen).2.1.count '\n' := by
    rw [pagestatPrintDiffAll]
    exact printDiffs_newlines
  rw [watchRound, ← hnil]
  rw [← hnil] at hresult
  generalize pagestatPrintDiffAll env pss pssCurr seen = r at hresult hnewlines
  obtain ⟨updated, out, seen'⟩ := r
  cases silent with
  | true => simp
  | false =>
      cases updated with
      | false => simp
      | true =>
          have hlines := hnewlines rfl
          have hone : "(no updates)\n".toList.count '\n' = 1 := by decide
          simp only [Bool.not_true, Bool.false_and, Bool.false_eq_true, if_false, List.append_nil] at hlines ⊢
          constructor
          · intro hout
            rw [hout, hone] at hlines
            omega
          · intro hout
            cases hresult hout

/-- **A round of `watch-cmd` is quiet exactly if no entry has changed**: it prints nothing, or that there are no
updates. -/
theorem watch_quiet (env : Env) (silent : Bool) (seen : Seen) (rest : List (Nat → Option PageStat)) {t : Nat}
    (hbefore : (pss :: rest)[t]? = some pssCurr) {pssNext : Nat → Option PageStat} (hafter : rest[t]? = some pssNext) :
    ∃ out, (watch env silent pss rest seen)[t]? = some out ∧
      (out = (if silent then [] else "(no updates)\n".toList) ↔
        ∀ i < maxMaps, Unchanged env (pssCurr i) (pssNext i)) := by
  induction rest generalizing pss seen t with
  | nil => cases hafter
  | cons curr rest ih =>
      cases t with
      | zero =>
          cases hbefore
          cases hafter
          exact ⟨(watchRound env silent _ _ seen).1, rfl, watchRound_quiet silent⟩
      | succ t => exact ih (watchRound env silent pss curr seen).2 hbefore hafter

/-- The same page twice, and then with another `rss`. -/
theorem watch_quiet_rss :
    let first : Nat → Option PageStat := fun i => if i = 0 then some (onePage 0 0) else none
    let last : Nat → Option PageStat := fun i => if i = 0 then some (onePage 4 0) else none
    ∃ out, (watch Env.linux true first [first, last] Seen.init)[1]? = some out ∧
      (out = (if true then [] else "(no updates)\n".toList) ↔
        ∀ i < maxMaps, Unchanged Env.linux (first i) (last i)) := by
  intro first last
  exact watch_quiet Env.linux true Seen.init [first, last] (show (first :: [first, last])[1]? = some first from rfl) rfl

end MmExper.Pagestat
