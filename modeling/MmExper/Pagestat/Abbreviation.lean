import MmExper.Pagestat.Entry
import MmExper.Pagestat.Listing

/-!
# What an abbreviated listing leaves out

A page that is only counted is taken to be like the first page of its run, and the second page of a run of
two is printed from the flags and the PFN that were kept. The test between the pages does not look at where
they are in swap, nor at their page flags and counts, so these may differ.
-/

namespace MmExper.Pagestat

open Lib

def Page.swapped (p : Page) : Bool := checkBit p.val pagemapSwappedBit

/-- The repeated page `q` is what the line of `p` says, its PFN apart. -/
structure Page.Agrees (env : Env) (ps : PageStat) (p q : Page) : Prop where
  flags : q.flags = p.flags
  swapType : q.swapped = true → Pagestat.swapType q.val = Pagestat.swapType p.val
  swapOffset : q.swapped = true → Pagestat.swapOffset q.val = Pagestat.swapOffset p.val
  kpageflags : env.read ps.kpageflags q.index = env.read ps.kpageflags p.index
  kpagecount : env.read ps.kpagecounts q.index = env.read ps.kpagecounts p.index

/-- The lines say what the pages are: the line of a page is the one for its entry, and repeated pages are
like `above`, the one with the line above, and each one's PFN is that of the page before or the next. -/
def Shown (env : Env) (ps : PageStat) : List Line → List Page → Option Page → Prop
  | [], pages, _ => pages = []
  | .mapping addr val flags count :: ls, p :: pages, _ =>
    (Line.mapping addr val flags count).chars env = (p.line env ps).chars env ∧ Shown env ps ls pages (some p)
  | .repetitions _ count :: ls, pages, some above =>
    (∀ q ∈ pages.take count.toNat, above.Agrees env ps q) ∧
      (above :: pages.take count.toNat).IsChain (fun p q => q.follows p) ∧
      Shown env ps ls (pages.drop count.toNat) (some above)
  | _, _, _ => False

/-- What the test between two pages would have to compare as well. -/
structure Page.SameData (env : Env) (ps : PageStat) (p q : Page) : Prop where
  swap : q.swapped = true → q.val &&& pagemapPfnMask = p.val &&& pagemapPfnMask
  kpageflags : env.read ps.kpageflags q.index = env.read ps.kpageflags p.index
  kpagecount : env.read ps.kpagecounts q.index = env.read ps.kpagecounts p.index

/-- Nothing that the listing drops matters: a run of three pages or more is made of pages with the same
data, and the second page of a run of two has no place in swap other than the first one of the first
area. -/
def Lossless (env : Env) (ps : PageStat) : List Page → Prop
  | [_, q] => q.swapped = true → q.val &&& pagemapPfnMask = 0#64
  | p :: q :: r :: run => (p :: q :: r :: run).IsChain fun p q => p.SameData env ps q
  | _ => True

instance (env : Env) (ps : PageStat) (p q : Page) : Decidable (p.SameData env ps q) :=
  decidable_of_iff ((q.swapped = true → q.val &&& pagemapPfnMask = p.val &&& pagemapPfnMask) ∧
      env.read ps.kpageflags q.index = env.read ps.kpageflags p.index ∧
      env.read ps.kpagecounts q.index = env.read ps.kpagecounts p.index)
    ⟨fun h => ⟨h.1, h.2.1, h.2.2⟩, fun h => ⟨h.swap, h.kpageflags, h.kpagecount⟩⟩

instance (env : Env) (ps : PageStat) : (run : List Page) → Decidable (Lossless env ps run)
  | [] => isTrue trivial
  | [_] => isTrue trivial
  | [_, q] => inferInstanceAs (Decidable (q.swapped = true → q.val &&& pagemapPfnMask = 0#64))
  | p :: q :: r :: run =>
    inferInstanceAs (Decidable ((p :: q :: r :: run).IsChain fun p q => p.SameData env ps q))

variable {env : Env} {ps : PageStat} {seen : Seen} {p q r : Page} {run pages : List Page} {ls : List Line}
  {above : Option Page} {val val' flags count : Word}

/-! ## Runs of two

The second page is printed from the flags and the PFN of the first. A swapped page has no PFN: there
the place in swap is lost. -/

/-- Lines of entries with the same flags and the same PFN differ in their place in swap at most. -/
theorem mappingText_eq_iff (hflags : val &&& ~~~pagemapPfnMask = val' &&& ~~~pagemapPfnMask)
    (hpfn : getPfn val = getPfn val') : mappingText env val flags count = mappingText env val' flags count ↔
      (checkBit val' pagemapSwappedBit = true → swapText val = swapText val') := by
  have hswapped : checkBit val pagemapSwappedBit = checkBit val' pagemapSwappedBit := by
    rw [← checkBit_flags (by decide) (by decide) val, hflags, checkBit_flags (by decide) (by decide)]
  rw [mappingText_eq, mappingText_eq, entryText_congr hflags hpfn, List.append_right_inj, hswapped, hpfn]
  cases checkBit val' pagemapSwappedBit with
  | true => simp
  | false => simp

theorem Page.rebuilt_of_hasPfn (h : hasPfn p.val = true) : p.rebuilt = p.val := by
  have hne : getPfn p.val ≠ invalidValue := by
    rw [ne_eq, getPfn_eq_invalid, h]
    exact Bool.noConfusion
  rw [Page.rebuilt, if_neg hne, Page.flags, getPfn, if_pos h, flags_or_pfn]

theorem Page.rebuilt_of_not_hasPfn (h : hasPfn p.val = false) : p.rebuilt = p.flags := by
  rw [Page.rebuilt, if_pos (getPfn_eq_invalid.mpr h)]

theorem flags_flags (val : Word) :
    val &&& ~~~pagemapPfnMask &&& ~~~pagemapPfnMask = val &&& ~~~pagemapPfnMask := by
  rw [BitVec.and_assoc, BitVec.and_self]

theorem flags_low (val : Word) : val &&& ~~~pagemapPfnMask &&& pagemapPfnMask = 0#64 := by
  rw [BitVec.and_assoc, BitVec.and_comm (~~~pagemapPfnMask)]
  simp

/-- The second line of a run of two is right unless it drops a place in swap. -/
theorem Page.rebuilt_chars : (doPrintMapping env p.addr ps p.index p.rebuilt).chars env = (p.line env ps).chars env ↔
    (p.swapped = true → p.val &&& pagemapPfnMask = 0#64) := by
  have htext : (doPrintMapping env p.addr ps p.index p.rebuilt).chars env = (p.line env ps).chars env ↔
      mappingText env p.rebuilt (env.read ps.kpageflags p.index) (env.read ps.kpagecounts p.index) =
        mappingText env p.val (env.read ps.kpageflags p.index) (env.read ps.kpagecounts p.index) :=
    List.append_right_inj _
  rw [htext]
  cases h : hasPfn p.val with
  | true =>
      rw [Page.rebuilt_of_hasPfn h, Page.swapped, not_swapped_of_hasPfn h]
      simp
  | false =>
      have hflags : p.flags &&& ~~~pagemapPfnMask = p.val &&& ~~~pagemapPfnMask := flags_flags p.val
      have hpfn : getPfn p.flags = getPfn p.val := by
        rw [getPfn_eq_invalid.mpr h, getPfn_eq_invalid, hasPfn_eq hflags, h]
      have hlow : p.flags &&& pagemapPfnMask = 0#64 := flags_low p.val
      rw [Page.rebuilt_of_not_hasPfn h, mappingText_eq_iff hflags hpfn, swapText_inj, ← low_eq_iff, hlow]
      exact imp_congr_right fun _ => eq_comm

/-! ## Longer runs

Only a number is printed for the rest of the run, so they have to be like the first. -/

theorem Page.like_iff : p.like q = true ↔ q.flags = p.flags ∧ q.follows p = true := by
  rw [Page.like, Bool.and_eq_true, decide_eq_true_eq]

theorem Page.swapped_eq (h : q.flags = p.flags) : q.swapped = p.swapped := by
  rw [Page.swapped, Page.swapped, ← checkBit_flags (by decide) (by decide) q.val,
    ← checkBit_flags (by decide) (by decide) p.val]
  exact congrArg (checkBit · pagemapSwappedBit) h

/-- With the same flags only the data is left to compare. -/
theorem Page.agrees_iff (h : q.flags = p.flags) : p.Agrees env ps q ↔ p.SameData env ps q := by
  constructor
  · intro hagree
    exact ⟨fun hs => low_eq_iff.mpr ⟨hagree.swapType hs, hagree.swapOffset hs⟩, hagree.kpageflags,
      hagree.kpagecount⟩
  · intro hsame
    exact ⟨h, fun hs => (low_eq_iff.mp (hsame.swap hs)).1, fun hs => (low_eq_iff.mp (hsame.swap hs)).2,
      hsame.kpageflags, hsame.kpagecount⟩

theorem Page.SameData.trans_iff (h : p.SameData env ps q) (hflags : r.flags = q.flags) :
    q.SameData env ps r ↔ p.SameData env ps r := by
  have hswapped : r.swapped = true → q.swapped = true := fun hs => Page.swapped_eq hflags ▸ hs
  constructor
  · intro h'
    exact ⟨fun hs => (h'.swap hs).trans (h.swap (hswapped hs)), h'.kpageflags.trans h.kpageflags,
      h'.kpagecount.trans h.kpagecount⟩
  · intro h'
    exact ⟨fun hs => (h'.swap hs).trans (h.swap (hswapped hs)).symm, h'.kpageflags.trans h.kpageflags.symm,
      h'.kpagecount.trans h.kpagecount.symm⟩

/-- The flags are the same all over a run. -/
theorem flags_run (h : (p :: run).IsChain fun p q => p.like q) : ∀ q ∈ run, q.flags = p.flags := by
  induction run generalizing p with
  | nil => exact fun _ hq => absurd hq List.not_mem_nil
  | cons q run ih =>
      obtain ⟨hlike, hrest⟩ := List.isChain_cons_cons.mp h
      have hflags := (Page.like_iff.mp hlike).1
      intro r hr
      rcases List.mem_cons.mp hr with rfl | hr
      · exact hflags
      · exact (ih hrest r hr).trans hflags

/-- Over a run the first page may be compared with each of the others. -/
theorem sameData_iff (h : (p :: run).IsChain fun p q => p.like q) :
    (p :: run).IsChain (fun p q => p.SameData env ps q) ↔ ∀ q ∈ run, p.Agrees env ps q := by
  induction run generalizing p with
  | nil => simp
  | cons q run ih =>
      obtain ⟨hlike, hrest⟩ := List.isChain_cons_cons.mp h
      have hflags := (Page.like_iff.mp hlike).1
      rw [List.isChain_cons_cons, ih hrest, List.forall_mem_cons, Page.agrees_iff hflags]
      apply and_congr_right
      intro hsame
      apply forall₂_congr
      intro r hr
      have hr' := flags_run hrest r hr
      rw [Page.agrees_iff hr', Page.agrees_iff (hr'.trans hflags), hsame.trans_iff hr']

/-! ## All runs -/

/-- The lines of a run, and those of the pages after it. -/
theorem shown_run (env : Env) (ps : PageStat) (hne : run ≠ []) (hchain : run.IsChain fun p q => p.like q)
    (hlen : run.length < 2 ^ 64) (above : Option Page) :
    ∃ above', ∀ ls pages, Shown env ps (runLines env ps run ++ ls) (run ++ pages) above ↔
      Lossless env ps run ∧ Shown env ps ls pages above' := by
  match run with
  | [] => exact absurd rfl hne
  | [p] => exact ⟨some p, fun ls pages => and_congr (iff_of_true rfl trivial) Iff.rfl⟩
  | [p, q] =>
      refine ⟨some q, fun ls pages => ?_⟩
      show ((p.line env ps).chars env = (p.line env ps).chars env ∧
        (doPrintMapping env q.addr ps q.index q.rebuilt).chars env = (q.line env ps).chars env ∧
          Shown env ps ls pages (some q)) ↔ _
      rw [Page.rebuilt_chars]
      exact ⟨fun h => h.2, fun h => ⟨rfl, h⟩⟩
  | p :: q :: r :: run =>
      refine ⟨some p, fun ls pages => ?_⟩
      have hcount : (BitVec.ofNat 64 (run.length + 2)).toNat = (q :: r :: run).length :=
        Lib.toNat_ofNat_of_lt (Nat.lt_of_succ_lt hlen)
      have hfollows : (p :: q :: r :: run).IsChain fun p q => q.follows p :=
        hchain.imp fun _ _ hlike => (Page.like_iff.mp hlike).2
      show ((p.line env ps).chars env = (p.line env ps).chars env ∧
        (∀ x ∈ (q :: r :: run ++ pages).take (BitVec.ofNat 64 (run.length + 2)).toNat, p.Agrees env ps x) ∧
          (p :: (q :: r :: run ++ pages).take (BitVec.ofNat 64 (run.length + 2)).toNat).IsChain
            (fun p q => q.follows p) ∧
          Shown env ps ls ((q :: r :: run ++ pages).drop (BitVec.ofNat 64 (run.length + 2)).toNat) (some p)) ↔ _
      rw [hcount, List.take_left, List.drop_left, Lossless, sameData_iff hchain]
      exact ⟨fun h => ⟨h.2.1, h.2.2.2⟩, fun h => ⟨rfl, h.1, hfollows, h.2⟩⟩

/-- The lines of all runs. -/
theorem shown_runs (env : Env) (ps : PageStat) (groups : List (List Page)) (hne : ∀ run ∈ groups, run ≠ [])
    (hchain : ∀ run ∈ groups, run.IsChain fun p q => p.like q) (hlen : ∀ run ∈ groups, run.length < 2 ^ 64)
    (above : Option Page) : Shown env ps (groups.flatMap (runLines env ps)) groups.flatten above ↔
      ∀ run ∈ groups, Lossless env ps run := by
  induction groups generalizing above with
  | nil => simp [Shown]
  | cons run groups ih =>
      rw [List.forall_mem_cons] at hne hchain hlen
      obtain ⟨above', hrun⟩ := shown_run env ps hne.1 hchain.1 hlen.1 above
      rw [List.flatMap_cons, List.flatten_cons, hrun, ih hne.2 hchain.2 hlen.2, List.forall_mem_cons]

/-- The listing of a VMA. -/
theorem Seen.IsReset.shown_listing (h : seen.IsReset) : Shown env ps (ps.listing env seen) (ps.pages env) none ↔
    ∀ run ∈ runs (ps.pages env), Lossless env ps run := by
  have hflat : (runs (ps.pages env)).flatten = ps.pages env := List.flatten_splitBy Page.like _
  have hlen : ∀ run ∈ runs (ps.pages env), run.length < 2 ^ 64 := by
    intro run hrun
    have hinfix := List.infix_of_mem_flatten hrun
    rw [hflat] at hinfix
    exact Nat.lt_of_le_of_lt hinfix.length_le (ps.length_pages env)
  have hshown := shown_runs env ps (runs (ps.pages env)) (fun run hrun => List.ne_nil_of_mem_splitBy hrun)
    (fun run hrun => List.isChain_of_mem_splitBy hrun) hlen none
  rwa [hflat, ← h.listing] at hshown

/-- **A listing loses nothing** exactly if the test between two pages misses nothing: in runs of three pages
and more these have the same page flags and counts, and the same place in swap, and in a run of two the
second page's place in swap is the one that the lost bits stand for. -/
theorem listing_shown_iff (env : Env) (hps : ps.ignored = false) (hseen : seen.IsReset) :
    (∃ seen', pagestatPrint env (some ps) seen =
        (true, printHeader ps ++ text env (ps.listing env seen), seen') ∧ seen'.IsReset) ∧
      (Shown env ps (ps.listing env seen) (ps.pages env) none ↔
        ∀ run ∈ runs (ps.pages env), Lossless env ps run) :=
  ⟨pagestatPrint_eq hps seen, hseen.shown_listing⟩

theorem fivePages_shown :
    (∃ seen', pagestatPrint Env.linux (some fivePages) Seen.init =
        (true, printHeader fivePages ++ text Env.linux (fivePages.listing Env.linux Seen.init), seen') ∧
        seen'.IsReset) ∧
      Shown Env.linux fivePages (fivePages.listing Env.linux Seen.init) (fivePages.pages Env.linux) none := by
  have hreset : Seen.init.IsReset := ⟨rfl, rfl, rfl, rfl⟩
  obtain ⟨hprint, hshown⟩ := listing_shown_iff Env.linux (show fivePages.ignored = false from rfl) hreset
  exact ⟨hprint, hshown.mpr (by decide +kernel)⟩

/-- Two pages that are swapped out, next to each other in swap. -/
def twoSwapped : PageStat :=
  { onePage 0 0 with
    vmaEnd := 0x3000
    vmSize := 8
    pagemaps := [0x4000000000000020, 0x4000000000000040] }

/-- The second one is listed at offset zero. -/
theorem twoSwapped_not_shown :
    ¬∀ env ps seen, PageStat.ignored ps = false → Seen.IsReset seen →
      Shown env ps (ps.listing env seen) (ps.pages env) none := by
  intro h
  have hreset : Seen.init.IsReset := ⟨rfl, rfl, rfl, rfl⟩
  have hlossless := hreset.shown_listing.mp (h Env.linux twoSwapped Seen.init rfl hreset)
  revert hlossless
  decide +kernel

end MmExper.Pagestat
