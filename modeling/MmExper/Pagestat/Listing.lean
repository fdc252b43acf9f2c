import Mathlib.Data.List.SplitBy
import MmExper.Pagestat.Print

/-!
# Runs of pages

`pagestat_print` goes over the pages of a VMA and breaks them into runs, in which each page is like the
one before it. What it prints is what it prints for each run: the line of the first page, and one more line
for all the others.
-/

namespace MmExper.Pagestat

open Lib

/-- A page of a VMA: its address, its place in the arrays of the snapshot, and its pagemap entry. -/
structure Page where
  addr : Word
  index : Word
  val : Word
  deriving DecidableEq

def pagesFrom (env : Env) (ps : PageStat) (addr index : Word) : Nat → List Page
  | 0 => []
  | n + 1 =>
    ⟨addr, index, env.read ps.pagemaps index⟩ :: pagesFrom env ps (addr + env.pageSize) (index + 1#64) n

def PageStat.pages (ps : PageStat) (env : Env) : List Page :=
  pagesFrom env ps ps.vmaStart 0#64 (countVirtPages env.pageSize ps).toNat

/-- The PFN is that of the page before, or the next one. -/
def Page.follows (q p : Page) : Bool := getPfn q.val = getPfn p.val ∨ getPfn q.val = getPfn p.val + 1#64

/-- The flags of the entry, bits 55 to 63. -/
def Page.flags (p : Page) : Word := p.val &&& ~~~pagemapPfnMask

/-- The test of `print_mapping()`, between a page and the next one. -/
def Page.like (p q : Page) : Bool := q.flags = p.flags && q.follows p

def runs (pages : List Page) : List (List Page) := pages.splitBy Page.like

def Page.line (env : Env) (ps : PageStat) (p : Page) : Line := doPrintMapping env p.addr ps p.index p.val

/-- The entry that is put together for the second page of a run of two. -/
def Page.rebuilt (p : Page) : Word :=
  if getPfn p.val = invalidValue then p.flags else p.flags ||| getPfn p.val

/-- What is printed for a run after the line of its first page. -/
def restLines (env : Env) (ps : PageStat) : List Page → List Line
  | [] => []
  | [q] => [doPrintMapping env q.addr ps q.index q.rebuilt]
  | _ :: r :: run =>
    [.repetitions ((r :: run).getLast (List.cons_ne_nil r run)).addr (BitVec.ofNat 64 (run.length + 2))]

def runLines (env : Env) (ps : PageStat) : List Page → List Line
  | [] => []
  | p :: run => p.line env ps :: restLines env ps run

/-- The variables after a run that ends with `p`, its `count`th page. -/
structure Seen.After (seen : Seen) (p : Page) (count : Nat) : Prop where
  map : seen.lastSeenMap = p.flags
  pfn : seen.lastSeenPfn = getPfn p.val
  addr : seen.lastSeenAddr = p.addr
  index : seen.lastSeenIndex = p.index
  count : seen.seenMapCount = BitVec.ofNat 64 count

/-- The variables as `print_mapping_terminate()` leaves them. It leaves `last_seen_addr` alone, which is
assigned before it is used again. -/
structure Seen.IsReset (seen : Seen) : Prop where
  map : seen.lastSeenMap = invalidValue
  index : seen.lastSeenIndex = 0#64
  pfn : seen.lastSeenPfn = 0#64
  count : seen.seenMapCount = 0#64

variable {env : Env} {ps : PageStat} {seen : Seen} {p q : Page} {run : List Page} {addr index : Word}
  {count n : Nat}

/-! ## Between two pages

The variables stand for the run so far: its last page and its length. -/

theorem Seen.After.newVal (h : seen.After p count) : seen.newVal q.val = !p.like q := by
  rw [Seen.newVal, Page.like, Page.follows, h.map, h.pfn, Bool.eq_iff_iff]
  simp only [Bool.not_eq_true', Bool.and_eq_false_iff, decide_eq_true_eq, decide_eq_false_iff_not, not_or]
  rfl

/-- A page like the last one is counted. -/
theorem Seen.After.see (h : seen.After p count) (addr index val : Word) :
    (seen.see addr index val).After ⟨addr, index, val⟩ (count + 1) := by
  refine ⟨rfl, rfl, rfl, rfl, ?_⟩
  show seen.seenMapCount + 1#64 = _
  rw [h.count, BitVec.ofNat_add]

/-- The first page of a run is counted. -/
theorem Seen.after_first (seen : Seen) (addr index val : Word) :
    ({ seen with seenMapCount := 0#64 }.see addr index val).After ⟨addr, index, val⟩ 1 :=
  ⟨rfl, rfl, rfl, rfl, rfl⟩

/-- The end of a run prints what its first page left. -/
theorem Seen.After.printAbbrev (env : Env) (ps : PageStat) (run : List Page) (h : seen.After p run.length)
    (hlen : run.length < 2 ^ 64) (hlast : run.getLast? = some p) :
    Pagestat.printAbbrev env ps seen = restLines env ps run.tail := by
  have hmap : seen.lastSeenMap ≠ invalidValue := by
    have hmap : (Seen.init.see 0 0 p.val).lastSeenMap ≠ invalidValue := Seen.see_map_ne
    rw [h.map]
    exact hmap
  have hcount : seen.seenMapCount.toNat = run.length := by
    rw [h.count, BitVec.toNat_ofNat, Nat.mod_eq_of_lt hlen]
  -- Nothing, the second page, or a count: by the length of the run.
  match run with
  | [] => cases hlast
  | [_] =>
      show _ = []
      rw [printAbbrev_eq_nil hmap, hcount]
      exact Nat.lt_succ_self 1
  | [_, q] =>
      cases hlast
      have htwo : seen.seenMapCount = 2#64 := h.count
      rw [Pagestat.printAbbrev, if_neg hmap, htwo, if_neg (by decide), if_pos rfl, h.map, h.pfn, h.addr,
        h.index]
      rfl
  | _ :: q :: r :: run =>
      rw [printAbbrev_repetitions hmap (by
        rw [hcount]
        exact Nat.succ_lt_succ (Nat.succ_lt_succ (Nat.succ_pos _))), h.addr, h.count]
      show [Line.repetitions p.addr _] = [Line.repetitions _ _]
      have hp : (r :: run).getLast (List.cons_ne_nil r run) = p := by
        rw [List.getLast?_cons_cons, List.getLast?_cons_cons,
          List.getLast?_eq_getLast_of_ne_nil (List.cons_ne_nil r run)] at hlast
        exact Option.some.inj hlast
      have hpred : BitVec.ofNat 64 (run.length + 2 + 1) - 1#64 = BitVec.ofNat 64 (run.length + 2) := by
        rw [BitVec.ofNat_add]
        exact BitVec.add_sub_cancel _ _
      rw [hp]
      exact congrArg (fun k => [Line.repetitions p.addr k]) hpred

/-! ## Over all pages

The induction is on the pages to go, with the run so far as a parameter. -/

/-- A run that the next page is not like is over. -/
theorem runs_append_cons (hne : run ≠ []) (hchain : run.IsChain fun p q => p.like q) (hlast : run.getLast? = some p)
    (hq : p.like q = false) (pages : List Page) : runs (run ++ q :: pages) = run :: runs (q :: pages) := by
  rw [runs, List.splitBy_append_cons pages fun x hx => by rwa [Option.some.inj (hx.symm.trans hlast)],
    List.splitBy_of_isChain hne hchain]
  rfl

theorem runs_of_isChain (hne : run ≠ []) (hchain : run.IsChain fun p q => p.like q) : runs run = [run] :=
  List.splitBy_of_isChain hne hchain

/-- A page that is counted prints nothing. -/
theorem printPages_old (h : seen.newVal (env.read ps.pagemaps index) = false) (n : Nat) :
    (printPages env ps addr index (n + 1) seen).1 =
      (printPages env ps (addr + env.pageSize) (index + 1#64) n
        (seen.see addr index (env.read ps.pagemaps index))).1 := by
  rw [printPages, printMapping_old h]
  rfl

/-- A page that begins a run prints what the last run has left, and its line. -/
theorem printPages_new (h : seen.newVal (env.read ps.pagemaps index) = true) (n : Nat) :
    (printPages env ps addr index (n + 1) seen).1 =
      printAbbrev env ps seen ++ doPrintMapping env addr ps index (env.read ps.pagemaps index) ::
        (printPages env ps (addr + env.pageSize) (index + 1#64) n
          ({ seen with seenMapCount := 0#64 }.see addr index (env.read ps.pagemaps index))).1 := by
  rw [printPages, printMapping_new h]
  exact List.append_assoc _ _ _

/-- A run that has been read up to `p`: what is still printed is its second line and the lines of the runs
after it. -/
theorem Seen.After.printPages (h : seen.After p (run.length + 1)) (hlast : (q :: run).getLast? = some p)
    (hchain : (q :: run).IsChain fun p q => p.like q) (hlen : run.length + 1 + n < 2 ^ 64) :
    q.line env ps :: (Pagestat.printPages env ps addr index n seen).1 =
      (runs (q :: run ++ pagesFrom env ps addr index n)).flatMap (runLines env ps) := by
  have hend := Seen.After.printAbbrev env ps (q :: run) h
    (Nat.lt_of_le_of_lt (Nat.le_add_right _ _) hlen) hlast
  induction n generalizing q run p seen addr index with
  | zero =>
      rw [pagesFrom, List.append_nil, runs_of_isChain (List.cons_ne_nil q run) hchain, List.flatMap_singleton]
      exact congrArg (q.line env ps :: ·) hend
  | succ n ih =>
      -- The next page is given a name, so that the run can grow by it.
      obtain ⟨r, hr⟩ : ∃ r : Page, r = ⟨addr, index, env.read ps.pagemaps index⟩ := ⟨_, rfl⟩
      have hnew : seen.newVal (env.read ps.pagemaps index) = !p.like r := by
        rw [← h.newVal, hr]
      rw [pagesFrom, ← hr]
      cases hlike : p.like r with
      | true =>
          rw [hlike] at hnew
          -- It is like the last one: the run goes on, and nothing is printed.
          have hrest : (q :: (run ++ [r])).IsChain fun p q => p.like q := by
            rw [← List.cons_append, List.isChain_append]
            refine ⟨hchain, List.isChain_singleton r, fun x hx y hy => ?_⟩
            rw [← Option.some.inj hy, Option.some.inj (hx.symm.trans hlast)]
            exact hlike
          have hlast' : (q :: (run ++ [r])).getLast? = some r := by
            rw [← List.cons_append, List.getLast?_concat]
          have hlen' : (run ++ [r]).length + 1 + n < 2 ^ 64 := by
            rw [List.length_append, List.length_singleton]
            omega
          have hsee : (seen.see addr index (env.read ps.pagemaps index)).After r ((run ++ [r]).length + 1) := by
            rw [hr, List.length_append]
            exact h.see addr index _
          rw [printPages_old hnew, List.append_cons]
          exact ih hsee hlast' hrest hlen'
            (hsee.printAbbrev env ps (q :: (run ++ [r])) (Nat.lt_of_le_of_lt (Nat.le_add_right _ _) hlen') hlast')
      | false =>
          rw [hlike] at hnew
          -- It is not: the run is printed to its end, and a new one begins.
          have hsee : ({ seen with seenMapCount := 0#64 }.see addr index (env.read ps.pagemaps index)).After r 1 :=
            hr ▸ Seen.after_first seen addr index _
          have hlen' : ([] : List Page).length + 1 + n < 2 ^ 64 := by
            rw [List.length_nil]
            omega
          have hrun : _ = (runs ([r] ++ pagesFrom env ps (addr + env.pageSize) (index + 1#64) n)).flatMap _ :=
            ih hsee rfl (List.isChain_singleton r) hlen'
              (hsee.printAbbrev env ps [r] (Nat.one_lt_two_pow (by decide)) rfl)
          rw [printPages_new hnew, hend, runs_append_cons (List.cons_ne_nil q run) hchain hlast hlike,
            List.flatMap_cons]
          show runLines env ps (q :: run) ++ _ = _
          rw [← List.singleton_append (x := r), ← hrun, hr]
          rfl

/-- **A listing is printed run by run**, from any state in which nothing is counted. -/
theorem printPages_eq (h : seen.lastSeenMap = invalidValue) (hn : n < 2 ^ 64) :
    (printPages env ps addr index n seen).1 =
      (runs (pagesFrom env ps addr index n)).flatMap (runLines env ps) := by
  cases n with
  | zero => exact printAbbrev_invalid h
  | succ n =>
      obtain ⟨r, hr⟩ : ∃ r : Page, r = ⟨addr, index, env.read ps.pagemaps index⟩ := ⟨_, rfl⟩
      have hnew : seen.newVal (env.read ps.pagemaps index) = true := by
        have hmap : (seen.see addr index (env.read ps.pagemaps index)).lastSeenMap ≠ invalidValue :=
          Seen.see_map_ne
        rw [← h] at hmap
        exact decide_eq_true (Or.inl hmap)
      have hsee : ({ seen with seenMapCount := 0#64 }.see addr index (env.read ps.pagemaps index)).After r 1 :=
        hr ▸ Seen.after_first seen addr index _
      have hlen : ([] : List Page).length + 1 + n < 2 ^ 64 := by
        rw [List.length_nil]
        omega
      have hrun : _ = (runs ([r] ++ pagesFrom env ps (addr + env.pageSize) (index + 1#64) n)).flatMap _ :=
        hsee.printPages rfl (List.isChain_singleton r) hlen
      rw [printPages_new hnew, printAbbrev_invalid h, pagesFrom, ← hr, ← List.singleton_append (x := r), ← hrun, hr]
      rfl

/-! ## Every page once

A line of repetitions stands for the pages that end where it says. -/

/-- The addresses of so many pages that end here. -/
def endingAt (pageSize addr : Word) : Nat → List Word
  | 0 => []
  | count + 1 => endingAt pageSize (addr - pageSize) count ++ [addr]

def Line.expand (pageSize : Word) : Line → List Word
  | .mapping addr _ _ _ => [addr]
  | .repetitions addr count => endingAt pageSize addr count.toNat

def PageStat.pageAddresses (ps : PageStat) (env : Env) : List Word :=
  (List.range (countVirtPages env.pageSize ps).toNat).map fun i =>
    ps.vmaStart + BitVec.ofNat 64 i * env.pageSize

/-- The addresses of the pages do not wrap. -/
def PageStat.InRange (ps : PageStat) (env : Env) : Prop :=
  0 < env.pageSize.toNat ∧
    ps.vmaStart.toNat + (countVirtPages env.pageSize ps).toNat * env.pageSize.toNat ≤ 2 ^ 64

/-- Each page is the one after the page before. -/
def Consecutive (env : Env) (pages : List Page) : Prop :=
  pages.IsChain fun p q => q.addr = p.addr + env.pageSize

theorem consecutive_pagesFrom : Consecutive env (pagesFrom env ps addr index n) := by
  induction n generalizing addr index with
  | zero => exact List.isChain_nil
  | succ n ih =>
      cases n with
      | zero => exact List.isChain_singleton _
      | succ n => exact List.isChain_cons_cons.mpr ⟨rfl, ih⟩

theorem map_addr_pagesFrom : (pagesFrom env ps addr index n).map Page.addr =
    (List.range n).map fun i => addr + BitVec.ofNat 64 i * env.pageSize := by
  induction n generalizing addr index with
  | zero => rfl
  | succ n ih =>
      rw [pagesFrom, List.map_cons, ih, List.range_succ_eq_map, List.map_cons, List.map_map]
      congr 1
      · simp
      · apply List.map_congr_left
        intro i _
        show addr + env.pageSize + BitVec.ofNat 64 i * env.pageSize = addr + BitVec.ofNat 64 (i + 1) * env.pageSize
        rw [BitVec.ofNat_add]
        grind

/-- Consecutive pages are known from the last one and their number. -/
theorem Consecutive.map_addr (h : Consecutive env run) (hlast : run.getLast? = some p) :
    run.map Page.addr = endingAt env.pageSize p.addr run.length := by
  induction run using List.reverseRecOn generalizing p with
  | nil => rfl
  | append_singleton run q ih =>
      rw [List.getLast?_concat] at hlast
      obtain rfl := Option.some.inj hlast
      obtain ⟨hrun, -, hnext⟩ := List.isChain_append.mp h
      rw [List.map_append, List.length_append, List.map_singleton]
      show _ = endingAt env.pageSize (q.addr - env.pageSize) run.length ++ [q.addr]
      congr 1
      cases hr : run.getLast? with
      | none =>
          rw [List.getLast?_eq_none_iff.mp hr]
          rfl
      | some r =>
          have haddr : q.addr = r.addr + env.pageSize := hnext r hr q rfl
          rw [ih hrun hr, haddr, BitVec.add_sub_cancel]

/-- The lines of a run stand for its pages. -/
theorem runLines_expand (h : Consecutive env run) (hlen : run.length < 2 ^ 64) :
    (runLines env ps run).flatMap (Line.expand env.pageSize) = run.map Page.addr := by
  match run with
  | [] => rfl
  | [_] => rfl
  | [_, _] => rfl
  | p :: q :: r :: run =>
      have hrest := Consecutive.map_addr (List.isChain_cons_cons.mp h).2
        (List.getLast?_eq_getLast_of_ne_nil (List.cons_ne_nil q (r :: run)))
      have hcount : (BitVec.ofNat 64 (run.length + 2)).toNat = run.length + 2 :=
        Lib.toNat_ofNat_of_lt (Nat.lt_of_succ_lt hlen)
      rw [List.map_cons, hrest]
      show [p.addr] ++ (endingAt _ _ (BitVec.ofNat 64 (run.length + 2)).toNat ++ []) = _
      rw [hcount, List.append_nil]
      rfl

/-- A run of consecutive pages is made of consecutive pages. -/
theorem Consecutive.runs {pages : List Page} (h : Consecutive env pages) (hrun : run ∈ runs pages) :
    Consecutive env run ∧ run.length ≤ pages.length := by
  have hinfix : run <:+: pages := by
    have hflat := List.infix_of_mem_flatten hrun
    rwa [Pagestat.runs, List.flatten_splitBy] at hflat
  have hconsecutive : Consecutive env run := List.IsChain.infix h hinfix
  exact ⟨hconsecutive, hinfix.length_le⟩

/-- All lines together stand for all pages. -/
theorem flatMap_runLines_expand {pages : List Page} (h : Consecutive env pages) (hlen : pages.length < 2 ^ 64) :
    ((runs pages).flatMap (runLines env ps)).flatMap (Line.expand env.pageSize) = pages.map Page.addr := by
  calc ((runs pages).flatMap (runLines env ps)).flatMap (Line.expand env.pageSize)
      = (runs pages).flatMap fun run => (runLines env ps run).flatMap (Line.expand env.pageSize) :=
        List.flatMap_assoc
    _ = (runs pages).flatMap fun run => run.map Page.addr := by
        apply List.flatMap_congr
        intro run hrun
        obtain ⟨hcons, hle⟩ := h.runs hrun
        exact runLines_expand hcons (Nat.lt_of_le_of_lt hle hlen)
    _ = (runs pages).flatten.map Page.addr := by rw [List.map_flatten, List.flatMap_def]
    _ = pages.map Page.addr := by rw [runs, List.flatten_splitBy]

theorem length_pagesFrom : (pagesFrom env ps addr index n).length = n := by
  have haddr : (pagesFrom env ps addr index n).map Page.addr = _ := map_addr_pagesFrom
  have hlen := congrArg List.length haddr
  rwa [List.length_map, List.length_map, List.length_range] at hlen

/-- The addresses ascend as long as they do not wrap. -/
theorem PageStat.InRange.ascending (h : ps.InRange env) : (ps.pageAddresses env).Pairwise (· < ·) := by
  obtain ⟨hpos, hend⟩ := h
  -- Where the page with this number begins.
  have haddr : ∀ i < (countVirtPages env.pageSize ps).toNat,
      (ps.vmaStart + BitVec.ofNat 64 i * env.pageSize).toNat = ps.vmaStart.toNat + i * env.pageSize.toNat := by
    intro i hi
    have hn := (countVirtPages env.pageSize ps).isLt
    have hmul : (i + 1) * env.pageSize.toNat ≤ (countVirtPages env.pageSize ps).toNat * env.pageSize.toNat :=
      Nat.mul_le_mul_right _ hi
    rw [Nat.succ_mul] at hmul
    have hi' : (BitVec.ofNat 64 i).toNat = i :=
      Lib.toNat_ofNat_of_lt (Nat.lt_trans hi hn)
    rw [BitVec.toNat_add, BitVec.toNat_mul, hi', Nat.add_mod_mod]
    apply Nat.mod_eq_of_lt
    omega
  rw [PageStat.pageAddresses, List.pairwise_map]
  apply List.Pairwise.imp_of_mem _ List.pairwise_lt_range
  intro i j hi hj hij
  rw [BitVec.lt_def, haddr i (List.mem_range.mp hi), haddr j (List.mem_range.mp hj)]
  exact Nat.add_lt_add_left (Nat.mul_lt_mul_of_pos_right hij hpos) _

/-- The end of a listing resets the variables. -/
theorem isReset_printPages : (printPages env ps addr index n seen).2.IsReset := by
  induction n generalizing addr index seen with
  | zero => exact ⟨rfl, rfl, rfl, rfl⟩
  | succ n ih => exact ih

def PageStat.listing (ps : PageStat) (env : Env) (seen : Seen) : List Line :=
  (printPages env ps ps.vmaStart 0#64 (countVirtPages env.pageSize ps).toNat seen).1

/-- A listing is printed, and the variables are reset. -/
theorem pagestatPrint_eq (hps : ps.ignored = false) (seen : Seen) :
    ∃ seen', pagestatPrint env (some ps) seen = (true, printHeader ps ++ text env (ps.listing env seen), seen') ∧
      seen'.IsReset := by
  refine ⟨(printPages env ps ps.vmaStart 0#64 (countVirtPages env.pageSize ps).toNat seen).2, ?_,
    isReset_printPages⟩
  rw [pagestatPrint, PageStat.listing]
  simp only [hps, Bool.false_eq_true, if_false]

/-- From reset variables it is that of the runs. -/
theorem Seen.IsReset.listing (h : seen.IsReset) (env : Env) (ps : PageStat) :
    ps.listing env seen = (runs (ps.pages env)).flatMap (runLines env ps) :=
  printPages_eq h.map (countVirtPages env.pageSize ps).isLt

theorem PageStat.length_pages (ps : PageStat) (env : Env) : (ps.pages env).length < 2 ^ 64 := by
  rw [PageStat.pages, length_pagesFrom]
  exact (countVirtPages env.pageSize ps).isLt

/-- **Every page is listed once**, in order, and the variables are reset again. -/
theorem listing_expand (env : Env) (hps : ps.ignored = false) (hseen : seen.IsReset) :
    (∃ seen', pagestatPrint env (some ps) seen =
        (true, printHeader ps ++ text env (ps.listing env seen), seen') ∧ seen'.IsReset) ∧
      (ps.listing env seen).flatMap (Line.expand env.pageSize) = ps.pageAddresses env ∧
      (ps.InRange env → (ps.pageAddresses env).Pairwise (· < ·)) := by
  refine ⟨pagestatPrint_eq hps seen, ?_, PageStat.InRange.ascending⟩
  rw [hseen.listing]
  exact (flatMap_runLines_expand consecutive_pagesFrom (ps.length_pages env)).trans map_addr_pagesFrom

/-- Five pages: a run of three between two that are not mapped. -/
def fivePages : PageStat :=
  { onePage 0 0 with
    vmaEnd := 0x6000
    vmSize := 20
    pagemaps := [0, 0x8000000000000005, 0x8000000000000006, 0x8000000000000006, 0] }

theorem fivePages_listing_expand :
    (∃ seen', pagestatPrint Env.linux (some fivePages) Seen.init =
        (true, printHeader fivePages ++ text Env.linux (fivePages.listing Env.linux Seen.init), seen') ∧
        seen'.IsReset) ∧
      (fivePages.listing Env.linux Seen.init).flatMap (Line.expand 4096) =
        [0x1000, 0x2000, 0x3000, 0x4000, 0x5000] ∧
      ([0x1000, 0x2000, 0x3000, 0x4000, 0x5000] : List Word).Pairwise (· < ·) := by
  have hreset : Seen.init.IsReset := ⟨rfl, rfl, rfl, rfl⟩
  obtain ⟨hprint, hexpand, hasc⟩ := listing_expand Env.linux (show fivePages.ignored = false from rfl) hreset
  have haddr : fivePages.pageAddresses Env.linux = [0x1000, 0x2000, 0x3000, 0x4000, 0x5000] := by decide +kernel
  rw [haddr] at hexpand hasc
  exact ⟨hprint, hexpand, hasc ⟨by decide, by decide⟩⟩

end MmExper.Pagestat
