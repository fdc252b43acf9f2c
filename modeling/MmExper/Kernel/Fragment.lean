import MmExper.Lib.Settled
import Mathlib.Algebra.Group.Nat.Defs

/-!
# Fragmenting memory

`fragment.c` takes all blocks of 512 pages that the kernel has, splits them and gives the second half of each back, so
that no large block is left, and then asks for memory with `vmalloc_huge()`. The rest is given back when the module is
unloaded. `fragment2.c` keeps the blocks whole.
-/

namespace MmExper.Kernel.Fragment

open Lib

/-- A call of a module, with a page frame or an address. -/
inductive Event where
  | allocPages (page order : Nat)
  | splitPage (page order : Nat)
  | freePages (page order : Nat)
  | vmalloc (vaddr : Nat)
  | vfree (vaddr : Nat)
  deriving DecidableEq

def numVmallocs : Nat := 100

/-- What the kernel answers: the pages that `alloc_pages()` returns until there are no more, and what each call of
`vmalloc_huge()` returns. -/
structure Answers where
  pages : List Nat
  vmalloc : Nat → Nat

structure Statics where
  pages : List Nat
  vaddrs : Nat → Nat

def Statics.init : Statics := ⟨[], fun _ => 0⟩

/-- The first loop of `fragment_init()` and `fragment2_init()`. `list_add()` adds at the front. -/
def allocLoop : List Nat → Statics → List Event × Statics
  | [], s => ([], s)
  | page :: rest, s =>
    let r := allocLoop rest { s with pages := page :: s.pages }
    (.allocPages page 9 :: r.1, r.2)

/-- The loop over `NUM_VMALLOCS`, with so many rounds to go. -/
def vmallocLoop (answers : Answers) (i : Nat) : Nat → Statics → List Event × Statics
  | 0, s => ([], s)
  | n + 1, s =>
    let s := { s with vaddrs := fun j => if j = i then answers.vmalloc i else s.vaddrs j }
    if answers.vmalloc i = 0 then ([], s)
    else
      let r := vmallocLoop answers (i + 1) n s
      (.vmalloc (answers.vmalloc i) :: r.1, r.2)

def fragmentInit (answers : Answers) (s : Statics) : List Event × Statics :=
  let r := allocLoop answers.pages s
  let split := r.2.pages.flatMap fun page => [.splitPage page 9, .freePages (page + 2 ^ 8) 8]
  let r' := vmallocLoop answers 0 numVmallocs r.2
  (r.1 ++ split ++ r'.1, r'.2)

/-- The loop of `fragment_exit()` over the addresses. -/
def vfreeLoop (s : Statics) (i : Nat) : Nat → List Event
  | 0 => []
  | n + 1 => if s.vaddrs i = 0 then [] else .vfree (s.vaddrs i) :: vfreeLoop s (i + 1) n

def fragmentExit (s : Statics) : List Event :=
  s.pages.map (fun page => .freePages page 8) ++ vfreeLoop s 0 numVmallocs

def fragment2Init (answers : Answers) (s : Statics) : List Event × Statics := allocLoop answers.pages s

def fragment2Exit (s : Statics) : List Event := s.pages.map fun page => .freePages page 9

def fragmentCycle (answers : Answers) : List Event :=
  let r := fragmentInit answers Statics.init
  r.1 ++ fragmentExit r.2

def fragment2Cycle (answers : Answers) : List Event :=
  let r := fragment2Init answers Statics.init
  r.1 ++ fragment2Exit r.2

/-! ## Frames and addresses

What is counted: how often a frame or an address is taken and given back. A block of `2 ^ order`
pages takes all its frames. -/

def inBlock (frame page order : Nat) : Bool := page ≤ frame && frame < page + 2 ^ order

def takesFrame (frame : Nat) : Event → Bool
  | .allocPages page order => inBlock frame page order
  | _ => false

def givesFrame (frame : Nat) : Event → Bool
  | .freePages page order => inBlock frame page order
  | _ => false

def takesArea (vaddr : Nat) : Event → Bool
  | .vmalloc v => v = vaddr
  | _ => false

def givesArea (vaddr : Nat) : Event → Bool
  | .vfree v => v = vaddr
  | _ => false

variable {answers : Answers} {s : Statics} {frame vaddr page i n : Nat} {pages : List Nat}

theorem allocLoop_eq : allocLoop pages s =
    (pages.map fun page => .allocPages page 9, { s with pages := pages.reverse ++ s.pages }) := by
  induction pages generalizing s with
  | nil => rfl
  | cons page pages ih => simp [allocLoop, ih]

theorem vaddrs_vmallocLoop {j : Nat} (h : j < i) : (vmallocLoop answers i n s).2.vaddrs j = s.vaddrs j := by
  induction n generalizing i s with
  | zero => rfl
  | succ n ih =>
      rw [vmallocLoop]
      split
      · exact if_neg (Nat.ne_of_lt h)
      · exact (ih (Nat.lt_succ_of_lt h)).trans (if_neg (Nat.ne_of_lt h))

/-- The addresses that were allocated, up to the first that was not. -/
def allocated (answers : Answers) (i : Nat) : Nat → List Nat
  | 0 => []
  | n + 1 => if answers.vmalloc i = 0 then [] else answers.vmalloc i :: allocated answers (i + 1) n

theorem vmallocLoop_events : (vmallocLoop answers i n s).1 = (allocated answers i n).map Event.vmalloc := by
  induction n generalizing i s with
  | zero => rfl
  | succ n ih =>
      rw [vmallocLoop, allocated]
      split
      · rfl
      · exact congrArg (Event.vmalloc (answers.vmalloc i) :: ·) ih

theorem vmallocLoop_pages : (vmallocLoop answers i n s).2.pages = s.pages := by
  induction n generalizing i s with
  | zero => rfl
  | succ n ih =>
      rw [vmallocLoop]
      split
      · rfl
      · exact ih

/-- The same addresses are freed: the loop stops where the other one did. -/
theorem vfreeLoop_eq : vfreeLoop (vmallocLoop answers i n s).2 i n = (allocated answers i n).map Event.vfree := by
  induction n generalizing i s with
  | zero => rfl
  | succ n ih =>
      rw [vfreeLoop, vmallocLoop, allocated]
      by_cases hnull : answers.vmalloc i = 0
      · simp [hnull]
      · have hvaddr : (vmallocLoop answers (i + 1) n
            { s with vaddrs := fun j => if j = i then answers.vmalloc i else s.vaddrs j }).2.vaddrs i =
            answers.vmalloc i :=
          (vaddrs_vmallocLoop (Nat.lt_succ_self i)).trans (if_pos rfl)
        simp only [if_neg hnull, hvaddr, ih, List.map_cons]

theorem fragmentCycle_eq (answers : Answers) : fragmentCycle answers =
    (answers.pages.map fun page => .allocPages page 9) ++
      ((answers.pages.reverse.flatMap fun page => [.splitPage page 9, .freePages (page + 2 ^ 8) 8]) ++
        (allocated answers 0 numVmallocs).map Event.vmalloc) ++
      ((answers.pages.reverse.map fun page => .freePages page 8) ++
        (allocated answers 0 numVmallocs).map Event.vfree) := by
  rw [fragmentCycle, fragmentInit, fragmentExit]
  simp only [allocLoop_eq, vfreeLoop_eq, vmallocLoop_events, vmallocLoop_pages, Statics.init, List.append_nil,
    List.append_assoc]

/-! ## What is held

A split block goes back in two halves of 256 pages, at different times. Each frame is in one of the
halves, so it goes back once. -/

/-- A block is its two halves. -/
theorem countP_halves (frame : Nat) (pages : List Nat) : pages.countP (inBlock frame · 9) =
    pages.countP (fun page => inBlock frame (page + 2 ^ 8) 8) + pages.countP (inBlock frame · 8) := by
  induction pages with
  | nil => rfl
  | cons page pages ih =>
      have hhalves : (if inBlock frame page 9 = true then 1 else 0) =
          (if inBlock frame (page + 2 ^ 8) 8 = true then 1 else 0) + if inBlock frame page 8 = true then 1 else 0 := by
        simp only [inBlock, Bool.and_eq_true, decide_eq_true_eq]
        split <;> split <;> split <;> omega
      rw [List.countP_cons, List.countP_cons, List.countP_cons, ih, hhalves]
      omega

theorem countP_allocs : (pages.map fun page => Event.allocPages page 9).countP (takesFrame frame) =
    pages.countP (inBlock frame · 9) := by
  rw [List.countP_map]
  rfl

theorem countP_frees {order : Nat} : (pages.map fun page => Event.freePages page order).countP (givesFrame frame) =
    pages.countP (inBlock frame · order) := by
  rw [List.countP_map]
  rfl

theorem countP_splits : (pages.flatMap fun page => [Event.splitPage page 9, .freePages (page + 2 ^ 8) 8]).countP
    (givesFrame frame) = pages.countP fun page => inBlock frame (page + 2 ^ 8) 8 := by
  induction pages with
  | nil => rfl
  | cons page pages ih =>
      have hpair : [Event.splitPage page 9, .freePages (page + 2 ^ 8) 8].countP (givesFrame frame) =
          if inBlock frame (page + 2 ^ 8) 8 = true then 1 else 0 := by
        rw [List.countP_cons, List.countP_singleton]
        rfl
      rw [List.flatMap_cons, List.countP_append, ih, hpair, List.countP_cons, Nat.add_comm]

/-- None of these calls is about it. -/
theorem countP_none {ps : List Nat} {call : Nat → Event} {p : Event → Bool} (h : ∀ v, p (call v) = false) :
    (ps.map call).countP p = 0 := by
  rw [List.countP_eq_zero]
  intro e he
  obtain ⟨v, -, rfl⟩ := List.mem_map.mp he
  simp [h]

theorem countP_splits_none {p : Event → Bool} (hsplit : ∀ page order, p (.splitPage page order) = false)
    (hfree : ∀ page order, p (.freePages page order) = false) :
    (pages.flatMap fun page => [Event.splitPage page 9, .freePages (page + 2 ^ 8) 8]).countP p = 0 := by
  rw [List.countP_eq_zero]
  intro e he
  obtain ⟨page, -, he⟩ := List.mem_flatMap.mp he
  simp only [List.mem_cons, List.not_mem_nil, or_false] at he
  rcases he with rfl | rfl
  · simp [hsplit]
  · simp [hfree]

theorem fragmentCycle_frames (answers : Answers) (frame : Nat) :
    Settled (takesFrame frame) (givesFrame frame) (fragmentCycle answers) := by
  rw [fragmentCycle_eq, List.append_assoc]
  refine Settled.of_append ?_ ?_ ?_
  · exact countP_none fun _ => rfl
  · simp only [List.countP_append]
    rw [countP_splits_none (fun _ _ => rfl) fun _ _ => rfl, countP_none fun _ => rfl, countP_none fun _ => rfl,
      countP_none fun _ => rfl]
  · simp only [List.countP_append]
    rw [countP_splits, countP_frees, countP_allocs, countP_none fun _ => rfl, countP_none fun _ => rfl,
      List.countP_reverse, List.countP_reverse, countP_halves]
    rfl

theorem fragmentCycle_areas (answers : Answers) (vaddr : Nat) :
    Settled (takesArea vaddr) (givesArea vaddr) (fragmentCycle answers) := by
  rw [fragmentCycle_eq]
  refine Settled.of_append ?_ ?_ ?_
  · simp only [List.countP_append]
    rw [countP_none fun _ => rfl, countP_splits_none (fun _ _ => rfl) fun _ _ => rfl, countP_none fun _ => rfl]
  · simp only [List.countP_append]
    rw [countP_none fun _ => rfl, countP_none fun _ => rfl]
  · simp only [List.countP_append]
    have hareas : ((allocated answers 0 numVmallocs).map Event.vfree).countP (givesArea vaddr) =
        ((allocated answers 0 numVmallocs).map Event.vmalloc).countP (takesArea vaddr) := by
      rw [List.countP_map, List.countP_map]
      rfl
    have hallocs : (answers.pages.map fun page => Event.allocPages page 9).countP (takesArea vaddr) = 0 :=
      countP_none fun _ => rfl
    rw [hareas, hallocs, countP_none fun _ => rfl, countP_splits_none (fun _ _ => rfl) fun _ _ => rfl, Nat.zero_add,
      Nat.zero_add]

theorem fragment2Cycle_eq (answers : Answers) : fragment2Cycle answers =
    (answers.pages.map fun page => .allocPages page 9) ++ answers.pages.reverse.map fun page => .freePages page 9 := by
  rw [fragment2Cycle, fragment2Init, fragment2Exit, allocLoop_eq, Statics.init, List.append_nil]

theorem fragment2Cycle_frames (answers : Answers) (frame : Nat) :
    Settled (takesFrame frame) (givesFrame frame) (fragment2Cycle answers) := by
  rw [fragment2Cycle_eq]
  refine Settled.of_append (countP_none fun _ => rfl) (countP_none fun _ => rfl) ?_
  rw [countP_frees, countP_allocs, List.countP_reverse]

theorem fragment2Cycle_areas (answers : Answers) (vaddr : Nat) :
    Settled (takesArea vaddr) (givesArea vaddr) (fragment2Cycle answers) := by
  rw [fragment2Cycle_eq]
  refine Settled.of_append (countP_none fun _ => rfl) (countP_none fun _ => rfl) ?_
  rw [countP_none fun _ => rfl, countP_none fun _ => rfl]

inductive Cycle where
  | fragment (answers : Answers)
  | fragment2 (answers : Answers)

def Cycle.events : Cycle → List Event
  | .fragment answers => fragmentCycle answers
  | .fragment2 answers => fragment2Cycle answers

/-- **Loading and unloading the modules leaves nothing behind**, however often and whatever the kernel answers: no page
and no area is freed that was not allocated, and all are free in the end. While `fragment.c` is loaded, the first
halves of the blocks are held. -/
theorem modules_settle (cycles : List Cycle) :
    (∀ frame, Settled (takesFrame frame) (givesFrame frame) (cycles.map Cycle.events).flatten) ∧
    (∀ vaddr, Settled (takesArea vaddr) (givesArea vaddr) (cycles.map Cycle.events).flatten) ∧
    ∀ answers frame, (fragmentInit answers Statics.init).1.countP (takesFrame frame) =
      (fragmentInit answers Statics.init).1.countP (givesFrame frame) +
        answers.pages.countP (inBlock frame · 8) := by
  refine ⟨fun frame => Settled.flatten ?_, fun vaddr => Settled.flatten ?_, fun answers frame => ?_⟩
  · rw [List.forall_mem_map]
    rintro (answers | answers) -
    · exact fragmentCycle_frames answers frame
    · exact fragment2Cycle_frames answers frame
  · rw [List.forall_mem_map]
    rintro (answers | answers) -
    · exact fragmentCycle_areas answers vaddr
    · exact fragment2Cycle_areas answers vaddr
  · rw [fragmentInit, allocLoop_eq]
    simp only [vmallocLoop_events, Statics.init, List.append_nil, List.countP_append]
    rw [countP_allocs, countP_splits, countP_splits_none (fun _ _ => rfl) fun _ _ => rfl, countP_none fun _ => rfl,
      countP_none fun _ => rfl, countP_none fun _ => rfl, List.countP_reverse, countP_halves]
    omega

end MmExper.Kernel.Fragment
