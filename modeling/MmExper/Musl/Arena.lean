import MmExper.Lib.Joining
import MmExper.Musl.Alloc

/-!
# The allocator without its memory

What `musl_malloc` and `musl_free` are for, as a program on the list of chunks and the 64 queues of free
ones: a request is served by the chunk at the head of the first queue from its class on, or by a new
chunk at the end, and what it does not need is cut off; a freed chunk is joined with its free neighbours
and queued behind the others of its class. There are no words, links or flags here. `Heap.arena` forgets
everything else of a heap; the lemmas below say what the operations do to the arena of a heap, in the
terms in which the code's lemmas speak of it.
-/

namespace MmExper.Musl

open Lib

/-- The chunks in the order of addresses, and the order in which free ones are handed out. -/
structure Arena where
  /-- Where the first chunk is, or will be. -/
  lo : Nat
  /-- Where the last one ends. -/
  hi : Nat
  chunks : List Chunk
  queues : Nat → List Nat

def Chunk.join (c d : Chunk) : Chunk := ⟨c.addr, c.size + d.size, true⟩

def Chunk.freed (c : Chunk) : Chunk := { c with free := true }

def enqueue (queues : Nat → List Nat) (f : Chunk) : Nat → List Nat :=
  Function.update queues f.bin (queues f.bin ++ [f.addr])

namespace Arena

def nothing (brk0 : Nat) : Arena := ⟨pageUp brk0 + 16, pageUp brk0 + 16, [], fun _ => []⟩

/-- The chunk that a request of class `i` is served with, if one is waiting. -/
def serve (A : Arena) (i : Nat) : Option Nat :=
  (List.range 64).findSome? fun j => if i ≤ j then (A.queues j).head? else none

def take (A : Arena) (a : Nat) : Arena :=
  { A with
    chunks := A.chunks.map fun c => if c.addr = a then c.used else c
    queues := without A.queues [a] }

def grow (A : Arena) (v : Nat) : Arena :=
  let n := if A.chunks = [] then pageUp (v + 32) - 32 else pageUp (v + 32)
  { A with hi := A.hi + n, chunks := A.chunks ++ [⟨A.hi, n, false⟩] }

/-- Cut off and queue what the chunk at `a` has beyond `v` bytes. -/
def cut (A : Arena) (a v : Nat) : Arena :=
  match A.chunks.find? fun c => decide (c.addr ≤ a ∧ a < c.addr + c.size) with
  | none => A
  | some c =>
    if v < c.size then
      { A with
        chunks := A.chunks.flatMap fun d => if d.addr = a then [d.kept v, d.rest v] else [d]
        queues := enqueue A.queues (c.rest v) }
    else A

/-- Serve a request of `v` bytes: the chunk handed out, and what is left. -/
def malloc (A : Arena) (v : Word) : Nat × Arena :=
  match A.serve (binIndexUp v) with
  | some a => (a, (A.take a).cut a v.toNat)
  | none => (A.hi, (A.grow v.toNat).cut A.hi v.toNat)

def join (cs : List Chunk) (a : Nat) : List Chunk :=
  joinRuns Chunk.free Chunk.join (cs.map fun c => if c.addr = a then c.freed else c)

/-- Give the chunk at `a` back. What its union swallows leaves the queues. -/
def free (A : Arena) (a : Nat) : Arena :=
  match (join A.chunks a).find? fun c => decide (c.addr ≤ a ∧ a < c.addr + c.size) with
  | none => A
  | some f =>
    { A with
      chunks := join A.chunks a
      queues := enqueue (fun i => (A.queues i).filter fun x => !decide (f.addr ≤ x ∧ x < f.addr + f.size)) f }

/-- Before the first growth nothing is waiting. -/
@[simp] theorem nothing_queues (brk0 i : Nat) : (nothing brk0).queues i = [] := rfl

section Serve

variable {A : Arena} {a i j : Nat} {as : List Nat}

/-- The head of the first queue that is not empty. -/
theorem serve_eq_some (hj : j < 64) (hij : i ≤ j) (hq : A.queues j = a :: as)
    (hlow : ∀ k < j, i ≤ k → A.queues k = []) : A.serve i = some a := by
  have hsplit : List.range 64 = List.range j ++ j :: List.range' (j + 1) (64 - j - 1) := by
    rw [← List.range'_succ, show 64 - j - 1 + 1 = 64 - j by omega, List.range_eq_range',
      List.range_eq_range']
    have happ := List.range'_append_1 (s := 0) (m := j) (n := 64 - j)
    rw [Nat.zero_add] at happ
    rw [happ, show j + (64 - j) = 64 by omega]
  have hnone : (List.range j).findSome? (fun k => if i ≤ k then (A.queues k).head? else none) = none := by
    apply List.findSome?_eq_none_iff.mpr
    intro k hk
    split
    · next hik => rw [hlow k (List.mem_range.mp hk) hik, List.head?_nil]
    · rfl
  rw [serve, hsplit, List.findSome?_append, hnone, Option.none_or, List.findSome?_cons, if_pos hij, hq]
  rfl

theorem serve_eq_none_iff : A.serve i = none ↔ ∀ j < 64, i ≤ j → A.queues j = [] := by
  rw [serve, List.findSome?_eq_none_iff]
  constructor
  · intro h j hj hij
    have := h j (List.mem_range.mpr hj)
    rwa [if_pos hij, List.head?_eq_none_iff] at this
  · intro h j hj
    split
    · next hij => rw [h j (List.mem_range.mp hj) hij, List.head?_nil]
    · rfl

end Serve

end Arena

/-! ## The arena of a heap

A heap without its address bounds and proofs. -/

def Heap.arena (H : Heap) : Arena := ⟨H.lo, H.hi, H.chunks, H.bins⟩

theorem joins_chunk : Joins Chunk.free Chunk.join where
  keeps := fun _ _ _ _ => rfl
  assoc := by
    intro a b c _ _ _
    simp only [Chunk.join, Nat.add_assoc]

theorem Coalesced.alternating {cs : List Chunk} (h : Coalesced cs) : Alternating Chunk.free cs := h

variable {H H' : Heap} {c : Chunk} {l r pre post : List Chunk} {v : Nat}

namespace Heap

theorem arena_take (hch : H.chunks = l ++ c :: r) (hlo : H'.lo = H.lo) (hhi : H'.hi = H.hi)
    (hch' : H'.chunks = l ++ c.used :: r) (hb : H'.bins = without H.bins [c.addr]) :
    H'.arena = H.arena.take c.addr := by
  have ht := H.tiled
  rw [hch] at ht
  simp only [arena, Arena.take, Arena.mk.injEq]
  refine ⟨hlo, hhi, ?_, hb⟩
  rw [hch', hch]
  exact (ht.map_start Chunk.used).symm

/-- The chunk at an address is found. -/
theorem find?_addr (hc : c ∈ H.chunks) :
    H.chunks.find? (fun d => decide (d.addr ≤ c.addr ∧ c.addr < d.addr + d.size)) = some c := by
  have := (H.tiled.bounds hc).2.1
  exact H.tiled.find?_eq hc (Nat.le_refl _) (by omega)

theorem arena_cut_eq (hc : c ∈ H.chunks) (hle : c.size ≤ v) : H.arena.cut c.addr v = H.arena := by
  have hfind := find?_addr hc
  simp only [Arena.cut, arena]
  rw [hfind]
  simp only []
  rw [if_neg (by omega)]

theorem arena_cut (hch : H.chunks = l ++ c :: r) (hlt : v < c.size) (hlo : H'.lo = H.lo)
    (hhi : H'.hi = H.hi) (hch' : H'.chunks = l ++ c.kept v :: c.rest v :: r)
    (hb : H'.bins = Function.update H.bins (c.rest v).bin (H.bins (c.rest v).bin ++ [(c.rest v).addr])) :
    H'.arena = H.arena.cut c.addr v := by
  have ht := H.tiled
  have hfind := find?_addr (H := H) (c := c) (by simp [hch])
  rw [hch] at ht
  simp only [Arena.cut, arena]
  rw [hfind]
  simp only []
  rw [if_pos hlt]
  simp only [Arena.mk.injEq]
  refine ⟨hlo, hhi, ?_, hb⟩
  rw [hch', hch]
  exact (ht.flatMap_start fun d => [d.kept v, d.rest v]).symm

/-- A chunk at the end, as long as growing makes it. -/
theorem arena_grow (hlo : H'.lo = H.lo) (haddr : c.addr = H.hi) (hf : c.free = false)
    (hsize : c.size = if H.chunks = [] then pageUp (v + 32) - 32 else pageUp (v + 32))
    (hch : H'.chunks = H.chunks ++ [c]) (hb : H'.bins = H.bins) : H'.arena = H.arena.grow v := by
  have hend : H'.hi = H.hi + c.size := by
    have ht := H'.tiled
    rw [hch] at ht
    have hlast : c.addr + c.size = H'.hi := (tiled_split.mp ht).2.2
    omega
  have hc : c = ⟨H.hi, if H.chunks = [] then pageUp (v + 32) - 32 else pageUp (v + 32), false⟩ := by
    rw [← hsize, ← haddr, ← hf]
  simp only [arena, Arena.grow, Arena.mk.injEq]
  exact ⟨hlo, hsize ▸ hend, hc ▸ hch, hb⟩

section Free

variable (hch : H.chunks = l ++ (pre ++ c :: (post ++ r))) (ha : Around l pre post r)
  (hco : Coalesced H.chunks)
include hch ha hco

/-- The freed chunk and its free neighbours are one run. -/
theorem join_around : Arena.join H.chunks c.addr = l ++ merged pre c post :: r := by
  have ht := H.tiled
  have hflat : l ++ (pre ++ c :: (post ++ r)) = (l ++ pre) ++ c :: (post ++ r) := by simp
  rw [hch] at ht hco
  have ht' := ht
  rw [hflat] at ht'
  obtain ⟨hl, hrest, -⟩ := List.isChain_append.mp hco
  have hr : Alternating Chunk.free r := by
    have h₁ := (List.isChain_append.mp hrest).2.1
    exact (List.isChain_append.mp (List.isChain_cons.mp h₁).2).2.1
  have hmap := ht'.map_start Chunk.freed
  rw [Arena.join, hch, hflat, hmap]
  rw [show (l ++ pre) ++ c.freed :: (post ++ r) = l ++ ((pre ++ c.freed :: post) ++ r) by simp]
  -- The pass leaves what is before and behind alone: no two neighbours there are free.
  rw [joinRuns_append_left ha.last, joinRuns_append_right ha.next,
    joinRuns_of_alternating (show Alternating Chunk.free l from hl), joinRuns_of_alternating hr]
  congr 1
  have haddr : ∀ p, pre = [p] → c.addr = p.addr + p.size := by
    rintro p rfl
    exact Tiled.next_start (l := l) (r := post ++ r) (by simpa using ht)
  -- In the middle there are up to three chunks in a row, all of them free now.
  have hone : joinRuns Chunk.free Chunk.join (pre ++ c.freed :: post) = [merged pre c post] := by
    rcases ha.below with rfl | ⟨p, rfl, hp⟩ <;> rcases ha.above with rfl | ⟨n, rfl, hn⟩
    · simp [joinRuns, joinCons, merged, Chunk.freed]
    · simp [joinRuns, joinCons, merged, Chunk.freed, Chunk.join, hn]
    · have := haddr p rfl
      simp [joinRuns, joinCons, merged, Chunk.freed, Chunk.join, hp]
      omega
    · have := haddr p rfl
      simp [joinRuns, joinCons, merged, Chunk.freed, Chunk.join, hp, hn]
      omega
  rw [hone]
  rfl

omit ha hco in
/-- Of the queued chunks the union swallows the two neighbours. -/
theorem swallowed (hcf : c.free = false) {i x : Nat} (hx : x ∈ H.bins i) :
    (merged pre c post).addr ≤ x ∧ x < (merged pre c post).addr + (merged pre c post).size ↔
      x ∈ (pre ++ post).map Chunk.addr := by
  obtain ⟨d, hd, rfl, hdf, -⟩ := (H.mem_bins i x).mp hx
  have ht := H.tiled
  rw [hch] at ht hd
  obtain ⟨a, hl, hmid⟩ := tiled_append.mp ht
  rw [show pre ++ c :: (post ++ r) = (pre ++ c :: post) ++ r by simp] at hmid
  obtain ⟨b, hm, hr⟩ := tiled_append.mp hmid
  have hsum := hm.sum_size
  have hpre : a + (pre.map Chunk.size).sum = c.addr := (tiled_split.mp hm).1.sum_size
  have haddr : (merged pre c post).addr = a := by
    show c.addr - (pre.map Chunk.size).sum = a
    omega
  have hend : (merged pre c post).addr + (merged pre c post).size = b := by
    rw [haddr]
    exact hsum
  rw [hend, haddr]
  constructor
  · -- A queued chunk inside the union is one of the three, and not the one that was freed.
    rintro ⟨h₁, h₂⟩
    have hmem : d ∈ pre ++ c :: post := by
      rcases List.mem_append.mp hd with hd | hd
      · have := hl.bounds hd
        omega
      rw [show pre ++ c :: (post ++ r) = (pre ++ c :: post) ++ r by simp] at hd
      rcases List.mem_append.mp hd with hd | hd
      · exact hd
      · have := hr.bounds hd
        omega
    have hdc : d ≠ c := by
      rintro rfl
      simp [hcf] at hdf
    refine List.mem_map.mpr ⟨d, ?_, rfl⟩
    simpa [hdc] using hmem
  · intro hmem
    obtain ⟨e, he, hed⟩ := List.mem_map.mp hmem
    have hem : e ∈ pre ++ c :: post := by
      simp only [List.mem_append, List.mem_cons] at he ⊢
      tauto
    have := hm.bounds hem
    omega

theorem arena_free (hcf : c.free = false) (hlo : H'.lo = H.lo) (hhi : H'.hi = H.hi)
    (hch' : H'.chunks = l ++ merged pre c post :: r) (hb : H'.bins = H.binsFreed pre c post) :
    H'.arena = H.arena.free c.addr := by
  have hjoin := join_around hch ha hco
  have hf : merged pre c post ∈ H'.chunks := by simp [hch']
  have hin : (merged pre c post).addr ≤ c.addr ∧
      c.addr < (merged pre c post).addr + (merged pre c post).size := by
    have ht := H.tiled
    rw [hch, ← List.append_assoc] at ht
    obtain ⟨a, -, hpre⟩ := tiled_append.mp (tiled_split.mp ht).1
    have hsum := hpre.sum_size
    have hpos := (tiled_split.mp ht).2.1
    have haddr : (merged pre c post).addr = c.addr - (pre.map Chunk.size).sum := rfl
    have hsize : (merged pre c post).size = (pre.map Chunk.size).sum + (c.size + (post.map Chunk.size).sum) := by
      simp [merged]
    omega
  -- The union is found as the chunk that has the freed address.
  have hfind := H'.tiled.find?_eq hf hin.1 hin.2
  rw [hch'] at hfind
  have hqueues : (fun i => (H.bins i).filter fun x =>
      !decide ((merged pre c post).addr ≤ x ∧ x < (merged pre c post).addr + (merged pre c post).size)) =
      without H.bins ((pre ++ post).map Chunk.addr) := by
    funext i
    apply List.filter_congr
    intro x hx
    rw [← decide_not, decide_eq_decide, swallowed hch hcf hx]
  simp only [Arena.free, arena]
  rw [hjoin, hfind]
  simp only [hqueues, Arena.mk.injEq]
  refine ⟨hlo, hhi, hch', ?_⟩
  rw [hb]
  rfl

end Free

end Heap

end MmExper.Musl
