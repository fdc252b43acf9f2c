import MmExper.Musl.Alloc
import Mathlib.Logic.Relation
import Mathlib.Data.List.Pairwise

/-!
# Runs

A `World` is the allocator together with the allocations its client holds. The client allocates,
frees what it holds (or `NULL`), and writes inside its payloads and to memory that is none of the
allocator's; nobody else moves the break, and `sbrk` succeeds. `Inv` is what every run keeps.
-/

namespace MmExper.Musl

open Bitwise Lib

/-! ## The client and the kernel

The client writes where it may: in its payloads, and in memory that is not the allocator's. The
kernel gives mappings that overlap nothing, and moves the break for nobody else. -/

/-- An allocation the client holds: the pointer and the size it asked for. -/
structure Alloc where
  ptr : Nat
  size : Nat
  deriving DecidableEq

def Alloc.Has (a : Alloc) (x : Nat) : Prop := a.ptr ≤ x ∧ x < a.ptr + a.size

structure World where
  state : State
  live : List Alloc
  /-- The break when the program started. -/
  brk0 : Nat

/-- Addresses from here on are the kernel's. -/
def userTop : Nat := 2 ^ 56

def Apart (a alen b blen : Nat) : Prop := a + alen ≤ b ∨ b + blen ≤ a

/-- The kernel keeps its grants apart: from each other, from the program's static data, and from the
pages up to the break. -/
structure AddressSpace (brk0 : Nat) (s : State) : Prop where
  brk : s.brk ≤ userTop
  maps : ∀ m ∈ s.maps, m.1 % 4096 = 0 ∧ m.1 + m.2.toNat ≤ userTop
  apart : s.maps.Pairwise fun m n => Apart m.1 m.2.toNat n.1 n.2.toNat
  data : ∀ m ∈ s.maps, Apart m.1 m.2.toNat s.mal State.malSize
  heap : ∀ m ∈ s.maps, Apart m.1 m.2.toNat brk0 (pageUp s.brk - brk0)

/-- Nothing has been allocated yet, and the static data are zero. -/
structure Initial (w : World) : Prop where
  live : w.live = []
  brk0 : w.state.brk = w.brk0
  brk_fits : w.brk0 ≤ userTop
  mal_pos : 0 < w.state.mal
  mal_align : w.state.mal % 8 = 0
  mal_below : w.state.mal + State.malSize ≤ w.brk0
  mal_zero : ∀ x, InMal w.state.mal x → w.state.mem x = 0#64
  heapEnd : w.state.heapEnd = 0
  storedBrk : w.state.storedBrk = 0#64
  mmapStep : w.state.mmapStep = 0#32
  stats : w.state.stats = ⟨0#64, 0#64, 0#64, 0#64, 0#64, 0#64⟩
  maps : w.state.maps = []

/-- The client may write this word: some byte of it is in a payload, or the word is outside `mal`, the
pages up to the break and the mappings. -/
def Writable (w : World) (x : Nat) : Prop :=
  x % 8 = 0 ∧ ((∃ a ∈ w.live, a.ptr < x + 8 ∧ x < a.ptr + a.size) ∨
    ¬InMal w.state.mal x ∧ ¬(w.brk0 ≤ x ∧ x < pageUp w.state.brk) ∧
      ∀ m ∈ w.state.maps, ¬(m.1 ≤ x ∧ x < m.1 + m.2.toNat))

/-- One call of the allocator that returns. -/
inductive Call : World → World → Prop
  | malloc {w : World} {s' : State} {sys : Sys} {fuel p : Nat} (n : Word) (hsys : sys.sbrk = true)
      (hret : muslMalloc sys fuel n w.state = .ret p s') (hspace : AddressSpace w.brk0 s') :
      Call w ⟨s', if p = 0 then w.live else ⟨p, n.toNat⟩ :: w.live, w.brk0⟩
  | free {w : World} {s' : State} (a : Alloc) (ha : a ∈ w.live)
      (hret : muslFree a.ptr w.state = .ret () s') : Call w ⟨s', w.live.erase a, w.brk0⟩
  | freeNull {w : World} {s' : State} (hret : muslFree 0 w.state = .ret () s') :
      Call w ⟨s', w.live, w.brk0⟩

inductive Step : World → World → Prop
  | call {w w' : World} (h : Call w w') : Step w w'
  | write {w : World} (mem : Nat → Word) (h : ∀ x, mem x ≠ w.state.mem x → Writable w x) :
      Step w ⟨{ w.state with mem := mem }, w.live, w.brk0⟩

/-- The worlds a run can be in. -/
def Reachable (w : World) : Prop := ∃ w₀, Initial w₀ ∧ Relation.ReflTransGen Step w₀ w

/-! ## Running calls

A run of calls can be executed, as long as no mapping is asked for. -/

inductive Op where
  | malloc (n : Word)
  | free (p : Nat)

def World.exec (w : World) : Op → Option World
  | .malloc n =>
    match muslMalloc ⟨true, none⟩ 1 n w.state with
    | .ret p s' =>
      if s'.brk ≤ userTop ∧ s'.maps = [] then
        some ⟨s', if p = 0 then w.live else ⟨p, n.toNat⟩ :: w.live, w.brk0⟩
      else none
    | _ => none
  | .free p =>
    match w.live.find? (·.ptr = p) with
    | none => none
    | some a =>
      match muslFree a.ptr w.state with
      | .ret _ s' => some ⟨s', w.live.erase a, w.brk0⟩
      | _ => none

def World.run (w : World) (ops : List Op) : Option World := ops.foldlM World.exec w

/-- What is executed is a request that no mapping is needed for, or a free of what the client holds. -/
theorem World.exec_cases {w w' : World} {op : Op} (h : w.exec op = some w') :
    (∃ n p s', op = .malloc n ∧ muslMalloc ⟨true, none⟩ 1 n w.state = .ret p s' ∧ AddressSpace w.brk0 s' ∧
      w' = ⟨s', if p = 0 then w.live else ⟨p, n.toNat⟩ :: w.live, w.brk0⟩) ∨
    ∃ a s', op = .free a.ptr ∧ a ∈ w.live ∧ muslFree a.ptr w.state = .ret () s' ∧
      w' = ⟨s', w.live.erase a, w.brk0⟩ := by
  cases op with
  | malloc n =>
      simp only [World.exec] at h
      split at h
      · next p s' hret =>
        split at h
        · next hok =>
          cases h
          obtain ⟨hbrk, hmaps⟩ := hok
          exact .inl ⟨n, p, s', rfl, hret, ⟨hbrk, by simp [hmaps], by simp [hmaps], by simp [hmaps],
            by simp [hmaps]⟩, rfl⟩
        · cases h
      · cases h
  | free p =>
      simp only [World.exec] at h
      split at h
      · cases h
      · next a ha =>
        split at h
        · next s' hret =>
          cases h
          obtain rfl : a.ptr = p := by simpa using List.find?_some ha
          exact .inr ⟨a, s', rfl, List.mem_of_find?_eq_some ha, hret, rfl⟩
        · cases h

theorem World.exec_call {w w' : World} {op : Op} (h : w.exec op = some w') : Call w w' := by
  obtain ⟨n, p, s', -, hret, hspace, rfl⟩ | ⟨a, s', -, ha, hret, rfl⟩ := World.exec_cases h
  · exact .malloc n rfl hret hspace
  · exact .free a ha hret

theorem World.run_reachable {w w' : World} {ops : List Op} (hw : Reachable w)
    (h : w.run ops = some w') : Reachable w' := by
  induction ops generalizing w with
  | nil =>
      cases h
      exact hw
  | cons op ops ih =>
      rw [World.run, List.foldlM_cons] at h
      obtain ⟨w₁, h₁, h₂⟩ := Option.bind_eq_some_iff.mp h
      obtain ⟨w₀, h₀, hrun⟩ := hw
      exact ih ⟨w₀, h₀, hrun.tail (.call (World.exec_call h₁))⟩ h₂

/-- A program that has just started: `mal` at `0x10000`, the break at `0x20000`, all memory zero. -/
def start : World where
  state :=
    { mal := 0x10000, storedBrk := 0, mmapStep := 0, heapEnd := 0, brk := 0x20000, maps := []
      calls := [], mem := fun _ => 0, stats := ⟨0, 0, 0, 0, 0, 0⟩ }
  live := []
  brk0 := 0x20000

theorem start_reachable : Reachable start := by
  refine ⟨start, ⟨rfl, rfl, ?_, ?_, rfl, ?_, fun _ _ => rfl, rfl, rfl, rfl, rfl, rfl⟩, .refl⟩
  · decide
  · decide
  · decide

/-- The world after these calls, if the check holds there. -/
theorem start_run (ops : List Op) (check : World → Bool)
    (h : ((start.run ops).any check) = true) :
    ∃ w, start.run ops = some w ∧ Reachable w ∧ check w = true := by
  obtain ⟨w, hw, hc⟩ := (Option.any_eq_true _ _).mp h
  exact ⟨w, hw, World.run_reachable start_reachable hw, hc⟩

/-! ## The invariant

`Inv` ties three things together: the heap stored in memory, the headers of the mappings, and the
allocations of the client, each of which is in one of the two. -/

/-- The mapping holds one allocation, with the header `musl_malloc` writes in front of it. -/
structure Mapped (s : State) (m : Nat × Word) : Prop where
  csize : s.csize (m.1 + 16) = m.2 - 16#64
  psize : s.psize (m.1 + 16) = 16#64
  pages : m.2.toNat % 4096 = 0
  pos : 0 < m.2.toNat

structure InHeap (H : Heap) (a : Alloc) (c : Chunk) : Prop where
  mem : c ∈ H.chunks
  used : c.free = false
  ptr : a.ptr = c.addr + 16
  fits : a.size + 16 ≤ c.size

structure InMap (s : State) (a : Alloc) (m : Nat × Word) : Prop where
  mem : m ∈ s.maps
  ptr : a.ptr = m.1 + 32
  fits : a.size + 32 ≤ m.2.toNat

/-- What every run keeps, with the heap that the state stores. -/
structure Inv (w : World) (H : Heap) : Prop where
  repr : Repr w.state H
  atBreak : AtBreak w.state H
  coalesced : Coalesced H.chunks
  start : H.lo = pageUp w.brk0 + 16
  brk0_le : w.brk0 ≤ w.state.brk
  /-- The break moves by whole pages. -/
  brk_mod : w.state.brk % 4096 = w.brk0 % 4096
  mal_below : w.state.mal + State.malSize ≤ w.brk0
  space : AddressSpace w.brk0 w.state
  mapped : ∀ m ∈ w.state.maps, Mapped w.state m
  /-- Every allocation has its chunk or its mapping. -/
  placed : ∀ a ∈ w.live, (∃ c, InHeap H a c) ∨ ∃ m, InMap w.state a m
  /-- Every chunk in use has its allocation. -/
  owned : ∀ c ∈ H.chunks, c.free = false → ∃ a ∈ w.live, a.ptr = c.addr + 16
  /-- So has every mapping. -/
  ownedMap : ∀ m ∈ w.state.maps, ∃ a ∈ w.live, a.ptr = m.1 + 32
  nodup : (w.live.map Alloc.ptr).Nodup

end MmExper.Musl
