import MmExper.Bitwise
import Mathlib.Logic.Function.Basic

/-!
# The memory and the static data of `musl/oldmalloc.c`

Memory is a function from the address of an aligned 8-byte word to its value, and everything the
allocator owns lives in it: chunk headers, the free-list links inside free chunks, and the static
`mal` with its 64 bins. Keeping `mal` in memory keeps the aliasing the code relies on:
`BIN_TO_CHUNK(i)->next` and `->prev` *are* `mal.bins[i].head` and `.tail`.

A `size_t` is a `Word` and wraps; a pointer is its address, a `Nat`. The kernel's side of the story
(the program break, the mappings, the system calls made so far) is part of the state, since what
the allocator may assume about memory is what the kernel granted. What fresh pages contain is left
open: they hold whatever `mem` held there.

The locks are stubs in the source and have no counterpart here.
-/

namespace MmExper.Musl

open Bitwise

/-! ## Constants

The source's macros, on an x86-64 where `size_t` and `void *` have 64 bits. -/

@[simp] def pageSize : Word := 4096#64
@[simp] def sizeAlign : Word := 32#64
@[simp] def overhead : Word := 16#64
/-- `MMAP_THRESHOLD`, `0x1c00*SIZE_ALIGN`. -/
@[simp] def mmapThreshold : Word := 229376#64
@[simp] def dontcare : Word := 16#64
@[simp] def reclaim : Word := 163840#64
@[simp] def cInuse : Word := 1#64
@[simp] def sizeMax : Word := 0xffffffffffffffff#64
@[simp] def ptrdiffMax : Word := 0x7fffffffffffffff#64
/-- `(void *)-1`, which is also `MAP_FAILED`. -/
@[simp] def mapFailed : Word := -1#64

theorem not_gt_mmapThreshold {v : Word} : ¬v > mmapThreshold ↔ v.toNat ≤ 229376 := by
  rw [gt_iff_lt, BitVec.lt_def, mmapThreshold, BitVec.toNat_ofNat]
  omega

/-! ## State

`Vars` is what the C variables and the kernel hold, `State` adds the memory. A call that changes
neither shows that by leaving the record alone. -/

structure Stats where
  allocatedBytes : Word
  freeBytes : Word
  heapBytes : Word
  freeBlockBytes : Word
  mmapBytes : Word
  reclaimedBytes : Word
  deriving DecidableEq

/-- A system call that changes memory, with the kernel's answer where it has one. -/
inductive Syscall where
  | sbrk (n : Word) (granted : Bool)
  | mmap (len : Word) (base : Option Nat)
  | munmap (base : Nat) (len : Word)
  | madvise (a : Nat) (len : Word)
  deriving DecidableEq

/-- What the kernel answers during one call of the allocator, which asks for each at most once. -/
structure Sys where
  /-- Does `sbrk(n)` succeed? -/
  sbrk : Bool
  /-- Where `mmap` puts the mapping, if anywhere. -/
  mmap : Option Nat

/-- What only system calls and the growth of the heap change: the static variables outside `mal` and
`stats`, and the kernel's bookkeeping. -/
structure Vars where
  /-- Where the linker put `mal`. -/
  mal : Nat
  /-- `stored_brk` of `__expand_heap`. -/
  storedBrk : Word
  /-- `mmap_step` of `__expand_heap`. -/
  mmapStep : BitVec 32
  /-- `end` of `expand_heap`. -/
  heapEnd : Nat
  /-- The kernel's program break. -/
  brk : Nat
  /-- The mappings made by `mmap` and not undone by `munmap`. -/
  maps : List (Nat × Word)
  /-- The system calls made so far, the latest first. -/
  calls : List Syscall

structure State extends Vars where
  mem : Nat → Word
  stats : Stats

/-- How a call of the allocator ends: it returns, it calls `crash()`, or it is still looping when
the fuel is used up. -/
inductive Outcome (α : Type) where
  | ret (val : α) (s : State)
  | crash (s : State)
  | spin

namespace State

variable (s : State)

/-! ## Words, and the fields of a `struct chunk`

`psize` and `csize` are the size words with the flag in the lowest bit; `next` and `prev` are used
only while the chunk is on a list. The masks are the source's `& -2`. -/

def store (a : Nat) (v : Word) : State := { s with mem := Function.update s.mem a v }

def psize (c : Nat) : Word := s.mem c
def csize (c : Nat) : Word := s.mem (c + 8)
def next (c : Nat) : Nat := (s.mem (c + 16)).toNat
def prev (c : Nat) : Nat := (s.mem (c + 24)).toNat

def setPsize (c : Nat) (v : Word) : State := s.store c v
def setCsize (c : Nat) (v : Word) : State := s.store (c + 8) v
def setNext (c p : Nat) : State := s.store (c + 16) (BitVec.ofNat 64 p)
def setPrev (c p : Nat) : State := s.store (c + 24) (BitVec.ofNat 64 p)

def chunkSize (c : Nat) : Word := s.csize c &&& -2#64
def chunkPsize (c : Nat) : Word := s.psize c &&& -2#64
def prevChunk (c : Nat) : Nat := c - (s.chunkPsize c).toNat
def nextChunk (c : Nat) : Nat := c + (s.chunkSize c).toNat
def isMmapped (c : Nat) : Bool := s.csize c &&& cInuse = 0#64

/-! ## The static `mal`

`binmap` comes first; `bins[i]` is 24 bytes long: an 8-byte lock, `head` and `tail`. -/

/-- `sizeof(mal)`: `binmap`, 64 bins and `split_merge_lock`. -/
def malSize : Nat := 8 + 64 * 24 + 8

def binmap : Word := s.mem s.mal
def setBinmap (v : Word) : State := s.store s.mal v

/-- `mal.bins[i].head`. -/
def head (i : Nat) : Nat := (s.mem (s.mal + 24 * i + 16)).toNat
/-- `mal.bins[i].tail`. -/
def tail (i : Nat) : Nat := (s.mem (s.mal + 24 * i + 24)).toNat
def setHead (i : Nat) (p : Nat) : State := s.store (s.mal + 24 * i + 16) (BitVec.ofNat 64 p)
def setTail (i : Nat) (p : Nat) : State := s.store (s.mal + 24 * i + 24) (BitVec.ofNat 64 p)

/-- `BIN_TO_CHUNK(i)`: `OVERHEAD` bytes below `&mal.bins[i].head`. -/
def binToChunk (i : Nat) : Nat := s.mal + 24 * i + 16 - 16

/-! ## Statistics

The source's updates of `stats`. A counter is a word and wraps; that none does in a run is shown in
`Accounting.lean`. -/

def addAllocated (n : Word) : State :=
  { s with stats := { s.stats with allocatedBytes := s.stats.allocatedBytes + n } }
def subAllocated (n : Word) : State :=
  { s with stats := { s.stats with allocatedBytes := s.stats.allocatedBytes - n } }
def addFree (n : Word) : State :=
  { s with stats := { s.stats with
      freeBlockBytes := s.stats.freeBlockBytes + n, freeBytes := s.stats.freeBytes + n } }
def subFree (n : Word) : State :=
  { s with stats := { s.stats with
      freeBlockBytes := s.stats.freeBlockBytes - n, freeBytes := s.stats.freeBytes - n } }
def addMmap (n : Word) : State :=
  { s with stats := { s.stats with mmapBytes := s.stats.mmapBytes + n } }
def subMmap (n : Word) : State :=
  { s with stats := { s.stats with mmapBytes := s.stats.mmapBytes - n } }
def addHeap (n : Word) : State :=
  { s with stats := { s.stats with heapBytes := s.stats.heapBytes + n } }
def addReclaimed (n : Word) : State :=
  { s with stats := { s.stats with reclaimedBytes := s.stats.reclaimedBytes + n } }

/-! ## System calls

Those that change something are noted in `calls` with the kernel's answer, so that a theorem can say
which ones a function made. -/

def sbrk0 : Word := BitVec.ofNat 64 s.brk

/-- `sbrk(n)`: the old break, or `(void *)-1`. -/
def sbrk (sys : Sys) (n : Word) : Word × State :=
  if sys.sbrk then
    (BitVec.ofNat 64 s.brk,
      { s with brk := s.brk + n.toNat, calls := .sbrk n true :: s.calls })
  else (mapFailed, { s with calls := .sbrk n false :: s.calls })

/-- `mmap(0, len, PROT_READ|PROT_WRITE, MAP_PRIVATE|MAP_ANONYMOUS, -1, 0)`. -/
def mmap (sys : Sys) (len : Word) : Word × State :=
  match sys.mmap with
  | some base =>
    (BitVec.ofNat 64 base,
      { s with maps := (base, len) :: s.maps, calls := .mmap len (some base) :: s.calls })
  | none => (mapFailed, { s with calls := .mmap len none :: s.calls })

/-- Whatever the answer, `mmap` has been asked; only the mappings change besides. -/
@[simp] theorem mmap_calls (sys : Sys) (len : Word) :
    (s.mmap sys len).2.calls = .mmap len sys.mmap :: s.calls := by
  rw [mmap]
  cases sys.mmap <;> rfl

@[simp] theorem mmap_stats (sys : Sys) (len : Word) : (s.mmap sys len).2.stats = s.stats := by
  rw [mmap]
  cases sys.mmap <;> rfl

@[simp] theorem mmap_brk (sys : Sys) (len : Word) : (s.mmap sys len).2.brk = s.brk := by
  rw [mmap]
  cases sys.mmap <;> rfl

@[simp] theorem mmap_storedBrk (sys : Sys) (len : Word) :
    (s.mmap sys len).2.storedBrk = s.storedBrk := by
  rw [mmap]
  cases sys.mmap <;> rfl

def munmap (base : Nat) (len : Word) : State :=
  { s with maps := s.maps.erase (base, len), calls := .munmap base len :: s.calls }

/-- `madvise(a, len, MADV_DONTNEED)`: the range reads as zeroes afterwards. -/
def madvise (a : Nat) (len : Word) : State :=
  { s with
    mem := fun x => if a ≤ x ∧ x < a + len.toNat then 0#64 else s.mem x
    calls := .madvise a len :: s.calls }

end State

def memToChunk (p : Nat) : Nat := p - 16
def chunkToMem (c : Nat) : Nat := c + 16

end MmExper.Musl
