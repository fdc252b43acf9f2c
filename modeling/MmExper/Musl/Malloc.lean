import MmExper.Musl.State

/-!
# The functions of `musl/oldmalloc.c`

One definition for each function of the source, in the order of the source, as a map on `State`.
`musl_malloc` and `__bin_chunk` are long and are cut into the pieces their comments and blank lines
mark. The two that can fail to return (`crash()`, the bin search) have an `Outcome`; all others are
total.
-/

namespace MmExper.Musl

open Bitwise

/-! ## Bins

`bin_index` files a chunk by its size, `bin_index_up` finds where a search for a size starts. -/

/-- `lock_bin()`: the lock is a stub, the initialisation of the bin is not. -/
def lockBin (i : Nat) (s : State) : State :=
  if s.head i = 0 then (s.setHead i (s.binToChunk i)).setTail i (s.binToChunk i) else s

def firstSet (x : Word) : Nat := (BitVec.ctz x).toNat

def binTab : List Nat := [
              32,33,34,35,36,36,37,37,38,38,39,39,
  40,40,40,40,41,41,41,41,42,42,42,42,43,43,43,43,
  44,44,44,44,44,44,44,44,45,45,45,45,45,45,45,45,
  46,46,46,46,46,46,46,46,47,47,47,47,47,47,47,47]

def binIndex (x : Word) : Nat :=
  let x := x / sizeAlign - 1#64
  if x ≤ 32#64 then x.toNat
  else if x < 512#64 then binTab.getD (x / 8#64 - 4#64).toNat 0
  else if x > 0x1c00#64 then 63
  else binTab.getD (x / 128#64 - 4#64).toNat 0 + 16

def binIndexUp (x : Word) : Nat :=
  let x := x / sizeAlign - 1#64
  if x ≤ 32#64 then x.toNat
  else
    let x := x - 1#64
    if x < 512#64 then binTab.getD (x / 8#64 - 4#64).toNat 0 + 1
    else binTab.getD (x / 128#64 - 4#64).toNat 0 + 17

/-! ## Growing the heap

`__expand_heap` moves the break, or maps pages if the guard says that the break would overflow.
`expand_heap` lays a chunk with its sentinels over what it got. -/

/-- The second half of `__expand_heap()`, which asks `mmap` when the break cannot be moved. `pn` is
what `*pn` holds when it is left alone. -/
def _expandHeapMmap (sys : Sys) (n pn : Word) (s : State) : Nat × Word × State :=
  let min := pageSize <<< (s.mmapStep.toNat / 2)
  let n := if n < min then min else n
  let area := (s.mmap sys n).1
  let s := (s.mmap sys n).2
  let s := s.addMmap n
  if area = mapFailed then (0, pn, s)
  else (area.toNat, n, { s with mmapStep := s.mmapStep + 1 })

/-- The break is only asked for once. -/
def fetchBrk (s : State) : State :=
  if s.storedBrk = 0#64 then { s with storedBrk := align64Up s.sbrk0 pageSize } else s

def wouldOverflow (n : Word) (s : State) : Bool := n ≥ sizeMax - s.storedBrk

/-- `__expand_heap()`: the returned pointer (0 for `NULL`) and the new `*pn`. -/
def _expandHeap (sys : Sys) (pn : Word) (s : State) : Nat × Word × State :=
  if pn > sizeMax / 2#64 - pageSize then (0, pn, s)
  else
    let n := align64Up pn pageSize
    let s := fetchBrk s
    if !wouldOverflow n s then
      -- `sbrk(n) >= 0` compares pointers, so the error value is as good as any other.
      if (s.sbrk sys n).1 ≥ 0#64 then
        let s := (s.sbrk sys n).2
        let s := { s with storedBrk := s.storedBrk + n }
        let s := s.addHeap n
        ((s.storedBrk - n).toNat, n, s)
      else _expandHeapMmap sys n pn (s.sbrk sys n).2
    else _expandHeapMmap sys n pn s

/-- The end of `expand_heap()`: record the new end, write the sentinel there and the header of the
new chunk below `p`. -/
def layChunk (p : Nat) (n : Word) (s : State) : Nat × State :=
  let s := { s with heapEnd := p + n.toNat }
  let w := memToChunk s.heapEnd
  let s := s.setPsize w (n ||| cInuse)
  let s := s.setCsize w (0#64 ||| cInuse)
  let w := memToChunk p
  (w, s.setCsize w (n ||| cInuse))

/-- `expand_heap()`: the new chunk (0 for `NULL`). -/
def expandHeap (sys : Sys) (n : Word) (s : State) : Nat × State :=
  let r := _expandHeap sys (n + sizeAlign) s
  let p := r.1
  let n := r.2.1
  let s := r.2.2
  if p = 0 then (0, s)
  else if p ≠ s.heapEnd then
    -- Not just expanding existing space: a new sentinel below the allocated space.
    let n := n - sizeAlign
    let p := p + 32
    let s := s.setPsize (memToChunk p) (0#64 ||| cInuse)
    layChunk p n s
  else layChunk p n s

/-- `adjust_size()`: the adjusted size, or nothing for -1. -/
def adjustSize (n : Word) : Option Word :=
  if n - 1#64 > ptrdiffMax - sizeAlign - pageSize then
    if n ≠ 0#64 then none else some sizeAlign
  else some (align64Up (n + overhead) sizeAlign)

/-! ## Free lists

The lists are circular, with the bin itself as the sentinel. `trim` cuts the tail off a chunk and
puts it on one. -/

def unbin (c : Nat) (i : Nat) (s : State) : State :=
  let s := if s.prev c = s.next c then s.setBinmap (s.binmap &&& ~~~(1#64 <<< i)) else s
  let s := s.setNext (s.prev c) (s.next c)
  let s := s.setPrev (s.next c) (s.prev c)
  let s := s.setCsize c (s.csize c ||| cInuse)
  let s := s.setPsize (s.nextChunk c) (s.psize (s.nextChunk c) ||| cInuse)
  s.subFree (s.chunkSize c)

def binChunk (self : Nat) (i : Nat) (s : State) : State :=
  let s := s.setNext self (s.binToChunk i)
  let s := s.setPrev self (s.tail i)
  let s := s.setPrev (s.next self) self
  let s := s.setNext (s.prev self) self
  let s := if s.prev self = s.binToChunk i then s.setBinmap (s.binmap ||| (1#64 <<< i)) else s
  s.addFree (s.chunkSize self)

/-- The four assignments of `trim()` that cut a chunk of size `n1` in two. -/
def splitTags (self split next : Nat) (n n1 : Word) (s : State) : State :=
  let s := s.setPsize split (n ||| cInuse)
  let s := s.setCsize split (n1 - n)
  let s := s.setPsize next (n1 - n)
  s.setCsize self (n ||| cInuse)

/-- `trim()`: give the tail of a chunk back when more than `DONTCARE` bytes are left. -/
def trim (self : Nat) (n : Word) (s : State) : State :=
  let n1 := s.chunkSize self
  if n1 - n ≤ dontcare then s
  else
    let next := s.nextChunk self
    let split := self + n.toNat
    let s := splitTags self split next n n1 s
    let i := binIndex (n1 - n)
    binChunk split i (lockBin i s)

/-! ## `musl_malloc`

The source's `for (;;)` is `searchBins`, with fuel for the rounds. Its three ends (a chunk found, no
bin left, too little fuel) are told apart, so that running out of fuel never passes for a result. -/

/-- What the loop over `mask` leaves behind: the bins it locked, in order, and the chunk it
unbinned, if it did not run to `mask == 0`. -/
structure Search where
  visited : List Nat
  found : Option Nat
  state : State

/-- The loop over `mask`. Its step expression `clear_lowest_bit(mask)` computes a value nobody
stores, so the next iteration sees the same mask. -/
def searchBins : Nat → Word → State → Option Search
  | 0, _, _ => none
  | fuel + 1, mask, s =>
    if mask = 0#64 then some ⟨[], none, s⟩
    else
      let j := firstSet mask
      let s := lockBin j s
      let c := s.head j
      if c ≠ s.binToChunk j then some ⟨[j], some c, unbin c j s⟩
      else (searchBins fuel mask s).map fun r => { r with visited := j :: r.visited }

def mallocMmap (sys : Sys) (n : Word) (s : State) : Outcome Nat :=
  let len := align64Up (n + overhead) pageSize
  let base := (s.mmap sys len).1
  let s := (s.mmap sys len).2
  if base = mapFailed then .ret 0 s
  else
    let c := base.toNat + 32 - 16
    let s := s.setCsize c (len - (sizeAlign - overhead))
    let s := s.setPsize c (sizeAlign - overhead)
    let s := s.addMmap len
    let s := s.addAllocated (s.chunkSize c)
    .ret (chunkToMem c) s

/-- The end of `musl_malloc()` outside the fast path: trim the chunk and hand it out. -/
def mallocTrim (c : Nat) (n : Word) (s : State) : Outcome Nat :=
  let s := trim c n s
  let s := s.addAllocated (s.chunkSize c)
  .ret (chunkToMem c) s

/-- The slow path: search the bins from `i` on, then grow the heap. -/
def mallocSlow (sys : Sys) (fuel : Nat) (n : Word) (i : Nat) (s : State) : Outcome Nat :=
  match searchBins fuel (maskHighBits s.binmap i) s with
  | none => .spin
  | some ⟨_, some c, s⟩ => mallocTrim c n s
  | some ⟨_, none, s⟩ =>
    let r := expandHeap sys n s
    if r.1 = 0 then .ret 0 r.2 else mallocTrim r.1 n r.2

/-- `musl_malloc()`; `fuel` bounds the iterations of the bin search. -/
def muslMalloc (sys : Sys) (fuel : Nat) (n : Word) (s : State) : Outcome Nat :=
  match adjustSize n with
  | none => .ret 0 s
  | some n =>
    if n > mmapThreshold then mallocMmap sys n s
    else
      let i := binIndexUp n
      if i < 63 ∧ isBitSet s.binmap i then
        let s := lockBin i s
        let c := s.head i
        if c ≠ s.binToChunk i ∧ s.chunkSize c - n ≤ dontcare then
          let s := unbin c i s
          let s := s.addAllocated (s.chunkSize c)
          .ret (chunkToMem c) s
        else mallocSlow sys fuel n i s
      else mallocSlow sys fuel n i s

/-! ## `musl_free`

`__bin_chunk` in its three parts: the merge with the neighbours, the new list entry, and the pages
that go back to the kernel. -/

/-- Merging with a free chunk below: the merged chunk, its size so far. -/
def mergePrev (self : Nat) (size psize : Word) (s : State) : Nat × Word × State :=
  if psize > 0#64 then
    let i := binIndex psize
    let s := lockBin i s
    if s.psize self &&& cInuse ≠ 0#64 then (self, size, s)
    else
      let prev := s.prevChunk self
      (prev, size + psize, unbin prev i s)
  else (self, size, s)

/-- Merging with a free chunk above: the chunk after it, the size so far. -/
def mergeNext (next : Nat) (size nsize : Word) (s : State) : Nat × Word × State :=
  if nsize > 0#64 then
    let i := binIndex nsize
    let s := lockBin i s
    if s.csize next &&& cInuse ≠ 0#64 then (next, size, s)
    else
      let s := unbin next i s
      (s.nextChunk next, size + nsize, s)
  else (next, size, s)

/-- `MADV_DONTNEED` for the whole pages inside a large free chunk. -/
def reclaimPages (self next : Nat) (size osize : Word) (s : State) : State :=
  if size > reclaim ∧ !shareHighestBit size (size - osize) then
    let a := align64Up (BitVec.ofNat 64 self + sizeAlign) pageSize
    let b := align64 (BitVec.ofNat 64 next - sizeAlign) pageSize
    (s.addReclaimed (b - a)).madvise a.toNat (b - a)
  else s

def _binChunk (self : Nat) (s : State) : Outcome Unit :=
  let next := s.nextChunk self
  let s := s.subAllocated (s.chunkSize self)
  -- Crash on corrupted footer.
  if s.psize next ≠ s.csize self then .crash s
  else
    let osize := s.chunkSize self
    let psize := if s.psize self &&& cInuse ≠ 0#64 then 0#64 else s.chunkPsize self
    let nsize := if s.csize next &&& cInuse ≠ 0#64 then 0#64 else s.chunkSize next
    let r := mergePrev self osize psize s
    let self := r.1
    let r := mergeNext next r.2.1 nsize r.2.2
    let next := r.1
    let size := r.2.1
    let i := binIndex size
    let s := lockBin i r.2.2
    let s := s.setCsize self size
    let s := s.setPsize next size
    let s := binChunk self i s
    .ret () (reclaimPages self next size osize s)

def unmapChunk (self : Nat) (s : State) : Outcome Unit :=
  let s := s.subAllocated (s.chunkSize self)
  let extra := s.psize self
  let base := self - extra.toNat
  let len := s.chunkSize self + extra
  -- Crash on double free.
  if extra &&& 1#64 ≠ 0#64 then .crash s
  else .ret () ((s.munmap base len).subMmap len)

def muslFree (p : Nat) (s : State) : Outcome Unit :=
  if p = 0 then .ret () s
  else
    let self := memToChunk p
    if s.isMmapped self then unmapChunk self s else _binChunk self s

end MmExper.Musl
