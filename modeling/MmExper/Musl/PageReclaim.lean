import MmExper.Musl.Contract

/-!
# Which pages go back

The kernel zeroes whatever range `madvise` is given. `__bin_chunk` computes it from the chunk as merged,
and gives it only when the merge has made the chunk larger by a power of two or more.
-/

namespace MmExper.Musl

open Bitwise Lib

variable {w : World} {s u : State} {H : Heap} {a : Alloc} {c f : Chunk} {self next osize : Nat}

/-- The start of the range given to `madvise`, `a` in the source. -/
def reclaimFrom (self : Nat) : Word := align64Up (BitVec.ofNat 64 self + sizeAlign) pageSize

def reclaimTo (next : Nat) : Word := align64 (BitVec.ofNat 64 next - sizeAlign) pageSize

/-- The branch is for merged chunks above `RECLAIM` of another order of magnitude than what was there
before the free. -/
def Outgrown (size osize : Word) : Prop := reclaim < size ∧ highestBit size ≠ highestBit (size - osize)

instance (size osize : Word) : Decidable (Outgrown size osize) := inferInstanceAs (Decidable (_ ∧ _))

/-- The range `[a, b)` lies inside the free chunk from `self` to `next`, on page boundaries. -/
structure DeadRange (self next : Nat) : Prop where
  from_page : (reclaimFrom self).toNat % 4096 = 0
  to_page : (reclaimTo next).toNat % 4096 = 0
  le : reclaimFrom self ≤ reclaimTo next
  /-- After the header and the links. -/
  after : self + 32 ≤ (reclaimFrom self).toNat
  /-- Before the next header. -/
  before : (reclaimTo next).toNat + 32 ≤ next

/-- The free chunk `[self, next)` in memory, with the freed allocation's chunk inside. -/
structure MergedChunk (s u : State) (a : Alloc) (self next : Nat) (size : Word) : Prop where
  csize : u.csize self = size
  psize : u.psize next = size
  free : FreeChunk u self
  ends : u.nextChunk self = next
  start_le : self ≤ memToChunk a.ptr
  le_next : s.nextChunk (memToChunk a.ptr) ≤ next

/-! ## The test and the range

The source compares the highest set bits with `(x ^ y) > (x & y)`, and cuts with `&`. Here both are
put into words: when the branch is taken, and where the range ends. -/

/-- The bit trick compares the highest bits: a chunk is at least as large as what is left of it. -/
theorem reclaims_iff (hf : f.size ≤ 2 ^ 63) (ho : osize ≤ f.size) :
    Reclaims f osize ↔ Outgrown (BitVec.ofNat 64 f.size) (BitVec.ofNat 64 osize) := by
  have hsize : (BitVec.ofNat 64 f.size).toNat = f.size := Lib.toNat_ofNat_of_lt (by omega)
  have hsub := toNat_sub_ofNat ho (by omega)
  have hlarge : 163840 < f.size ↔ reclaim < BitVec.ofNat 64 f.size := by
    rw [BitVec.lt_def, hsize]
    rfl
  rw [Reclaims, Outgrown, ← hlarge]
  refine and_congr_right fun hgt => ?_
  have hne : BitVec.ofNat 64 f.size ≠ 0#64 := by
    intro e
    rw [e] at hsize
    simp only [BitVec.toNat_ofNat] at hsize
    omega
  have hle : BitVec.ofNat 64 f.size - BitVec.ofNat 64 osize ≤ BitVec.ofNat 64 f.size := by
    rw [BitVec.le_def, hsub, hsize]
    exact Nat.sub_le _ _
  rw [shareHighestBit, decide_eq_false_iff_not, xor_le_iff_highestBit_eq hne hle]

theorem toNat_reclaimFrom (h : self + 32 ≤ 2 ^ 63) : (reclaimFrom self).toNat = pageUp (self + 32) := by
  have hadd : (BitVec.ofNat 64 self + sizeAlign).toNat = self + 32 := by
    rw [BitVec.toNat_add, sizeAlign, BitVec.toNat_ofNat, BitVec.toNat_ofNat]
    omega
  rw [reclaimFrom, toNat_align64Up_page, hadd]
  rw [hadd, pageUp]
  omega

theorem toNat_reclaimTo (h₁ : 32 ≤ next) (h₂ : next ≤ 2 ^ 63) :
    (reclaimTo next).toNat = pageDown (next - 32) := by
  rw [reclaimTo, toNat_align64 (k := 12) rfl, sizeAlign, toNat_sub_ofNat h₁ (by omega), pageDown]
  omega

theorem deadRange (h₁ : self + 163840 < next) (h₂ : next ≤ 2 ^ 63) : DeadRange self next := by
  have hfrom : (reclaimFrom self).toNat = pageUp (self + 32) := toNat_reclaimFrom (by omega)
  have hto : (reclaimTo next).toNat = pageDown (next - 32) := toNat_reclaimTo (by omega) h₂
  simp only [pageUp] at hfrom
  simp only [pageDown] at hto
  refine ⟨?_, ?_, ?_, ?_, ?_⟩
  · omega
  · omega
  · rw [BitVec.le_def]
    omega
  · omega
  · omega

/-- What `__bin_chunk` tells the kernel at the end. -/
theorem reclaimPages_calls (hf : f.addr + f.size ≤ 2 ^ 63) (ho : osize ≤ f.size) (u : State) :
    (reclaimPages f.addr (f.addr + f.size) (BitVec.ofNat 64 f.size) (BitVec.ofNat 64 osize) u).calls =
      if Outgrown (BitVec.ofNat 64 f.size) (BitVec.ofNat 64 osize) then
        .madvise (reclaimFrom f.addr).toNat (reclaimTo (f.addr + f.size) - reclaimFrom f.addr) :: u.calls
      else u.calls := by
  have hiff := reclaims_iff (f := f) (by omega) ho
  have hcond : (BitVec.ofNat 64 f.size > reclaim ∧ !shareHighestBit (BitVec.ofNat 64 f.size)
      (BitVec.ofNat 64 f.size - BitVec.ofNat 64 osize)) ↔
      Outgrown (BitVec.ofNat 64 f.size) (BitVec.ofNat 64 osize) := by
    rw [← hiff, Reclaims, gt_iff_lt, BitVec.lt_def, Lib.toNat_ofNat_of_lt (by omega), Bool.not_eq_true']
    rfl
  unfold reclaimPages
  by_cases h : Outgrown (BitVec.ofNat 64 f.size) (BitVec.ofNat 64 osize)
  · rw [if_pos (hcond.mpr h), if_pos h]
    rfl
  · rw [if_neg fun h' => h (hcond.mp h'), if_neg h]

/-! ## In every run

`Freed` knows the merged chunk as part of a heap, and the theorem reads it off the words of
memory. -/

/-- The freed chunk and its free neighbours, as the code leaves them. -/
theorem Freed.mergedChunk {l pre post r : List Chunk} {H' : Heap} (h : Repr s H)
    (k : Freed s u H H' l pre c post r) (hc : c ∈ H.chunks) (hptr : a.ptr = c.addr + 16)
    (hpre : (pre.map Chunk.size).sum ≤ c.addr) :
    MergedChunk s u a (merged pre c post).addr ((merged pre c post).addr + (merged pre c post).size)
      (BitVec.ofNat 64 (merged pre c post).size) := by
  have hfm : merged pre c post ∈ H'.chunks := by simp [k.chunks]
  have htags := k.repr.tags (List.ne_nil_of_mem hfm)
  have hself : memToChunk a.ptr = c.addr := by
    rw [hptr, memToChunk, Nat.add_sub_cancel]
  have hsize : (merged pre c post).size =
      (pre.map Chunk.size).sum + (c.size + (post.map Chunk.size).sum) := by
    simp [merged]
  refine ⟨htags.csize _ hfm, htags.psize _ hfm, (k.repr.freeChunk_iff hfm).mpr rfl,
    k.repr.nextChunk hfm, ?_, ?_⟩
  · rw [hself]
    exact Nat.sub_le _ _
  · rw [hself, h.nextChunk hc, hsize]
    show c.addr + c.size ≤ c.addr - (pre.map Chunk.size).sum + _
    omega

/-- **Page reclaim touches only dead bytes.** Freeing a chunk merges it into the free chunk from `self`
to `next`; the kernel is asked to zero pages exactly when the merged size has outgrown what was free
before, and then only pages between that chunk's links and the header behind it. -/
theorem page_reclaim_safe (hw : Reachable w) (ha : a ∈ w.live)
    (hbrk : w.state.isMmapped (memToChunk a.ptr) = false) :
    ∃ self next size u s', muslFree a.ptr w.state = .ret () s' ∧
      s' = reclaimPages self next size (w.state.chunkSize (memToChunk a.ptr)) u ∧
      MergedChunk w.state u a self next size ∧
      if Outgrown size (w.state.chunkSize (memToChunk a.ptr)) then
        DeadRange self next ∧ s'.calls =
          .madvise (reclaimFrom self).toNat (reclaimTo next - reclaimFrom self) :: w.state.calls
      else s'.calls = w.state.calls := by
  obtain ⟨H, hinv⟩ := reachable_inv hw
  rcases hinv.placed a ha with ⟨c, hc⟩ | ⟨m, hm⟩
  · obtain ⟨l, pre, post, r, H', u, hch, har, k, hret⟩ :=
      hinv.repr.muslFree hinv.coalesced hc.mem hc.used
    -- The merged chunk is one of the new heap, which bounds its addresses.
    set f := merged pre c post with hf
    have hself : memToChunk a.ptr = c.addr := by
      rw [hc.ptr, memToChunk, Nat.add_sub_cancel]
    have hfb := H'.tiled.bounds (show f ∈ H'.chunks by simp [k.chunks, ← hf])
    have hbound := H'.bound
    have hpre : (pre.map Chunk.size).sum ≤ c.addr := by
      have htile := H.tiled
      rw [hch, ← List.append_assoc] at htile
      obtain ⟨b, -, hseg⟩ := tiled_append.mp (tiled_split.mp htile).1
      have := hseg.sum_size
      omega
    -- It is no smaller than the chunk that was freed.
    have hosize : c.size ≤ f.size := by
      rw [hf]
      simp only [merged, List.map_append, List.map_cons, List.sum_append, List.sum_cons]
      omega
    have hcalls := reclaimPages_calls (f := f) (by omega) hosize u
    rw [show u.calls = w.state.calls from congrArg Vars.calls k.vars] at hcalls
    refine ⟨f.addr, f.addr + f.size, BitVec.ofNat 64 f.size, u, _, hc.ptr ▸ hret, ?_,
      k.mergedChunk hinv.repr hc.mem hc.ptr hpre, ?_⟩
    · rw [hself, hinv.repr.chunkSize hc.mem]
    · rw [hself, hinv.repr.chunkSize hc.mem, hcalls]
      split
      · next hout =>
        refine ⟨deadRange ?_ (by omega), rfl⟩
        have := hout.1
        rw [BitVec.lt_def, Lib.toNat_ofNat_of_lt (by omega)] at this
        exact Nat.add_lt_add_left this f.addr
      · rfl
  · -- A mapped allocation does not get there.
    have hself : memToChunk a.ptr = m.1 + 16 := by
      rw [hm.ptr, memToChunk]
      omega
    rw [hself, (hinv.mapped m hm.mem).isMmapped] at hbrk
    cases hbrk

/-- A large allocation given back to a heap that ends with a small free chunk: whole pages go back. -/
theorem page_reclaim_safe_run : ∃ w a, start.run [.malloc 200000] = some w ∧ a ∈ w.live ∧
    ∃ self next size u s', muslFree a.ptr w.state = .ret () s' ∧
      s' = reclaimPages self next size (w.state.chunkSize (memToChunk a.ptr)) u ∧
      MergedChunk w.state u a self next size ∧
      Outgrown size (w.state.chunkSize (memToChunk a.ptr)) ∧ DeadRange self next ∧
      s'.calls = .madvise (reclaimFrom self).toNat (reclaimTo next - reclaimFrom self) :: w.state.calls := by
  obtain ⟨w, hw, hr, hc⟩ := start_run [.malloc 200000]
    (fun w => decide (⟨0x20020, 200000⟩ ∈ w.live ∧ w.state.isMmapped (memToChunk 0x20020) = false) &&
      (w.exec (.free 0x20020)).any fun w' => decide (w'.state.calls.length = w.state.calls.length + 1))
    (by decide +kernel)
  simp only [Bool.and_eq_true, decide_eq_true_eq, Option.any_eq_true] at hc
  obtain ⟨⟨ha, hbrk⟩, w', hexec, hasked⟩ := hc
  obtain ⟨self, next, size, u, s', hret, hs, hmerged, hcalls⟩ := page_reclaim_safe hr ha hbrk
  -- The free that was tried out is this one.
  have hw' : w'.state = s' := by
    obtain ⟨n, p, t, hop, -⟩ | ⟨b, t, hop, -, hfree, rfl⟩ := World.exec_cases hexec
    · cases hop
    · injection hop with hptr
      rw [← hptr, hret] at hfree
      injection hfree with _ hst
      exact hst.symm
  rw [hw'] at hasked
  by_cases hout : Outgrown size (w.state.chunkSize (memToChunk 0x20020))
  · rw [if_pos hout] at hcalls
    exact ⟨w, _, hw, ha, self, next, size, u, s', hret, hs, hmerged, hout, hcalls⟩
  · rw [if_neg hout] at hcalls
    rw [hcalls] at hasked
    omega

end MmExper.Musl
