import MmExper.Musl.Accounting

/-!
# Large allocations there and back

`adjust_size` for every request, and what becomes of a request above `MMAP_THRESHOLD`: the mapping is
written down in two header words next to the payload, and `musl_free` reads the same mapping out of them
again, however long the allocation was held.
-/

namespace MmExper.Musl

open Bitwise Lib

variable {w w' : World} {s t : State} {H : Heap} {a : Alloc} {c : Chunk} {m : Nat × Word} {sys : Sys}
  {fuel p base : Nat} {n v : Word}

/-! ## `adjust_size`

In C it has two results, the `int` and `*n`. The model of it in `Malloc.lean` is the two in one. -/

/-- `adjust_size()` with its argument `*n`: the returned `int` and the `*n` it leaves. -/
def adjustSizeInOut (n : Word) : Int × Word :=
  if n - 1#64 > ptrdiffMax - sizeAlign - pageSize then
    if n ≠ 0#64 then (-1, n) else (0, sizeAlign)
  else (0, align64Up (n + overhead) sizeAlign)

/-- What the callers of `adjust_size()` see of it. -/
theorem adjustSize_eq (n : Word) :
    adjustSize n = if (adjustSizeInOut n).1 < 0 then none else some (adjustSizeInOut n).2 := by
  unfold adjustSize adjustSizeInOut
  split
  · split
    · rfl
    · rfl
  · rfl

/-- The largest request that is served. -/
def sizeLimit : Word := ptrdiffMax - sizeAlign - pageSize + 1#64

theorem adjustSizeInOut_fails (h : n > sizeLimit) : adjustSizeInOut n = (-1, n) := by
  have hlimit : sizeLimit.toNat = 9223372036854771680 := by decide
  have hmax : (ptrdiffMax - sizeAlign - pageSize).toNat = 9223372036854771679 := by decide
  rw [gt_iff_lt, BitVec.lt_def, hlimit] at h
  have hsub : (n - 1#64).toNat = n.toNat - 1 := toNat_pred (Nat.sub_add_cancel (by omega)).symm
  have hne : n ≠ 0#64 := by
    rintro rfl
    simp only [BitVec.toNat_ofNat] at h
    omega
  rw [adjustSizeInOut, if_pos, if_pos hne]
  rw [gt_iff_lt, BitVec.lt_def, hmax]
  omega

/-- Every other request is rounded up, with nothing lost at the top. -/
theorem adjustSizeInOut_ok (h : ¬n > sizeLimit) :
    ∃ m : Word, adjustSizeInOut n = (0, m) ∧ m.toNat % 32 = 0 ∧ n.toNat + 16 ≤ m.toNat ∧
      m.toNat < n.toNat + 16 + 32 := by
  have hlimit : sizeLimit.toNat = 9223372036854771680 := by decide
  have hmax : (ptrdiffMax - sizeAlign - pageSize).toNat = 9223372036854771679 := by decide
  rw [gt_iff_lt, BitVec.lt_def, hlimit] at h
  by_cases h0 : n = 0#64
  · -- The difference wraps, and the request for nothing gets the smallest chunk.
    subst h0
    exact ⟨sizeAlign, by decide, by decide, by decide, by decide⟩
  · have hpos : n.toNat ≠ 0 := fun e => h0 (BitVec.eq_of_toNat_eq (by simpa using e))
    have hsub : (n - 1#64).toNat = n.toNat - 1 := toNat_pred (Nat.sub_add_cancel (by omega)).symm
    have hadd : (n + overhead).toNat = n.toNat + 16 := by
      rw [BitVec.toNat_add, overhead, BitVec.toNat_ofNat]
      omega
    refine ⟨align64Up (n + overhead) sizeAlign, ?_, ?_⟩
    · rw [adjustSizeInOut, if_neg]
      rw [gt_iff_lt, BitVec.lt_def, hmax]
      omega
    · rw [toNat_align64Up (k := 5) rfl, hadd]
      omega

/-! ## Held allocations

As long as an allocation is held, its header stays where it is and as it is. -/

/-- From `w` to `w'` in steps of a run, with the allocation held all the time. -/
def Holds (a : Alloc) : World → World → Prop :=
  Relation.ReflTransGen fun w w' => Step w w' ∧ a ∈ w'.live

/-- The mapping of an allocation stays as long as it is held. -/
theorem Inv.step_inMap (h : Inv w H) (hs : Step w w') (ha : a ∈ w.live) (ha' : a ∈ w'.live)
    (hm : InMap w.state a m) : InMap w'.state a m := by
  obtain ⟨H', -, he⟩ := h.step_effect hs
  refine ⟨?_, hm.ptr, hm.fits⟩
  cases he with
  | idle _ maps => exact maps ▸ hm.mem
  | chunkOut _ _ _ maps => exact maps ▸ hm.mem
  | mapOut _ _ _ maps => exact maps ▸ List.mem_cons_of_mem _ hm.mem
  | chunkIn _ _ _ _ maps => exact maps ▸ hm.mem
  | mapIn b k hb live maps place =>
      rw [maps]
      refine (List.mem_erase_of_ne ?_).mpr hm.mem
      rintro rfl
      have hab : a = b := h.ptr_inj ha hb (hm.ptr.trans place.ptr.symm)
      rw [live] at ha'
      exact (h.mem_erase.mp ha').1 hab

/-- So does its chunk. -/
theorem Inv.step_inHeap (h : Inv w H) (hs : Step w w') (ha : a ∈ w.live) (ha' : a ∈ w'.live)
    (hc : InHeap H a c) : ∃ H', Inv w' H' ∧ InHeap H' a c := by
  obtain ⟨H', hinv, he⟩ := h.step_effect hs
  refine ⟨H', hinv, ?_⟩
  have hcu : c ∈ H.used := Heap.mem_used.mpr ⟨hc.mem, hc.used⟩
  suffices hmem : c ∈ H'.used from ⟨(Heap.mem_used.mp hmem).1, hc.used, hc.ptr, hc.fits⟩
  cases he with
  | idle _ _ heap => exact heap ▸ hcu
  | chunkOut _ _ _ _ _ used => exact used.mem_iff.mpr (List.mem_cons_of_mem _ hcu)
  | mapOut _ _ _ _ _ heap => exact heap ▸ hcu
  | chunkIn b d hb live _ place used =>
      rcases List.mem_cons.mp (used.mem_iff.mp hcu) with rfl | hcu
      · have hab : a = b := h.ptr_inj ha hb (hc.ptr.trans place.ptr.symm)
        rw [live] at ha'
        exact absurd hab (h.mem_erase.mp ha').1
      · exact hcu
  | mapIn _ _ _ _ _ _ heap => exact heap ▸ hcu

theorem Holds.inMap (h : Holds a w w') (hinv : Inv w H) (ha : a ∈ w.live) (hm : InMap w.state a m) :
    ∃ H', Inv w' H' ∧ a ∈ w'.live ∧ InMap w'.state a m := by
  induction h with
  | refl => exact ⟨H, hinv, ha, hm⟩
  | tail _ hs ih =>
      obtain ⟨H', hinv', ha', hm'⟩ := ih
      obtain ⟨H'', hinv'', -⟩ := hinv'.step_effect hs.1
      exact ⟨H'', hinv'', hs.2, hinv'.step_inMap hs.1 ha' hs.2 hm'⟩

theorem Holds.inHeap (h : Holds a w w') (hinv : Inv w H) (ha : a ∈ w.live) (hc : InHeap H a c) :
    ∃ H', Inv w' H' ∧ a ∈ w'.live ∧ InHeap H' a c := by
  induction h with
  | refl => exact ⟨H, hinv, ha, hc⟩
  | tail _ hs ih =>
      obtain ⟨H', hinv', ha', hc'⟩ := ih
      obtain ⟨H'', hinv'', hc''⟩ := hinv'.step_inHeap hs.1 ha' hs.2 hc'
      exact ⟨H'', hinv'', hs.2, hc''⟩

/-! ## Serving a request

What a request above the threshold writes down, and that `musl_free` reads the same from it. -/

/-- In a run, a request for `n` bytes, adjusted to `v`, returns `p` and leaves the state `s`. -/
structure Serves (w : World) (sys : Sys) (n v : Word) (p : Nat) (s : State) : Prop where
  reachable : Reachable w
  adjusted : adjustSize n = some v
  returns : ∃ fuel, muslMalloc sys fuel n w.state = .ret p s
  space : AddressSpace w.brk0 s

/-- The allocation that a mapping of `len` bytes at `base` was made for, right after it was made. -/
structure MappedFor (w : World) (n v : Word) (p : Nat) (s : State) (base : Nat) (len : Word) : Prop where
  maps : s.maps = (base, len) :: w.state.maps
  calls : s.calls = .mmap len (some base) :: w.state.calls
  /-- Neither the length nor the stored sizes wrap. -/
  length : len.toNat = pageUp (v.toNat + 16)
  csize : (s.csize (memToChunk p)).toNat = len.toNat - 16
  psize : (s.psize (memToChunk p)).toNat = 16
  /-- The payload is in the mapping. -/
  inside : base ≤ p ∧ p + n.toNat ≤ base + len.toNat

/-- `musl_free` takes the allocation for mmapped and unmaps this mapping. -/
def Unmaps (w : World) (p base : Nat) (len : Word) : Prop :=
  w.state.isMmapped (memToChunk p) = true ∧ (base, len) ∈ w.state.maps ∧
    ∃ s, muslFree p w.state = .ret () s ∧ s.calls = .munmap base len :: w.state.calls ∧
      s.maps = w.state.maps.erase (base, len)

theorem mallocMmap_calls (h : mallocMmap sys v s = .ret p t) :
    t.calls = .mmap (align64Up (v + overhead) pageSize) sys.mmap :: s.calls := by
  rw [mallocMmap] at h
  simp only [] at h
  split at h
  · cases h
    exact s.mmap_calls sys _
  · cases h
    exact s.mmap_calls sys _

theorem muslMalloc_large (had : adjustSize n = some v) (hthr : v > mmapThreshold) :
    muslMalloc sys fuel n s = mallocMmap sys v s := by
  rw [muslMalloc, had]
  exact if_pos hthr

/-- A large request that gets a mapping. -/
theorem Serves.mapped (h : Serves w sys n v p s) (hthr : v > mmapThreshold) (hmap : sys.mmap = some base) :
    ∃ H, Inv ⟨s, ⟨p, n.toNat⟩ :: w.live, w.brk0⟩ H ∧
      InMap s ⟨p, n.toNat⟩ (base, align64Up (v + overhead) pageSize) ∧
      MappedFor w n v p s base (align64Up (v + overhead) pageSize) := by
  obtain ⟨H, hinv⟩ := reachable_inv h.reachable
  obtain ⟨-, -, hv₁, hv₂⟩ := adjustSize_spec h.adjusted
  obtain ⟨hl₁, hl₂⟩ := mapLen_spec (v := v) hv₂
  obtain ⟨fuel, hret⟩ := h.returns
  rw [muslMalloc_large h.adjusted hthr] at hret
  have hcalls := mallocMmap_calls hret
  rw [hmap] at hcalls
  have hbase : base < 2 ^ 63 := mallocMmap_base_lt hmap hret h.space
  obtain ⟨t, ht, k⟩ := mallocMmap_some (v := v) (s := w.state) hmap hbase
  rw [ht] at hret
  cases hret
  have hnew := hinv.mapsIn (n := n) k hl₁ (by omega) h.space
  have hin : InMap s ⟨base + 32, n.toNat⟩ (base, align64Up (v + overhead) pageSize) := by
    refine ⟨by simp [k.maps], rfl, ?_⟩
    show n.toNat + 32 ≤ (align64Up (v + overhead) pageSize).toNat
    omega
  -- The length is `n + OVERHEAD` rounded up to pages.
  have hlen : (align64Up (v + overhead) pageSize).toNat = pageUp (v.toNat + 16) := by
    have hadd : (v + overhead).toNat = v.toNat + 16 := by
      rw [BitVec.toNat_add, overhead, BitVec.toNat_ofNat]
      omega
    rw [toNat_align64Up_page, hadd]
    rw [hadd, pageUp]
    omega
  have hself : memToChunk (base + 32) = base + 16 := by simp [memToChunk]
  refine ⟨H, hnew, hin, k.maps, hcalls, hlen, ?_, ?_, ?_⟩
  · rw [hself, k.csize]
    exact (hnew.mapped _ hin.mem).toNat_csize
  · rw [hself, k.psize]
    rfl
  · omega

/-- While the allocation is held, freeing it undoes its mapping. -/
theorem Inv.unmaps {m : Nat × Word} (h : Inv w H) (hm : InMap w.state a m) : Unmaps w a.ptr m.1 m.2 := by
  have hmap := h.mapped m hm.mem
  refine ⟨hm.isMmapped hmap, hm.mem, ?_⟩
  rw [hm.ptr]
  exact ⟨_, muslFree_mapped hmap, rfl, rfl⟩

/-- A pointer that is not from a mapping is to a chunk. -/
theorem Serves.chunk (h : Serves w sys n v p s) (hthr : ¬v > mmapThreshold) (hsys : sys.sbrk = true)
    (hp : p ≠ 0) :
    ∃ H c, Inv ⟨s, ⟨p, n.toNat⟩ :: w.live, w.brk0⟩ H ∧ InHeap H ⟨p, n.toNat⟩ c := by
  obtain ⟨H, hinv⟩ := reachable_inv h.reachable
  obtain ⟨-, -, hv, -⟩ := adjustSize_spec h.adjusted
  obtain ⟨fuel, hret⟩ := h.returns
  cases hinv.mallocEnds hsys hret h.space with
  | nothing cs hp₀ hs => exact absurd hp₀ hp
  | mapped v' base had hthr' hp hret k =>
      rw [h.adjusted] at had
      cases had
      exact absurd hthr' hthr
  | chunk v' H' c u had hthr' hp hs k =>
      rw [h.adjusted] at had
      cases had
      have hspace := h.space
      rw [hs] at hspace
      have hnew := hinv.obtained k hv ⟨hspace.brk, hspace.maps, hspace.apart, hspace.data, hspace.heap⟩
      rw [hs, hp]
      exact ⟨H', c, hnew, k.mem, k.used, rfl, hv.trans k.large⟩

/-- **A large allocation is undone exactly.** `adjust_size` refuses precisely the requests above the limit
and rounds up every other one; a request above the threshold that is given a mapping lies in it, and
`musl_free` unmaps that mapping however long the allocation was held; a chunk of the brk heap is never
taken for a mapping as long as it is held. -/
theorem large_round_trip :
    (∀ n : Word, if n > sizeLimit then adjustSizeInOut n = (-1, n) else
      ∃ m : Word, adjustSizeInOut n = (0, m) ∧ m.toNat % sizeAlign.toNat = 0 ∧
        n.toNat + overhead.toNat ≤ m.toNat ∧ m.toNat < n.toNat + overhead.toNat + sizeAlign.toNat) ∧
    (∀ w sys n v p s, Serves w sys n v p s → v > mmapThreshold → ∀ base, sys.mmap = some base →
      ∃ len, MappedFor w n v p s base len ∧
        ∀ w', Holds ⟨p, n.toNat⟩ ⟨s, ⟨p, n.toNat⟩ :: w.live, w.brk0⟩ w' → Unmaps w' p base len) ∧
    (∀ w sys n v p s, Serves w sys n v p s → ¬v > mmapThreshold → sys.sbrk = true → p ≠ 0 →
      ∀ w', Holds ⟨p, n.toNat⟩ ⟨s, ⟨p, n.toNat⟩ :: w.live, w.brk0⟩ w' →
        w'.state.isMmapped (memToChunk p) = false) := by
  refine ⟨fun n => ?_, fun w sys n v p s h hthr base hmap => ?_, fun w sys n v p s h hthr hsys hp w' hw' => ?_⟩
  · split
    · next hn => exact adjustSizeInOut_fails hn
    · next hn => exact adjustSizeInOut_ok hn
  · obtain ⟨H, hinv, hin, hfor⟩ := h.mapped hthr hmap
    refine ⟨_, hfor, fun w' hw' => ?_⟩
    obtain ⟨H', hinv', -, hin'⟩ := hw'.inMap hinv List.mem_cons_self hin
    have hun := hinv'.unmaps hin'
    exact hun
  · obtain ⟨H, c, hinv, hin⟩ := h.chunk hthr hsys hp
    obtain ⟨H', hinv', -, hin'⟩ := hw'.inHeap hinv List.mem_cons_self hin
    exact hin'.isMmapped hinv'.repr

/-- A test of what a call returns, and of the state it returns in. -/
def Outcome.returns (test : Nat → State → Bool) : Outcome Nat → Bool
  | .ret p s => test p s
  | _ => false

/-- The first request of a program, for 300000 bytes, and the first one for 24 bytes. -/
theorem large_round_trip_start :
    (∃ p s len, muslMalloc ⟨true, some 0x7f0000000000⟩ 0 300000 start.state = .ret p s ∧
      MappedFor start 300000 300032 p s 0x7f0000000000 len ∧
      Unmaps ⟨s, [⟨p, 300000⟩], start.brk0⟩ p 0x7f0000000000 len) ∧
    (∃ p s, muslMalloc ⟨true, none⟩ 1 24 start.state = .ret p s ∧ p = 0x20020 ∧
      s.isMmapped (memToChunk p) = false) ∧
    adjustSizeInOut 0 = (0, 32) := by
  refine ⟨?_, ?_, by decide⟩
  · have hmmap : ∃ t, mallocMmap ⟨true, some 0x7f0000000000⟩ 300032 start.state =
        .ret (0x7f0000000000 + 32) t ∧
        MapsIn start.state t 0x7f0000000000 (align64Up ((300032 : Word) + overhead) pageSize) :=
      mallocMmap_some rfl (by decide)
    -- The first request is above the threshold, and the kernel maps it.
    obtain ⟨t, ht, k⟩ := hmmap
    have hlen : align64Up ((300032 : Word) + overhead) pageSize = 303104 := by decide
    rw [hlen] at k
    have hret : muslMalloc ⟨true, some 0x7f0000000000⟩ 0 300000 start.state = .ret (0x7f0000000000 + 32) t := by
      rw [muslMalloc_large (v := 300032) (by decide) (by decide), ht]
    have hmaps : t.maps = [(0x7f0000000000, 303104)] := k.maps
    have hspace : AddressSpace start.brk0 t := by
      refine ⟨?_, ?_, ?_, ?_, ?_⟩
      · rw [k.brk]
        decide
      · rw [hmaps]
        decide
      · rw [hmaps]
        exact List.pairwise_singleton _ _
      · rw [hmaps, k.mal, List.forall_mem_singleton]
        exact Or.inr (by decide)
      · rw [hmaps, k.brk, List.forall_mem_singleton]
        exact Or.inr (by decide)
    obtain ⟨len, hfor, hun⟩ := large_round_trip.2.1 start ⟨true, some 0x7f0000000000⟩ 300000 300032 _ t
      ⟨start_reachable, by decide, ⟨0, hret⟩, hspace⟩ (by decide) 0x7f0000000000 rfl
    exact ⟨_, t, len, hret, hfor, hun _ .refl⟩
  · -- The second one is small and comes from the break.
    have hrun : (muslMalloc ⟨true, none⟩ 1 24 start.state).returns
        (fun p s => decide (p = 0x20020 ∧ s.brk ≤ userTop ∧ s.maps = [])) = true := by decide
    cases hret : muslMalloc ⟨true, none⟩ 1 24 start.state with
    | ret p s =>
        rw [hret] at hrun
        obtain ⟨hp, hbrk, hmaps⟩ := of_decide_eq_true hrun
        have hspace : AddressSpace start.brk0 s := by
          refine ⟨hbrk, ?_, ?_, ?_, ?_⟩ <;> simp [hmaps]
        exact ⟨p, s, rfl, hp, large_round_trip.2.2 start ⟨true, none⟩ 24 64 p s
          ⟨start_reachable, by decide, ⟨1, hret⟩, hspace⟩ (by decide) rfl (by omega) _ .refl⟩
    | crash s =>
        rw [hret] at hrun
        cases hrun
    | spin =>
        rw [hret] at hrun
        cases hrun

end MmExper.Musl
