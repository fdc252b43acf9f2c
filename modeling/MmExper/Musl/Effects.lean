import MmExper.Musl.Invariant

/-!
# What a step of a run does

One step hands out a chunk or a mapping, takes one back, or does nothing to either. `Effect` says which,
and what happens to the list of allocations, to the chunks in use, to the mappings and to the two counters
that are kept outside the heap; what is proved about runs afterwards is proved from these five cases.
-/

namespace MmExper.Musl

open Bitwise Lib

variable {w w' : World} {s u t : State} {H H' : Heap} {a : Alloc} {c d : Chunk} {m : Nat × Word}

def Heap.used (H : Heap) : List Chunk := H.chunks.filter (!·.free)

theorem Heap.mem_used : c ∈ H.used ↔ c ∈ H.chunks ∧ c.free = false := by
  rw [Heap.used, List.mem_filter, Bool.not_eq_true']

theorem Heap.used_nodup (H : Heap) : H.used.Nodup := H.tiled.nodup.filter _

/-- What a step of a run does to the allocations, the heap, the mappings and the counters. -/
inductive Effect (w w' : World) (H H' : Heap) : Prop
  | idle (live : w'.live = w.live) (maps : w'.state.maps = w.state.maps) (heap : H' = H)
      (stats : w'.state.stats = w.state.stats)
  | chunkOut (a : Alloc) (c : Chunk) (live : w'.live = a :: w.live)
      (maps : w'.state.maps = w.state.maps) (place : InHeap H' a c) (used : H'.used.Perm (c :: H.used))
      (allocated : w'.state.stats.allocatedBytes =
        w.state.stats.allocatedBytes + BitVec.ofNat 64 c.size)
      (mmap : w'.state.stats.mmapBytes = w.state.stats.mmapBytes)
  | mapOut (a : Alloc) (m : Nat × Word) (live : w'.live = a :: w.live)
      (maps : w'.state.maps = m :: w.state.maps) (place : InMap w'.state a m) (heap : H' = H)
      (allocated : w'.state.stats.allocatedBytes = w.state.stats.allocatedBytes + (m.2 - 16#64))
      (mmap : w'.state.stats.mmapBytes = w.state.stats.mmapBytes + m.2)
  | chunkIn (a : Alloc) (c : Chunk) (held : a ∈ w.live) (live : w'.live = w.live.erase a)
      (maps : w'.state.maps = w.state.maps) (place : InHeap H a c) (used : H.used.Perm (c :: H'.used))
      (allocated : w'.state.stats.allocatedBytes =
        w.state.stats.allocatedBytes - BitVec.ofNat 64 c.size)
      (mmap : w'.state.stats.mmapBytes = w.state.stats.mmapBytes)
  | mapIn (a : Alloc) (m : Nat × Word) (held : a ∈ w.live) (live : w'.live = w.live.erase a)
      (maps : w'.state.maps = w.state.maps.erase m) (place : InMap w.state a m) (heap : H' = H)
      (allocated : w'.state.stats.allocatedBytes = w.state.stats.allocatedBytes - (m.2 - 16#64))
      (mmap : w'.state.stats.mmapBytes = w.state.stats.mmapBytes - m.2)

/-! ## The chunks in use

What a call adds to the chunks in use or removes from them is the chunk of the allocation. -/

/-- The chunk handed out is the one chunk in use more. -/
theorem Obtained.used_perm {n : Nat} (k : Obtained s t H H' c n) : H'.used.Perm (c :: H.used) := by
  have hnew : c ∉ H.used := by
    intro hc
    exact k.fresh c (Heap.mem_used.mp hc).1 k.used rfl
  refine (List.perm_ext_iff_of_nodup H'.used_nodup (List.nodup_cons.mpr ⟨hnew, H.used_nodup⟩)).mpr ?_
  intro d
  rw [Heap.mem_used, List.mem_cons, Heap.mem_used]
  by_cases hdc : d = c
  · simp [hdc, k.mem, k.used]
  · simp only [hdc, false_or]
    exact and_congr_left fun hd => k.others d hd hdc

/-- The chunk freed is the one chunk in use less. -/
theorem Freed.used_perm {l pre post r : List Chunk} (k : Freed s u H H' l pre c post r)
    (hch : H.chunks = l ++ (pre ++ c :: (post ++ r))) (ha : Around l pre post r) (hc : c.free = false) :
    H.used.Perm (c :: H'.used) := by
  have hiff : ∀ d : Chunk, d.free = false → (d ∈ H'.chunks ↔ d ∈ H.chunks ∧ d ≠ c) := fun d hd =>
    k.used_iff hch ha hc hd
  have hgone : c ∉ H'.used := by
    intro h
    exact ((hiff c hc).mp (Heap.mem_used.mp h).1).2 rfl
  refine (List.perm_ext_iff_of_nodup H.used_nodup (List.nodup_cons.mpr ⟨hgone, H'.used_nodup⟩)).mpr ?_
  intro d
  rw [Heap.mem_used, List.mem_cons, Heap.mem_used]
  by_cases hdc : d = c
  · simp [hdc, hch, hc]
  · simp only [hdc, false_or]
    refine and_congr_left fun hd => ?_
    rw [hiff d hd]
    simp [hdc]

/-! ## The counters of the mapped path

Neither branch touches the counters of the heap. -/

/-- A request above the threshold counts the mapping and the chunk in it. -/
theorem mallocMmap_stats {sys : Sys} {v : Word} {p : Nat} (h : mallocMmap sys v s = .ret p t)
    (hp : p ≠ 0) :
    t.stats.mmapBytes = s.stats.mmapBytes + align64Up (v + overhead) pageSize ∧
      t.stats.allocatedBytes = s.stats.allocatedBytes + t.chunkSize (memToChunk p) := by
  rw [mallocMmap] at h
  simp only [] at h
  split at h
  · cases h
    exact absurd rfl hp
  · cases h
    exact ⟨congrArg (·.mmapBytes + _) (s.mmap_stats sys _),
      congrArg (·.allocatedBytes + _) (s.mmap_stats sys _)⟩

/-! ## Steps

`Effect` has what `Inv` forgets between two worlds, and is proved beside it. -/

theorem Inv.malloc_effect {sys : Sys} {fuel p : Nat} {n : Word} (h : Inv w H) (hsys : sys.sbrk = true)
    (hret : muslMalloc sys fuel n w.state = .ret p s) (hspace : AddressSpace w.brk0 s) :
    ∃ H', Inv ⟨s, if p = 0 then w.live else ⟨p, n.toNat⟩ :: w.live, w.brk0⟩ H' ∧
      Effect w ⟨s, if p = 0 then w.live else ⟨p, n.toNat⟩ :: w.live, w.brk0⟩ H H' := by
  cases h.mallocEnds hsys hret hspace with
  | nothing cs hp hs =>
      subst hp hs
      exact ⟨H, by simpa using h.calls cs, .idle rfl rfl rfl rfl⟩
  | mapped v base had _ hp hmap k =>
      obtain ⟨-, -, hv₃, hv₄⟩ := adjustSize_spec had
      obtain ⟨hl₁, hl₂⟩ := mapLen_spec (v := v) hv₄
      have hinv := h.mapsIn k hl₁ (n := n) (by omega) hspace
      subst hp
      obtain ⟨hs₁, hs₂⟩ := mallocMmap_stats hmap (by omega)
      have hm : (base, align64Up (v + overhead) pageSize) ∈ s.maps := by simp [k.maps]
      have hsize := (hinv.mapped _ hm).chunkSize
      rw [show memToChunk (base + 32) = base + 16 from by simp [memToChunk], hsize] at hs₂
      rw [if_neg (by omega)]
      exact ⟨H, hinv, .mapOut ⟨base + 32, n.toNat⟩ _ rfl k.maps
        ⟨hm, rfl, show n.toNat + 32 ≤ (align64Up (v + overhead) pageSize).toNat by omega⟩ rfl hs₂ hs₁⟩
  | chunk v H' c u had _ hp hs k =>
      obtain ⟨-, -, hv₃, -⟩ := adjustSize_spec had
      subst hp hs
      rw [if_neg (by omega)]
      have hinv := h.obtained k hv₃
        ⟨hspace.brk, hspace.maps, hspace.apart, hspace.data, hspace.heap⟩
      exact ⟨H', hinv, .chunkOut ⟨c.addr + 16, n.toNat⟩ c rfl k.maps
        ⟨k.mem, k.used, rfl, hv₃.trans k.large⟩ k.used_perm (congrArg (· + _) k.allocated) k.mmap⟩

theorem Inv.free_effect (h : Inv w H) (ha : a ∈ w.live) (hret : muslFree a.ptr w.state = .ret () s) :
    ∃ H', Inv ⟨s, w.live.erase a, w.brk0⟩ H' ∧ Effect w ⟨s, w.live.erase a, w.brk0⟩ H H' := by
  rcases h.placed a ha with ⟨c, hc⟩ | ⟨m, hm⟩
  · obtain ⟨l, pre, post, r, H', u, hch, har, k, hret'⟩ := h.repr.muslFree h.coalesced hc.mem hc.used
    rw [← hc.ptr, hret] at hret'
    cases hret'
    have htot := reclaimPages_totals (merged pre c post).addr
      ((merged pre c post).addr + (merged pre c post).size) (BitVec.ofNat 64 (merged pre c post).size)
      (BitVec.ofNat 64 c.size) u
    obtain ⟨cs, hv⟩ := reclaimPages_vars (merged pre c post).addr
      ((merged pre c post).addr + (merged pre c post).size) (BitVec.ofNat 64 (merged pre c post).size)
      (BitVec.ofNat 64 c.size) u
    have hmaps := congrArg Vars.maps hv
    rw [k.vars] at hmaps
    exact ⟨H', (h.freed ha hc hch har k rfl).1, .chunkIn a c ha rfl hmaps hc
      (k.used_perm hch har hc.used) (htot.allocated.trans k.allocated) (htot.mmap.trans k.mmap)⟩
  · have hret' := muslFree_mapped (h.mapped m hm.mem)
    rw [← hm.ptr, hret] at hret'
    cases hret'
    refine ⟨H, h.unmapped ha hm, .mapIn a m ha rfl rfl hm rfl ?_ rfl⟩
    rw [← (h.mapped m hm.mem).chunkSize]
    rfl

/-- **What a step does.** -/
theorem Inv.step_effect (h : Inv w H) (hs : Step w w') : ∃ H', Inv w' H' ∧ Effect w w' H H' := by
  cases hs with
  | call hc =>
      cases hc with
      | malloc n hsys hret hspace => exact h.malloc_effect hsys hret hspace
      | free a ha hret => exact h.free_effect ha hret
      | freeNull hret =>
          rw [muslFree, if_pos rfl] at hret
          cases hret
          exact ⟨H, h, .idle rfl rfl rfl rfl⟩
  | write mem hw => exact ⟨H, h.write hw, .idle rfl rfl rfl rfl⟩

end MmExper.Musl
