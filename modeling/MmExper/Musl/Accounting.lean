import MmExper.Musl.Effects
import MmExper.Musl.Contract
import Mathlib.Algebra.Order.BigOperators.Group.List

/-!
# The counters are exact

Every counter of `stats` is a sum over what it counts. The two that are kept outside the heap are followed
step by step (`Totals`), in words, which may wrap on the way without harm; that the sums themselves are
below `2^64` follows from the address space, in which chunks and mappings are apart.
-/

namespace MmExper.Musl

open Bitwise Lib

variable {w w' : World} {s : State} {H H' : Heap} {a : Alloc} {c : Chunk} {m : Nat × Word}

/-- The counters, as sums over the client's allocations, the chunks `cs` and the free lists. -/
structure Accounting (w : World) (cs : List Nat) (bins : Nat → List Nat) : Prop where
  allocated : w.state.stats.allocatedBytes.toNat =
    (w.live.map fun a => (w.state.chunkSize (memToChunk a.ptr)).toNat).sum
  freeBytes : w.state.stats.freeBytes.toNat =
    (((List.range 64).flatMap bins).map fun c => (w.state.chunkSize c).toNat).sum
  freeBlockBytes : w.state.stats.freeBlockBytes.toNat =
    (((List.range 64).flatMap bins).map fun c => (w.state.chunkSize c).toNat).sum
  /-- The mappings are those of the mmapped allocations. -/
  mmapped : ((w.live.filter fun a => w.state.isMmapped (memToChunk a.ptr)).map Alloc.ptr).Perm
    (w.state.maps.map fun m => m.1 + 32)
  mmapBytes : w.state.stats.mmapBytes.toNat = (w.state.maps.map fun m => m.2.toNat).sum
  heapBytes : w.state.heapEnd ≠ 0 → w.state.stats.heapBytes.toNat =
    (cs.map fun c => (w.state.chunkSize c).toNat).sum + sizeAlign.toNat

/-! ## The two counters outside the heap

`allocated` and `mmap_bytes` are updated in each branch by what the branch takes or gives back, so
they are sums over what is held, up to wrapping. -/

def Heap.usedBytes (H : Heap) : Nat := (H.used.map Chunk.size).sum

/-- The bytes in the chunks that mappings hold. -/
def mappedBytes (maps : List (Nat × Word)) : Nat := (maps.map fun m => m.2.toNat - 16).sum

def mapBytes (maps : List (Nat × Word)) : Nat := (maps.map fun m => m.2.toNat).sum

structure Totals (w : World) (H : Heap) : Prop where
  allocated : w.state.stats.allocatedBytes = BitVec.ofNat 64 (H.usedBytes + mappedBytes w.state.maps)
  mmap : w.state.stats.mmapBytes = BitVec.ofNat 64 (mapBytes w.state.maps)

theorem usedBytes_perm (h : H'.used.Perm (c :: H.used)) : H'.usedBytes = c.size + H.usedBytes := by
  rw [Heap.usedBytes, (h.map Chunk.size).sum_eq]
  rfl

theorem ofNat_add_sub (x y : Nat) : BitVec.ofNat 64 (x + y) - BitVec.ofNat 64 x = BitVec.ofNat 64 y := by
  rw [BitVec.ofNat_add, BitVec.add_comm, BitVec.add_sub_cancel]

/-- The size of the chunk in a mapping. -/
theorem Mapped.sub_eq (h : Mapped s m) : m.2 - 16#64 = BitVec.ofNat 64 (m.2.toNat - 16) := by
  rw [← h.toNat_csize, BitVec.ofNat_toNat, BitVec.setWidth_eq]

@[simp] theorem mapBytes_cons (m : Nat × Word) (maps : List (Nat × Word)) :
    mapBytes (m :: maps) = m.2.toNat + mapBytes maps := rfl

@[simp] theorem mappedBytes_cons (m : Nat × Word) (maps : List (Nat × Word)) :
    mappedBytes (m :: maps) = m.2.toNat - 16 + mappedBytes maps := rfl

/-- A mapping among others. -/
theorem mapBytes_erase {maps : List (Nat × Word)} (h : m ∈ maps) :
    mapBytes maps = m.2.toNat + mapBytes (maps.erase m) ∧
      mappedBytes maps = m.2.toNat - 16 + mappedBytes (maps.erase m) := by
  have hperm := List.perm_cons_erase h
  constructor
  · rw [mapBytes, (hperm.map _).sum_eq]
    rfl
  · rw [mappedBytes, (hperm.map _).sum_eq]
    rfl

theorem Totals.step (h : Totals w H) (hinv : Inv w H) (hinv' : Inv w' H') (e : Effect w w' H H') :
    Totals w' H' := by
  obtain ⟨h₁, h₂⟩ := h
  cases e with
  | idle _ maps heap stats =>
      subst heap
      exact ⟨by rw [stats, maps, h₁], by rw [stats, maps, h₂]⟩
  -- A chunk goes out or comes in: its size is added to what is in use, or taken off.
  | chunkOut a c _ maps _ used allocated mmap =>
      refine ⟨?_, by rw [mmap, maps, h₂]⟩
      rw [allocated, h₁, maps, usedBytes_perm used, ← BitVec.ofNat_add]
      congr 1
      omega
  -- A mapping: the length is counted, and the chunk in it is 16 bytes shorter.
  | mapOut a m _ maps place heap allocated mmap =>
      subst heap
      have hm := hinv'.mapped m place.mem
      refine ⟨?_, ?_⟩
      · rw [allocated, h₁, maps, hm.sub_eq, ← BitVec.ofNat_add, mappedBytes_cons]
        congr 1
        omega
      · rw [mmap, h₂, maps, mapBytes_cons, BitVec.ofNat_add, BitVec.ofNat_toNat, BitVec.setWidth_eq,
          BitVec.add_comm]
  | chunkIn a c _ _ maps _ used allocated mmap =>
      refine ⟨?_, by rw [mmap, maps, h₂]⟩
      rw [allocated, h₁, maps, usedBytes_perm used, Nat.add_assoc, ofNat_add_sub]
  | mapIn a m _ _ maps place heap allocated mmap =>
      subst heap
      have hm := hinv.mapped m place.mem
      obtain ⟨he₁, he₂⟩ := mapBytes_erase place.mem
      refine ⟨?_, ?_⟩
      · rw [allocated, h₁, maps, hm.sub_eq, he₂, Nat.add_left_comm, ofNat_add_sub]
      · have hself : m.2 = BitVec.ofNat 64 m.2.toNat := by
          rw [BitVec.ofNat_toNat, BitVec.setWidth_eq]
        rw [mmap, h₂, maps, he₁]
        nth_rewrite 2 [hself]
        exact ofNat_add_sub _ _

theorem Initial.totals (h : Initial w) (hinv : Inv w H) : Totals w H := by
  have hused : H.used = [] := by
    apply List.eq_nil_iff_forall_not_mem.mpr
    intro c hc
    obtain ⟨hm, hf⟩ := Heap.mem_used.mp hc
    obtain ⟨a, ha, -⟩ := hinv.owned c hm hf
    rw [h.live] at ha
    cases ha
  refine ⟨?_, ?_⟩
  · rw [h.stats, h.maps, Heap.usedBytes, hused]
    rfl
  · rw [h.stats, h.maps]
    rfl

/-- The counters are followed through every run. -/
theorem reachable_totals (h : Reachable w) : ∃ H, Inv w H ∧ Totals w H := by
  obtain ⟨w₀, h₀, hrun⟩ := h
  induction hrun with
  | refl =>
      obtain ⟨H, hinv⟩ := h₀.inv
      exact ⟨H, hinv, h₀.totals hinv⟩
  | tail _ hs ih =>
      obtain ⟨H, hinv, htot⟩ := ih
      obtain ⟨H', hinv', he⟩ := hinv.step_effect hs
      exact ⟨H', hinv', htot.step hinv hinv' he⟩

/-! ## What is counted

The counters of the heap are fields of its representation. -/

/-- The client's chunk of the heap is not taken for a mapping. -/
theorem InHeap.isMmapped (hc : InHeap H a c) (h : Repr s H) : s.isMmapped (memToChunk a.ptr) = false := by
  rw [hc.ptr, memToChunk, Nat.add_sub_cancel]
  exact h.isMmapped hc.mem hc.used

theorem InMap.isMmapped (hm : InMap s a m) (h : Mapped s m) : s.isMmapped (memToChunk a.ptr) = true := by
  rw [hm.ptr, show memToChunk (m.1 + 32) = m.1 + 16 from by simp [memToChunk]]
  exact h.isMmapped

namespace Inv

variable (h : Inv w H)
include h

theorem ptr_ge (ha : a ∈ w.live) : 16 ≤ a.ptr := by
  rcases h.placed a ha with ⟨c, hc⟩ | ⟨m, hm⟩
  · rw [hc.ptr]
    exact Nat.le_add_left _ _
  · rw [hm.ptr]
    omega

/-- Mappings start at different addresses. -/
theorem maps_inj {k : Nat × Word} (hk : k ∈ w.state.maps) (hm : m ∈ w.state.maps) (e : k.1 = m.1) :
    k = m := by
  by_contra hne
  have hap := h.space.maps_apart hk hm hne
  have := (h.mapped k hk).large
  have := (h.mapped m hm).large
  simp only [Apart] at hap
  omega

/-- The chunks of the client's allocations are the chunks in use and those in mappings. -/
theorem live_perm : (w.live.map fun a => memToChunk a.ptr).Perm
    (H.used.map Chunk.addr ++ w.state.maps.map fun m : Nat × Word => m.1 + 16) := by
  -- Different pointers have different chunks.
  have hleft : (w.live.map fun a => memToChunk a.ptr).Nodup := by
    refine List.Nodup.map_on ?_ h.live_nodup
    intro a ha b hb e
    have h₁ := h.ptr_ge ha
    have h₂ := h.ptr_ge hb
    simp only [memToChunk] at e
    exact h.ptr_inj ha hb (by omega)
  have hused : (H.used.map Chunk.addr).Nodup := by
    refine List.Nodup.map_on ?_ H.used_nodup
    intro c hc d hd e
    exact H.tiled.start_inj (Heap.mem_used.mp hc).1 (Heap.mem_used.mp hd).1 e
  have hmaps : (w.state.maps.map fun m => m.1 + 16).Nodup := by
    refine List.Nodup.map_on ?_ h.maps_nodup
    intro k hk m hm e
    exact h.maps_inj hk hm (by omega)
  -- A chunk of the heap is not in a mapping.
  have hright : (H.used.map Chunk.addr ++ w.state.maps.map fun m : Nat × Word => m.1 + 16).Nodup := by
    refine List.nodup_append.mpr ⟨hused, hmaps, ?_⟩
    intro x hx y hy
    obtain ⟨c, hc, rfl⟩ := List.mem_map.mp hx
    obtain ⟨m, hm, rfl⟩ := List.mem_map.mp hy
    have hcm := (Heap.mem_used.mp hc).1
    have hcb := H.tiled.bounds hcm
    have hl := (h.mapped m hm).large
    have hap := h.space.heap_apart h.atBreak h.start h.brk0_le hm (List.ne_nil_of_mem hcm)
    omega
  refine (List.perm_ext_iff_of_nodup hleft hright).mpr ?_
  intro x
  rw [List.mem_append, List.mem_map, List.mem_map, List.mem_map]
  constructor
  · -- Every allocation is placed, and every place is owned.
    rintro ⟨a, ha, rfl⟩
    rcases h.placed a ha with ⟨c, hc⟩ | ⟨m, hm⟩
    · refine Or.inl ⟨c, Heap.mem_used.mpr ⟨hc.mem, hc.used⟩, ?_⟩
      rw [hc.ptr, memToChunk, Nat.add_sub_cancel]
    · refine Or.inr ⟨m, hm.mem, ?_⟩
      rw [hm.ptr, memToChunk]
      omega
  · rintro (⟨c, hc, rfl⟩ | ⟨m, hm, rfl⟩)
    · obtain ⟨hcm, hcf⟩ := Heap.mem_used.mp hc
      obtain ⟨a, ha, hp⟩ := h.owned c hcm hcf
      refine ⟨a, ha, ?_⟩
      rw [hp, memToChunk, Nat.add_sub_cancel]
    · obtain ⟨a, ha, hp⟩ := h.ownedMap m hm
      refine ⟨a, ha, ?_⟩
      rw [hp, memToChunk]
      omega

/-- What the client holds, counted chunk by chunk. -/
theorem live_bytes : (w.live.map fun a => (w.state.chunkSize (memToChunk a.ptr)).toNat).sum =
    H.usedBytes + mappedBytes w.state.maps := by
  have hperm := h.live_perm.map fun c => (w.state.chunkSize c).toNat
  rw [List.map_map] at hperm
  have hchunks := h.repr.map_chunkSize fun c hc => (Heap.mem_used.mp hc).1
  have hmaps : (w.state.maps.map fun m => m.1 + 16).map (fun c => (w.state.chunkSize c).toNat) =
      w.state.maps.map fun m => m.2.toNat - 16 := by
    rw [List.map_map]
    apply List.map_congr_left
    intro m hm
    show (w.state.chunkSize (m.1 + 16)).toNat = m.2.toNat - 16
    rw [(h.mapped m hm).chunkSize, (h.mapped m hm).toNat_csize]
  show (w.live.map ((fun c => (w.state.chunkSize c).toNat) ∘ fun a => memToChunk a.ptr)).sum = _
  rw [hperm.sum_eq, List.map_append, List.sum_append, hchunks, hmaps]
  rfl

/-- The mmapped allocations are those in mappings. -/
theorem mmapped_perm : ((w.live.filter fun a => w.state.isMmapped (memToChunk a.ptr)).map Alloc.ptr).Perm
    (w.state.maps.map fun m => m.1 + 32) := by
  have hleft : ((w.live.filter fun a => w.state.isMmapped (memToChunk a.ptr)).map Alloc.ptr).Nodup :=
    h.nodup.sublist (List.filter_sublist.map _)
  have hright : (w.state.maps.map fun m => m.1 + 32).Nodup := by
    refine List.Nodup.map_on ?_ h.maps_nodup
    intro k hk m hm e
    exact h.maps_inj hk hm (by omega)
  refine (List.perm_ext_iff_of_nodup hleft hright).mpr ?_
  intro x
  rw [List.mem_map, List.mem_map]
  constructor
  · rintro ⟨a, ha, rfl⟩
    obtain ⟨hal, hmm⟩ := List.mem_filter.mp ha
    rcases h.placed a hal with ⟨c, hc⟩ | ⟨m, hm⟩
    · rw [hc.isMmapped h.repr] at hmm
      cases hmm
    · exact ⟨m, hm.mem, hm.ptr.symm⟩
  · rintro ⟨m, hm, rfl⟩
    obtain ⟨a, ha, hp⟩ := h.ownedMap m hm
    refine ⟨a, List.mem_filter.mpr ⟨ha, ?_⟩, hp⟩
    rw [hp, show memToChunk (m.1 + 32) = m.1 + 16 from by simp [memToChunk]]
    exact (h.mapped m hm).isMmapped

end Inv

/-- The lists hold the free chunks. -/
theorem Heap.lists_perm (H : Heap) :
    ((List.range 64).flatMap H.bins).Perm ((H.chunks.filter (·.free)).map Chunk.addr) := by
  have hleft : ((List.range 64).flatMap H.bins).Nodup := by
    refine List.nodup_flatMap.mpr ⟨fun i _ => H.nodup i, ?_⟩
    refine List.nodup_range.imp fun {i j} hne => ?_
    -- A chunk is on the list of its own size only.
    intro x hi hj
    obtain ⟨c, hc, rfl, -, rfl⟩ := (H.mem_bins i x).mp hi
    exact hne ((H.mem_bins_addr hc j).mp hj).2
  have hright : ((H.chunks.filter (·.free)).map Chunk.addr).Nodup := by
    refine List.Nodup.map_on ?_ (H.tiled.nodup.filter _)
    intro c hc d hd e
    exact H.tiled.start_inj (List.mem_filter.mp hc).1 (List.mem_filter.mp hd).1 e
  refine (List.perm_ext_iff_of_nodup hleft hright).mpr ?_
  intro x
  rw [List.mem_flatMap, List.mem_map]
  constructor
  · rintro ⟨i, -, hi⟩
    obtain ⟨c, hc, rfl, hf, -⟩ := (H.mem_bins i x).mp hi
    exact ⟨c, List.mem_filter.mpr ⟨hc, hf⟩, rfl⟩
  · rintro ⟨c, hc, rfl⟩
    obtain ⟨hcm, hcf⟩ := List.mem_filter.mp hc
    exact ⟨c.bin, List.mem_range.mpr (H.bin_lt hcm), (H.mem_bins_addr hcm c.bin).mpr ⟨hcf, rfl⟩⟩

theorem Repr.list_bytes (h : Repr s H) :
    (((List.range 64).flatMap H.bins).map fun c => (s.chunkSize c).toNat).sum = H.freeBytes := by
  rw [(H.lists_perm.map _).sum_eq, h.map_chunkSize fun c hc => (List.mem_filter.mp hc).1]
  rfl

/-! ## The sums fit

All that is counted lies apart in one address space, so no sum wraps. -/

theorem Heap.sum_filter_le (H : Heap) (p : Chunk → Bool) : ((H.chunks.filter p).map Chunk.size).sum ≤ 2 ^ 63 := by
  have hsub : ((H.chunks.filter p).map Chunk.size).sum ≤ (H.chunks.map Chunk.size).sum :=
    (List.filter_sublist.map _).sum_le_sum fun _ _ => Nat.zero_le _
  have := H.tiled.sum_size
  have := H.bound
  omega

theorem Inv.mapBytes_le (h : Inv w H) : mapBytes w.state.maps ≤ userTop := by
  exact sum_size_le_of_apart (fun m : Nat × Word => m.1) h.space.apart fun m hm => (h.space.maps m hm).2

theorem mappedBytes_le (maps : List (Nat × Word)) : mappedBytes maps ≤ mapBytes maps :=
  List.sum_le_sum fun _ _ => Nat.sub_le _ _

/-- **Accounting is exact** in every reachable world. -/
theorem accounting_exact (hw : Reachable w) :
    ∃ cs bins, BrkHeap w cs ∧ FreeLists w.state cs bins ∧ Accounting w cs bins := by
  obtain ⟨H, hinv, htot⟩ := reachable_totals hw
  have htop : userTop = 2 ^ 56 := rfl
  have hmaps := hinv.mapBytes_le
  have hmapped := mappedBytes_le w.state.maps
  have hused : H.usedBytes ≤ 2 ^ 63 := H.sum_filter_le _
  have hfree : H.freeBytes ≤ 2 ^ 63 := H.sum_filter_le _
  have hfit : ∀ x : Nat, x < 2 ^ 64 → (BitVec.ofNat 64 x).toNat = x := fun x hx => by
    rw [BitVec.toNat_ofNat, Nat.mod_eq_of_lt hx]
  refine ⟨_, _, hinv.brkHeap, hinv.repr.freeLists, ?_, ?_, ?_, hinv.mmapped_perm, ?_, ?_⟩
  · rw [htot.allocated, hinv.live_bytes, hfit _ (by omega)]
  · rw [hinv.repr.free.1, hinv.repr.list_bytes, hfit _ (by omega)]
  · rw [hinv.repr.free.2, hinv.repr.list_bytes, hfit _ (by omega)]
  · rw [htot.mmap, hfit _ (by omega)]
    rfl
  · intro hend
    have hne : H.chunks ≠ [] := fun e => hend (hinv.heapEnd_eq_zero.mpr e)
    have hsum := H.tiled.sum_size
    have hbound := H.bound
    have hsize : sizeAlign.toNat = 32 := rfl
    have hchunks := hinv.repr.map_chunkSize fun c (hc : c ∈ H.chunks) => hc
    rw [(hinv.repr.grown hne).2.2, hfit _ (by omega), hchunks, hsize]
    omega

/-- A large chunk given back, a small one handed out of it. -/
theorem accounting_exact_run :
    ∃ w, start.run [.malloc 24, .malloc 50000, .free 0x21000, .malloc 1000] = some w ∧
      ∃ cs bins, BrkHeap w cs ∧ FreeLists w.state cs bins ∧ Accounting w cs bins := by
  obtain ⟨w, hw, hr, -⟩ := start_run [.malloc 24, .malloc 50000, .free 0x21000, .malloc 1000]
    (fun _ => true) (by decide +kernel)
  exact ⟨w, hw, accounting_exact hr⟩

end MmExper.Musl
