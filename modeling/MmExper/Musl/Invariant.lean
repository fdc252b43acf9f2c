import MmExper.Musl.Run

/-!
# What every run keeps

Each kind of step leads from a world with the invariant to a world with the invariant; `reachable_inv`
is the induction over the run. On the way no valid call crashes or loops.
-/

namespace MmExper.Musl

open Bitwise Lib

variable {w w' : World} {sys : Sys} {s s' t : State} {H H' : Heap} {c d : Chunk} {a b : Alloc}
  {m : Nat × Word} {x brk0 fuel p : Nat} {n v : Word}

/-! ## The beginning

With all of `mal` zero no bin is initialised, which is a representation of the empty heap. -/

theorem tiled_nothing (brk0 : Nat) :
    Tiled Chunk.addr Chunk.size (pageUp brk0 + 16) (pageUp brk0 + 16) [] := rfl

theorem align_nothing (brk0 : Nat) : (pageUp brk0 + 16) % 32 = 16 := by
  simp only [pageUp]
  omega

theorem bound_nothing (brk0 : Nat) (h : brk0 ≤ userTop) : pageUp brk0 + 16 + 16 ≤ 2 ^ 63 := by
  simp only [userTop, pageUp] at *
  omega

def Heap.nothing (brk0 : Nat) (h : brk0 ≤ userTop) : Heap where
  lo := pageUp brk0 + 16
  hi := pageUp brk0 + 16
  chunks := []
  bins := fun _ => []
  tiled := tiled_nothing brk0
  align := align_nothing brk0
  granular := by simp
  bound := bound_nothing brk0 h
  mem_bins := by simp
  nodup := by simp

theorem Initial.inv (h : Initial w) : ∃ H, Inv w H := by
  have hsize : State.malSize = 1552 := rfl
  have hfit := h.brk_fits
  have hbelow := h.mal_below
  have hbrk : w.brk0 ≤ pageUp w.brk0 := by
    simp only [pageUp]
    omega
  have htop : userTop = 2 ^ 56 := rfl
  -- All of `mal` is zero: no bin is initialised and no bit is set.
  have hhead : ∀ i < 64, w.state.head i = 0 := by
    intro i hi
    rw [State.head, h.mal_zero _ (inMal_head hi)]
    rfl
  refine ⟨Heap.nothing w.brk0 hfit, ⟨⟨h.mal_pos, by omega, ?_, fun _ _ _ => rfl, ?_, ?_, ?_⟩, ?_, ?_, ?_,
    ?_, ?_⟩, ⟨fun _ => ?_, ?_⟩, List.isChain_nil, rfl, Nat.le_of_eq h.brk0.symm,
    by rw [h.brk0], hbelow, ⟨?_, ?_, ?_, ?_, ?_⟩,
    ?_, ?_, ?_, ?_, ?_⟩
  · intro i hi hne
    exact absurd (hhead i hi) hne
  · intro i _
    rw [State.binmap, h.mal_zero _ (inMal_binmap _)]
    simp [Heap.nothing]
  · simp [Heap.nothing]
  · simp [Heap.nothing]
  · intro hne
    exact absurd rfl hne
  · change w.state.mal + State.malSize ≤ pageUp w.brk0 + 16
    omega
  · intro _
    rw [h.stats]
    exact ⟨h.heapEnd, h.storedBrk, rfl⟩
  · intro hne
    exact absurd rfl hne
  · rw [h.stats]
    exact ⟨rfl, rfl⟩
  · rw [h.brk0]
    rfl
  · intro hne
    exact absurd rfl hne
  · rw [h.brk0]
    exact hfit
  all_goals simp [h.maps, h.live, Heap.nothing]

/-! ## Mappings and the heap are apart

The kernel hands out addresses that nobody has. The heap's bookkeeping is not touched by a write to
a mapping, nor the header of one mapping by a write to another. -/

section Apart

variable (hs : AddressSpace brk0 s) (hb : AtBreak s H) (hlo : H.lo = pageUp brk0 + 16)
  (hle : brk0 ≤ s.brk) (hm : m ∈ s.maps)
include hs hb hlo hle hm

theorem AddressSpace.heap_apart (hne : H.chunks ≠ []) :
    m.1 + m.2.toNat ≤ H.lo ∨ H.hi + 16 ≤ m.1 := by
  have hend := hb.grown hne
  have hbrk : s.brk ≤ pageUp s.brk ∧ brk0 ≤ pageUp brk0 := by
    simp only [pageUp]
    omega
  rcases hs.heap m hm with h | h
  · left
    omega
  · right
    omega

/-- The allocator leaves the words of a mapping alone. -/
theorem AddressSpace.kept (h₁ : m.1 ≤ x) (h₂ : x < m.1 + m.2.toNat) : Kept s.mal H x := by
  refine ⟨?_, fun hne => ?_⟩
  · rintro ⟨h₃, h₄⟩
    rcases hs.data m hm with h | h <;> omega
  · rcases hs.heap_apart hb hlo hle hm hne with h | h
    · left
      omega
    · right
      left
      omega

end Apart

/-- Different mappings are apart. -/
theorem AddressSpace.maps_apart {k : Nat × Word} (hs : AddressSpace brk0 s) (hk : k ∈ s.maps)
    (hm : m ∈ s.maps) (hne : k ≠ m) : Apart k.1 k.2.toNat m.1 m.2.toNat := by
  have : Std.Symm fun k m : Nat × Word => Apart k.1 k.2.toNat m.1 m.2.toNat :=
    ⟨fun _ _ h => h.symm⟩
  exact hs.apart.forall hk hm hne

theorem Mapped.congr (h : Mapped s m) (h₁ : t.mem (m.1 + 16) = s.mem (m.1 + 16))
    (h₂ : t.mem (m.1 + 24) = s.mem (m.1 + 24)) : Mapped t m := by
  refine ⟨?_, ?_, h.pages, h.pos⟩
  · rw [State.csize, h₂]
    exact h.csize
  · rw [State.psize, h₁]
    exact h.psize

/-- A mapping is at least a page long. -/
theorem Mapped.large (h : Mapped s m) : 4096 ≤ m.2.toNat := by
  have := h.pages
  have := h.pos
  omega

/-! ## Payloads

A payload lies in a chunk in use above its header, or in a mapping behind its header: in both cases
it is none of the allocator's words. -/

def SameIn (a : Alloc) (s s' : State) : Prop := ∀ x, a.Has x → s'.mem x = s.mem x

/-- The payload of an allocation is none of the allocator's business. -/
theorem Inv.payload_kept (h : Inv w H) (ha : a ∈ w.live) (hx : a.Has x) : Kept w.state.mal H x := by
  obtain ⟨h₁, h₂⟩ := hx
  rcases h.placed a ha with ⟨c, hc⟩ | ⟨m, hm⟩
  · have hp := hc.ptr
    have hf := hc.fits
    have hcb := H.tiled.bounds hc.mem
    have hab := h.repr.above
    refine ⟨?_, fun _ => Or.inr (Or.inr ⟨c, hc.mem, hc.used, by omega, by omega⟩)⟩
    simp only [InMal]
    omega
  · have hp := hm.ptr
    have hf := hm.fits
    exact h.space.kept h.atBreak h.start h.brk0_le hm.mem (by omega) (by omega)

/-! ## Allocating

A request ends in one of three ways (`MallocEnds`): it fails and only a call is noted, a chunk of
the heap is handed out, or a mapping is. One more round of fuel changes nothing about a call that
returned. -/

/-- More fuel does not change a search that ends. -/
theorem searchBins_succ {mask : Word} {r : Search} (h : searchBins fuel mask s = some r) :
    searchBins (fuel + 1) mask s = some r := by
  induction fuel generalizing s r with
  | zero => simp [searchBins] at h
  | succ fuel ih =>
      by_cases hmask : mask = 0#64
      · simp only [searchBins, if_pos hmask] at h ⊢
        exact h
      · rw [searchBins, if_neg hmask] at h ⊢
        simp only [] at h ⊢
        split at h
        · next hc =>
          rw [if_pos hc]
          exact h
        · next hc =>
          rw [if_neg hc]
          obtain ⟨r', hr', rfl⟩ := Option.map_eq_some_iff.mp h
          rw [ih hr']
          rfl

theorem mallocSlow_succ {i : Nat} (h : mallocSlow sys fuel v i s = .ret p s') :
    mallocSlow sys (fuel + 1) v i s = .ret p s' := by
  rw [mallocSlow] at h ⊢
  cases hr : searchBins fuel (maskHighBits s.binmap i) s with
  | none => simp [hr] at h
  | some r =>
      rw [hr] at h
      rw [searchBins_succ hr]
      exact h

theorem muslMalloc_succ (h : muslMalloc sys fuel n s = .ret p s') :
    muslMalloc sys (fuel + 1) n s = .ret p s' := by
  rw [muslMalloc] at h ⊢
  cases had : adjustSize n with
  | none =>
      rw [had] at h
      exact h
  | some v =>
      rw [had] at h
      simp only [] at h ⊢
      split at h
      · next hc =>
        rw [if_pos hc]
        exact h
      next hc =>
      rw [if_neg hc]
      split at h
      · next hf =>
        rw [if_pos hf]
        split at h
        · next hg =>
          rw [if_pos hg]
          exact h
        · next hg =>
          rw [if_neg hg]
          exact mallocSlow_succ h
      · next hf =>
        rw [if_neg hf]
        exact mallocSlow_succ h

/-- A chunk of the brk heap handed out. -/
theorem Inv.obtained (h : Inv w H) (k : Obtained w.state t H H' c v.toNat)
    (hn : n.toNat + 16 ≤ v.toNat) (hspace : AddressSpace w.brk0 t) :
    Inv ⟨t.addAllocated (BitVec.ofNat 64 c.size), ⟨c.addr + 16, n.toNat⟩ :: w.live, w.brk0⟩ H' := by
  have hlo : H'.lo = pageUp w.brk0 + 16 := k.lo.trans h.start
  have hle : w.brk0 ≤ t.brk := by
    have := h.brk0_le
    rcases k.brk with e | e <;> omega
  have hmod : t.brk % 4096 = w.brk0 % 4096 := by
    have := h.brk_mod
    rcases k.brk with e | e
    · rw [e]
      exact this
    · rw [e, growth, pageUp]
      omega
  have hcb := H'.tiled.bounds k.mem
  have hne : H'.chunks ≠ [] := List.ne_nil_of_mem k.mem
  -- The headers of mappings are not the heap's.
  have hmap : ∀ m ∈ w.state.maps, Mapped t m := by
    intro m hm
    have hmt : m ∈ t.maps := by rwa [k.maps]
    have hl := (h.mapped m hm).large
    have hap := hspace.heap_apart k.atBreak hlo hle hmt hne
    have hkeep : ∀ x, m.1 ≤ x → x < m.1 + m.2.toNat → t.mem x = w.state.mem x := by
      intro x h₁ h₂
      refine k.frame x (k.mal ▸ hspace.kept k.atBreak hlo hle hmt h₁ h₂) ?_
      omega
    exact (h.mapped m hm).congr (hkeep _ (by omega) (by omega)) (hkeep _ (by omega) (by omega))
  have hold : ∀ d ∈ H.chunks, d.free = false → d ∈ H'.chunks := by
    intro d hd hdf
    have hdc : d ≠ c := fun e => k.fresh d hd hdf (by rw [e])
    exact (k.others d hdf hdc).mpr hd
  refine ⟨k.repr.outside rfl rfl rfl rfl rfl rfl fun _ _ => rfl, ⟨k.atBreak.empty, k.atBreak.grown⟩,
    k.coalesced, hlo, hle, hmod, ?_, ⟨hspace.brk, hspace.maps, hspace.apart, hspace.data, hspace.heap⟩, ?_, ?_,
    ?_, ?_, ?_⟩
  · change t.mal + State.malSize ≤ w.brk0
    rw [k.mal]
    exact h.mal_below
  · intro m hm
    have hm : m ∈ w.state.maps := by rwa [← k.maps]
    exact (hmap m hm).congr rfl rfl
  · intro a ha
    rcases List.mem_cons.mp ha with rfl | ha
    · exact Or.inl ⟨c, k.mem, k.used, rfl, hn.trans k.large⟩
    rcases h.placed a ha with ⟨d, hd⟩ | ⟨m, hm⟩
    · exact Or.inl ⟨d, hold d hd.mem hd.used, hd.used, hd.ptr, hd.fits⟩
    · refine Or.inr ⟨m, ?_, hm.ptr, hm.fits⟩
      change m ∈ t.maps
      rw [k.maps]
      exact hm.mem
  · intro d hd hdf
    by_cases hdc : d = c
    · exact ⟨_, List.mem_cons_self, by rw [hdc]⟩
    · obtain ⟨a, ha, hp⟩ := h.owned d ((k.others d hdf hdc).mp hd) hdf
      exact ⟨a, List.mem_cons_of_mem _ ha, hp⟩
  · intro m hm
    have hm : m ∈ w.state.maps := by rwa [← k.maps]
    obtain ⟨a, ha, hp⟩ := h.ownedMap m hm
    exact ⟨a, List.mem_cons_of_mem _ ha, hp⟩
  · refine List.nodup_cons.mpr ⟨fun hp => ?_, h.nodup⟩
    obtain ⟨a, ha, hp⟩ := List.mem_map.mp hp
    have hp : a.ptr = c.addr + 16 := hp
    rcases h.placed a ha with ⟨d, hd⟩ | ⟨m, hm⟩
    · have := k.fresh d hd.mem hd.used
      have := hd.ptr
      omega
    · have hmt : m ∈ t.maps := by
        rw [k.maps]
        exact hm.mem
      have hap := hspace.heap_apart k.atBreak hlo hle hmt hne
      have := hm.ptr
      have := hm.fits
      omega

/-- Handing out a chunk leaves every payload alone. -/
theorem Inv.obtained_same (h : Inv w H) (k : Obtained w.state t H H' c v.toNat)
    (hinv : Inv ⟨t.addAllocated (BitVec.ofNat 64 c.size), ⟨c.addr + 16, n.toNat⟩ :: w.live, w.brk0⟩ H')
    (ha : a ∈ w.live) : SameIn a w.state (t.addAllocated (BitVec.ofNat 64 c.size)) := by
  intro x hx
  have hkept : Kept t.mal H' x := hinv.payload_kept (List.mem_cons_of_mem _ ha) hx
  refine k.frame x (k.mal ▸ hkept) ?_
  obtain ⟨h₁, h₂⟩ := hx
  have hcb := H'.tiled.bounds k.mem
  rcases h.placed a ha with ⟨d, hd⟩ | ⟨m, hm⟩
  · have hdc : d ≠ c := fun e => k.fresh d hd.mem hd.used (by rw [e])
    have hp := hd.ptr
    have hf := hd.fits
    rcases H'.tiled.apart ((k.others d hd.used hdc).mpr hd.mem) k.mem with e | h' | h'
    · exact absurd e hdc
    · omega
    · omega
  · have hmt : m ∈ t.maps := by
      rw [k.maps]
      exact hm.mem
    have hap := hinv.space.heap_apart hinv.atBreak hinv.start hinv.brk0_le hmt
      (List.ne_nil_of_mem k.mem)
    have hp := hm.ptr
    have hf := hm.fits
    omega

/-- What a request above the threshold does with a mapping it is given. -/
structure MapsIn (s t : State) (base : Nat) (len : Word) : Prop where
  mal : t.mal = s.mal
  brk : t.brk = s.brk
  heapEnd : t.heapEnd = s.heapEnd
  storedBrk : t.storedBrk = s.storedBrk
  maps : t.maps = (base, len) :: s.maps
  heapBytes : t.stats.heapBytes = s.stats.heapBytes
  freeBytes : t.stats.freeBytes = s.stats.freeBytes
  freeBlockBytes : t.stats.freeBlockBytes = s.stats.freeBlockBytes
  csize : t.csize (base + 16) = len - 16#64
  psize : t.psize (base + 16) = 16#64
  frame : ∀ x, x ≠ base + 16 → x ≠ base + 24 → t.mem x = s.mem x

theorem mallocMmap_some {base : Nat} (hsys : sys.mmap = some base) (hbase : base < 2 ^ 63) :
    ∃ t, mallocMmap sys v s = .ret (base + 32) t ∧
      MapsIn s t base (align64Up (v + overhead) pageSize) := by
  have hnb : (BitVec.ofNat 64 base).toNat = base :=
    Lib.toNat_ofNat_of_lt (by omega)
  have hok : BitVec.ofNat 64 base ≠ mapFailed := by
    intro e
    have := congrArg BitVec.toNat e
    rw [hnb] at this
    simp only [mapFailed] at this
    have hmax : (-1#64 : Word).toNat = 18446744073709551615 := rfl
    omega
  generalize hlen : align64Up (v + overhead) pageSize = len
  generalize hb : BitVec.ofNat 64 base = word at hnb hok
  have hadd : word.toNat + 32 - 16 = base + 16 := by omega
  rw [mallocMmap, hlen]
  simp only [State.mmap, hsys, hb, if_neg hok, hadd]
  refine ⟨_, rfl, rfl, rfl, rfl, rfl, rfl, rfl, rfl, rfl, ?_, ?_, ?_⟩
  · change Function.update (Function.update s.mem (base + 16 + 8) _) (base + 16) _ (base + 16 + 8) = _
    rw [Function.update_of_ne (by omega), Function.update_self]
    rfl
  · change Function.update (Function.update s.mem (base + 16 + 8) _) (base + 16) _ (base + 16) = _
    rw [Function.update_self]
    rfl
  · intro x h₁ h₂
    change Function.update (Function.update s.mem (base + 16 + 8) _) (base + 16) _ x = _
    rw [Function.update_of_ne h₁, Function.update_of_ne h₂]

/-- The new mapping is listed. -/
theorem mallocMmap_mem_maps {base : Nat} (hsys : sys.mmap = some base)
    (h : mallocMmap sys v s = .ret p t) : (base, align64Up (v + overhead) pageSize) ∈ t.maps := by
  rw [mallocMmap] at h
  simp only [State.mmap, hsys] at h
  split at h
  · cases h
    exact List.mem_cons_self
  · cases h
    exact List.mem_cons_self

/-- The new mapping is in the address space, so no address in it wraps. -/
theorem mallocMmap_base_lt {base brk0 : Nat} (hsys : sys.mmap = some base) (h : mallocMmap sys v s = .ret p t)
    (hspace : AddressSpace brk0 t) : base < 2 ^ 63 := by
  have htop : userTop = 2 ^ 56 := rfl
  have hend := (hspace.maps _ (mallocMmap_mem_maps hsys h)).2
  simp only at hend
  omega

/-- A mapping handed out. -/
theorem Inv.mapsIn {base : Nat} {len : Word} (h : Inv w H) (k : MapsIn w.state t base len)
    (hlen : len.toNat % 4096 = 0) (hn : n.toNat + 32 ≤ len.toNat) (hspace : AddressSpace w.brk0 t) :
    Inv ⟨t, ⟨base + 32, n.toNat⟩ :: w.live, w.brk0⟩ H := by
  have hb : AtBreak t H := by
    refine ⟨fun hc => ?_, fun hc => ?_⟩ <;> rw [k.brk]
    · exact h.atBreak.empty hc
    · exact h.atBreak.grown hc
  have hle : w.brk0 ≤ t.brk := by
    rw [k.brk]
    exact h.brk0_le
  have hmem : (base, len) ∈ t.maps := by simp [k.maps]
  have hold : ∀ m ∈ w.state.maps, m ∈ t.maps := by
    intro m hm
    rw [k.maps]
    exact List.mem_cons_of_mem _ hm
  -- The pages of the mapping are none of the heap's, and apart from the other mappings.
  have hkept : ∀ x, base ≤ x → x < base + len.toNat → Kept w.state.mal H x := by
    intro x h₁ h₂
    rw [← k.mal]
    exact hspace.kept hb h.start hle hmem h₁ h₂
  have hap : ∀ m ∈ w.state.maps, Apart base len.toNat m.1 m.2.toNat := by
    have := hspace.apart
    rw [k.maps] at this
    exact (List.pairwise_cons.mp this).1
  refine ⟨?_, hb, h.coalesced, h.start, hle, k.brk ▸ h.brk_mod, ?_, hspace, ?_, ?_, ?_, ?_, ?_⟩
  · refine h.repr.outside k.mal k.heapEnd k.storedBrk k.heapBytes k.freeBytes k.freeBlockBytes fun x hx => ?_
    refine k.frame x ?_ ?_ <;>
      · rintro rfl
        exact (hkept _ (by omega) (by omega)).not_bookkeeping hx
  · change t.mal + State.malSize ≤ w.brk0
    rw [k.mal]
    exact h.mal_below
  · -- The new mapping has the header that was written, the others keep theirs.
    intro m hm
    have hm : m ∈ t.maps := hm
    rw [k.maps] at hm
    rcases List.mem_cons.mp hm with rfl | hm
    · exact ⟨k.csize, k.psize, hlen, show 0 < len.toNat by omega⟩
    · have hl := (h.mapped m hm).large
      have := hap m hm
      simp only [Apart] at this
      exact (h.mapped m hm).congr (k.frame _ (by omega) (by omega)) (k.frame _ (by omega) (by omega))
  · -- The new allocation is in the new mapping.
    intro a ha
    rcases List.mem_cons.mp ha with rfl | ha
    · exact Or.inr ⟨(base, len), hmem, rfl, hn⟩
    rcases h.placed a ha with ⟨d, hd⟩ | ⟨m, hm⟩
    · exact Or.inl ⟨d, hd⟩
    · exact Or.inr ⟨m, hold m hm.mem, hm.ptr, hm.fits⟩
  · intro d hd hdf
    obtain ⟨a, ha, hp⟩ := h.owned d hd hdf
    exact ⟨a, List.mem_cons_of_mem _ ha, hp⟩
  · intro m hm
    have hm : m ∈ t.maps := hm
    rw [k.maps] at hm
    rcases List.mem_cons.mp hm with rfl | hm
    · exact ⟨_, List.mem_cons_self, rfl⟩
    · obtain ⟨a, ha, hp⟩ := h.ownedMap m hm
      exact ⟨a, List.mem_cons_of_mem _ ha, hp⟩
  · -- Its pointer is new: it is in pages that nobody had.
    refine List.nodup_cons.mpr ⟨fun hp => ?_, h.nodup⟩
    obtain ⟨a, ha, hp⟩ := List.mem_map.mp hp
    have hp : a.ptr = base + 32 := hp
    rcases h.placed a ha with ⟨d, hd⟩ | ⟨m, hm⟩
    · have hdp := hd.ptr
      have hdb := H.tiled.bounds hd.mem
      have hab : base + len.toNat ≤ H.lo ∨ H.hi + 16 ≤ base :=
        hspace.heap_apart hb h.start hle hmem (List.ne_nil_of_mem hd.mem)
      omega
    · have hapart := hap m hm.mem
      have := hm.ptr
      have := hm.fits
      simp only [Apart] at hapart
      omega

/-- So does a mapping. -/
theorem Inv.mapsIn_same {base : Nat} {len : Word} (h : Inv w H) (k : MapsIn w.state t base len)
    (hlen : 4096 ≤ len.toNat) (hspace : AddressSpace w.brk0 t) (ha : a ∈ w.live) :
    SameIn a w.state t := by
  rintro x ⟨h₁, h₂⟩
  have hmem : (base, len) ∈ t.maps := by simp [k.maps]
  suffices hne : ¬(base ≤ x ∧ x < base + len.toNat) from k.frame x (by omega) (by omega)
  rcases h.placed a ha with ⟨d, hd⟩ | ⟨m, hm⟩
  · have hb : AtBreak t H := by
      refine ⟨fun hc => ?_, fun hc => ?_⟩ <;> rw [k.brk]
      · exact h.atBreak.empty hc
      · exact h.atBreak.grown hc
    have hab : base + len.toNat ≤ H.lo ∨ H.hi + 16 ≤ base :=
      hspace.heap_apart hb h.start (k.brk ▸ h.brk0_le) hmem (List.ne_nil_of_mem hd.mem)
    have hp := hd.ptr
    have hf := hd.fits
    have hdb := H.tiled.bounds hd.mem
    omega
  · have hap := hspace.apart
    rw [k.maps] at hap
    have hap := (List.pairwise_cons.mp hap).1 m hm.mem
    simp only [Apart] at hap
    have hp := hm.ptr
    have hf := hm.fits
    omega

/-- Nothing handed out. -/
theorem Inv.calls (h : Inv w H) (cs : List Syscall) :
    Inv ⟨{ w.state with calls := cs }, w.live, w.brk0⟩ H :=
  ⟨h.repr.outside rfl rfl rfl rfl rfl rfl fun _ _ => rfl, ⟨h.atBreak.empty, h.atBreak.grown⟩, h.coalesced,
    h.start, h.brk0_le, h.brk_mod, h.mal_below,
    ⟨h.space.brk, h.space.maps, h.space.apart, h.space.data, h.space.heap⟩,
    fun m hm => (h.mapped m hm).congr rfl rfl, fun a ha => (h.placed a ha).imp_right fun ⟨m, hm⟩ =>
      ⟨m, hm.mem, hm.ptr, hm.fits⟩,
    h.owned, h.ownedMap, h.nodup⟩

/-- The length of a mapping holds the request and two headers. -/
theorem mapLen_spec (hv : v.toNat + 4096 ≤ 2 ^ 63) :
    (align64Up (v + overhead) pageSize).toNat % 4096 = 0 ∧
      v.toNat + 16 ≤ (align64Up (v + overhead) pageSize).toNat := by
  have hadd : (v + overhead).toNat = v.toNat + 16 := by
    rw [BitVec.toNat_add, overhead, BitVec.toNat_ofNat]
    omega
  have hfit : pageUp (v.toNat + 16) < 2 ^ 64 := by
    simp only [pageUp]
    omega
  rw [toNat_align64Up_page (by rw [hadd]; exact hfit), hadd]
  simp only [pageUp]
  omega

/-- How a call of `musl_malloc` ends in a run: with nothing, with a mapping of its own, or with a chunk
of the brk heap. -/
inductive MallocEnds (w : World) (H : Heap) (sys : Sys) (n : Word) (p : Nat) (s' : State) : Prop
  | nothing (cs : List Syscall) (hp : p = 0) (hs : s' = { w.state with calls := cs })
  | mapped (v : Word) (base : Nat) (had : adjustSize n = some v) (hthr : v > mmapThreshold)
      (hp : p = base + 32) (hret : mallocMmap sys v w.state = .ret p s')
      (k : MapsIn w.state s' base (align64Up (v + overhead) pageSize))
  | chunk (v : Word) (H' : Heap) (c : Chunk) (u : State) (had : adjustSize n = some v)
      (hthr : ¬v > mmapThreshold) (hp : p = c.addr + 16)
      (hs : s' = u.addAllocated (BitVec.ofNat 64 c.size)) (k : Obtained w.state u H H' c v.toNat)

theorem Inv.mallocEnds (h : Inv w H) (hsys : sys.sbrk = true)
    (hret : muslMalloc sys fuel n w.state = .ret p s') (hspace : AddressSpace w.brk0 s') :
    MallocEnds w H sys n p s' := by
  have htop : userTop = 2 ^ 56 := rfl
  -- One more unit of fuel, as the search is only known to end with one.
  have hret := muslMalloc_succ hret
  cases had : adjustSize n with
  | none =>
      rw [muslMalloc, had] at hret
      cases hret
      exact .nothing w.state.calls rfl rfl
  | some v =>
      obtain ⟨hv₁, hv₂, hv₃, hv₄⟩ := adjustSize_spec had
      by_cases hthr : v > mmapThreshold
      · rw [muslMalloc, had] at hret
        simp only [if_pos hthr] at hret
        cases hmap : sys.mmap with
        | none =>
            rw [mallocMmap] at hret
            simp only [State.mmap, hmap, if_true] at hret
            cases hret
            exact .nothing _ rfl rfl
        | some base =>
            have hbase : base < 2 ^ 63 := mallocMmap_base_lt hmap hret hspace
            obtain ⟨t, ht, k⟩ := mallocMmap_some (v := v) (s := w.state) hmap hbase
            rw [ht] at hret
            cases hret
            exact .mapped v base had hthr rfl ht k
      · have hmax : v.toNat ≤ 229376 := not_gt_mmapThreshold.mp hthr
        -- A heap that the call left is in the address space, which bounds how far it grew.
        have hroom : ∀ q t, muslMalloc sys (fuel + 1) n w.state = .ret q t → t.brk ≤ 2 ^ 63 := by
          intro q t hq
          rw [hret] at hq
          cases hq
          have := hspace.brk
          omega
        obtain ⟨H', c, u, hu, k⟩ := h.repr.muslMalloc h.atBreak h.coalesced hsys hv₁ hv₂ hmax had hroom
        rw [hu] at hret
        cases hret
        exact .chunk v H' c u had hthr rfl rfl k

/-- **`musl_malloc` keeps the invariant**, with or without a result, and every payload. -/
theorem Inv.malloc (h : Inv w H) (hsys : sys.sbrk = true)
    (hret : muslMalloc sys fuel n w.state = .ret p s') (hspace : AddressSpace w.brk0 s') :
    (∃ H', Inv ⟨s', if p = 0 then w.live else ⟨p, n.toNat⟩ :: w.live, w.brk0⟩ H') ∧
      ∀ a ∈ w.live, SameIn a w.state s' := by
  cases h.mallocEnds hsys hret hspace with
  | nothing cs hp hs =>
      subst hp hs
      exact ⟨⟨H, by simpa using h.calls cs⟩, fun _ _ _ _ => rfl⟩
  | mapped v base had _ hp _ k =>
      obtain ⟨-, -, hv₃, hv₄⟩ := adjustSize_spec had
      obtain ⟨hl₁, hl₂⟩ := mapLen_spec (v := v) hv₄
      subst hp
      rw [if_neg (by omega)]
      exact ⟨⟨H, h.mapsIn k hl₁ (by omega) hspace⟩,
        fun a ha => h.mapsIn_same k (by omega) hspace ha⟩
  | chunk v H' c u had _ hp hs k =>
      obtain ⟨-, -, hv₃, -⟩ := adjustSize_spec had
      subst hp hs
      rw [if_neg (by omega)]
      have hinv := h.obtained k hv₃
        ⟨hspace.brk, hspace.maps, hspace.apart, hspace.data, hspace.heap⟩
      exact ⟨⟨H', hinv⟩, fun a ha => h.obtained_same k hinv ha⟩

/-- **Every request is answered**, be it with `NULL`. -/
theorem Inv.malloc_returns (h : Inv w H) (hsys : sys.sbrk = true) (fuel : Nat) (n : Word) :
    ∃ p s', muslMalloc sys (fuel + 1) n w.state = .ret p s' := by
  cases had : adjustSize n with
  | none => exact ⟨0, w.state, by rw [muslMalloc, had]⟩
  | some v =>
      obtain ⟨hv₁, hv₂, -, -⟩ := adjustSize_spec had
      by_cases hthr : v > mmapThreshold
      · rw [muslMalloc, had]
        simp only [if_pos hthr, mallocMmap]
        split
        · exact ⟨_, _, rfl⟩
        · exact ⟨_, _, rfl⟩
      · have hmax : v.toNat ≤ 229376 := not_gt_mmapThreshold.mp hthr
        -- The bound on the break is about the state after a call that returns.
        by_contra hno
        obtain ⟨H', c, u, hu, -⟩ := h.repr.muslMalloc h.atBreak h.coalesced hsys hv₁ hv₂ hmax had
          fun q t hq => absurd ⟨q, t, hq⟩ hno
        exact hno ⟨_, _, hu⟩

/-! ## Freeing

The client holds the pointer, so there is a chunk in use or a mapping for it, and only this one
allocation has it. -/

/-- Different allocations have different pointers. -/
theorem Inv.ptr_inj (h : Inv w H) (ha : a ∈ w.live) (hb : b ∈ w.live) (e : a.ptr = b.ptr) : a = b :=
  List.inj_on_of_nodup_map h.nodup ha hb e

theorem Inv.live_nodup (h : Inv w H) : w.live.Nodup := List.Nodup.of_map _ h.nodup

theorem Inv.mem_erase (h : Inv w H) : b ∈ w.live.erase a ↔ b ≠ a ∧ b ∈ w.live :=
  h.live_nodup.mem_erase_iff

theorem Inv.erase_ptr_nodup (h : Inv w H) : ((w.live.erase a).map Alloc.ptr).Nodup :=
  h.nodup.sublist (List.erase_sublist.map _)

/-- A chunk merged with its free neighbours and put on a list, pages given back or not. -/
theorem Inv.freed {l pre post r : List Chunk} {u : State} (h : Inv w H) (ha : a ∈ w.live)
    (hc : InHeap H a c) (hch : H.chunks = l ++ (pre ++ c :: (post ++ r))) (har : Around l pre post r)
    (k : Freed w.state u H H' l pre c post r)
    (hs' : reclaimPages (merged pre c post).addr ((merged pre c post).addr + (merged pre c post).size)
      (BitVec.ofNat 64 (merged pre c post).size) (BitVec.ofNat 64 c.size) u = s') :
    Inv ⟨s', w.live.erase a, w.brk0⟩ H' ∧ ∀ b ∈ w.live.erase a, SameIn b w.state s' := by
  set f := merged pre c post with hf
  have hfm : f ∈ H'.chunks := by simp [k.chunks, ← hf]
  have hff : f.free = true := rfl
  have hfb := H'.tiled.bounds hfm
  have hbd := H'.bound
  have hne : H.chunks ≠ [] := List.ne_nil_of_mem hc.mem
  have hrepr : Repr s' H' := hs' ▸ k.repr.reclaimPages _ hfm hff
  obtain ⟨cs, hv⟩ := reclaimPages_vars f.addr (f.addr + f.size) (BitVec.ofNat 64 f.size)
    (BitVec.ofNat 64 c.size) u
  rw [hs', k.vars] at hv
  have hmal : s'.mal = w.state.mal := by rw [hv]
  have hmaps : s'.maps = w.state.maps := by rw [hv]
  have hbrk : s'.brk = w.state.brk := by rw [hv]
  -- What `madvise` zeroes is inside the free chunk, where no word is kept.
  have hframe : ∀ x, Kept w.state.mal H' x → s'.mem x = w.state.mem x := by
    intro x hx
    rw [← hs', reclaimPages_mem (by omega), if_neg, k.frame x hx]
    intro hr
    have := hr.inside
    exact hx.not_free hfm hff ⟨by omega, by omega⟩
  have hb : AtBreak s' H' := by
    refine ⟨fun e => absurd e (List.ne_nil_of_mem hfm), fun _ => ?_⟩
    rw [k.hi, hbrk]
    exact h.atBreak.grown hne
  have hstart : H'.lo = pageUp w.brk0 + 16 := k.lo.trans h.start
  have hspace : AddressSpace w.brk0 s' := by
    obtain ⟨h₁, h₂, h₃, h₄, h₅⟩ := h.space
    rw [← hbrk] at h₁ h₅
    rw [← hmaps] at h₂ h₃ h₄ h₅
    rw [← hmal] at h₄
    exact ⟨h₁, h₂, h₃, h₄, h₅⟩
  have hle : w.brk0 ≤ s'.brk := by
    rw [hbrk]
    exact h.brk0_le
  -- The chunks in use are the same but for `c`.
  have hstay : ∀ d, d.free = false → (d ∈ H'.chunks ↔ d ∈ H.chunks ∧ d ≠ c) := fun d hdf =>
    k.used_iff hch har hc.used hdf
  have hinv : Inv ⟨s', w.live.erase a, w.brk0⟩ H' := by
    refine ⟨hrepr, hb, ?_, hstart, hle, hbrk ▸ h.brk_mod, ?_, hspace, ?_, ?_, ?_, ?_, h.erase_ptr_nodup⟩
    · rw [k.chunks]
      have hco := h.coalesced
      rw [hch] at hco
      exact hco.merge har
    · change s'.mal + State.malSize ≤ w.brk0
      rw [hmal]
      exact h.mal_below
    · -- The headers of the mappings are outside the heap.
      intro m hm
      have hm : m ∈ s'.maps := hm
      have hl := (h.mapped m (hmaps ▸ hm)).large
      have hkeep : ∀ x, m.1 ≤ x → x < m.1 + m.2.toNat → s'.mem x = w.state.mem x := fun x h₁ h₂ =>
        hframe x (hmal ▸ hspace.kept hb hstart hle hm h₁ h₂)
      exact (h.mapped m (hmaps ▸ hm)).congr (hkeep _ (by omega) (by omega))
        (hkeep _ (by omega) (by omega))
    · -- Another allocation is in another chunk or in a mapping.
      intro b hbm
      obtain ⟨hba, hbl⟩ := h.mem_erase.mp hbm
      rcases h.placed b hbl with ⟨d, hd⟩ | ⟨m, hm⟩
      · have hdc : d ≠ c := by
          rintro rfl
          exact hba (h.ptr_inj hbl ha (hd.ptr.trans hc.ptr.symm))
        exact Or.inl ⟨d, (hstay d hd.used).mpr ⟨hd.mem, hdc⟩, hd.used, hd.ptr, hd.fits⟩
      · refine Or.inr ⟨m, ?_, hm.ptr, hm.fits⟩
        change m ∈ s'.maps
        rw [hmaps]
        exact hm.mem
    · -- A chunk in use is another allocation's.
      intro d hd hdf
      obtain ⟨hdm, hdc⟩ := (hstay d hdf).mp hd
      obtain ⟨b, hb, hp⟩ := h.owned d hdm hdf
      refine ⟨b, h.mem_erase.mpr ⟨?_, hb⟩, hp⟩
      rintro rfl
      have := hc.ptr
      exact hdc (H.tiled.start_inj hdm hc.mem (by omega))
    · -- The mappings are other allocations': `a` is in the heap.
      intro m hm
      have hm : m ∈ s'.maps := hm
      obtain ⟨b, hb', hp⟩ := h.ownedMap m (hmaps ▸ hm)
      refine ⟨b, h.mem_erase.mpr ⟨?_, hb'⟩, hp⟩
      rintro rfl
      have hl := (h.mapped m (hmaps ▸ hm)).large
      have hap := h.space.heap_apart h.atBreak h.start h.brk0_le (hmaps ▸ hm) hne
      have := H.tiled.bounds hc.mem
      have := hc.ptr
      omega
  refine ⟨hinv, fun b hbm x hx => hframe x ?_⟩
  have hkept : Kept s'.mal H' x := hinv.payload_kept hbm hx
  rwa [hmal] at hkept

/-- **Freeing a chunk** returns, and keeps the invariant and every other payload. -/
theorem Inv.freeChunk (h : Inv w H) (ha : a ∈ w.live) (hc : InHeap H a c) :
    ∃ s' H', muslFree a.ptr w.state = .ret () s' ∧ Inv ⟨s', w.live.erase a, w.brk0⟩ H' ∧
      ∀ b ∈ w.live.erase a, SameIn b w.state s' := by
  obtain ⟨l, pre, post, r, H', u, hch, har, k, hret⟩ := h.repr.muslFree h.coalesced hc.mem hc.used
  rw [← hc.ptr] at hret
  obtain ⟨hinv, hsame⟩ := h.freed ha hc hch har k rfl
  exact ⟨_, H', hret, hinv, hsame⟩

theorem Mapped.toNat_csize (h : Mapped s m) : (m.2 - 16#64).toNat = m.2.toNat - 16 := by
  have hl := h.large
  rw [BitVec.toNat_sub_of_le (by rw [BitVec.le_def]; simp only [BitVec.toNat_ofNat]; omega)]
  rfl

/-- The size word of a mapped allocation is even. -/
theorem Mapped.isMmapped (h : Mapped s m) : s.isMmapped (m.1 + 16) = true := by
  have hp := h.pages
  rw [State.isMmapped, h.csize, cInuse, decide_eq_true_eq, ← BitVec.toNat_inj, toNat_and_one (by omega),
    h.toNat_csize, BitVec.toNat_ofNat]
  omega

theorem Mapped.chunkSize (h : Mapped s m) : s.chunkSize (m.1 + 16) = m.2 - 16#64 := by
  have hp := h.pages
  have hl := h.large
  apply BitVec.eq_of_toNat_eq
  rw [State.chunkSize, h.csize, show -2#64 = ~~~1#64 from rfl, toNat_and_not_one (by omega),
    h.toNat_csize]
  omega

/-- `musl_free` of a mapped allocation unmaps exactly what `musl_malloc` mapped. -/
theorem muslFree_mapped (h : Mapped s m) :
    muslFree (m.1 + 32) s =
      .ret () (((s.subAllocated (s.chunkSize (m.1 + 16))).munmap m.1 m.2).subMmap m.2) := by
  have hlen : m.2 - 16#64 + 16#64 = m.2 := by
    rw [BitVec.sub_add_cancel]
  have hself : memToChunk (m.1 + 32) = m.1 + 16 := by
    simp [memToChunk]
  rw [muslFree, if_neg (by omega)]
  simp only [hself, h.isMmapped, if_true]
  rw [unmapChunk]
  change (if s.psize (m.1 + 16) &&& 1#64 ≠ 0#64 then _ else
    Outcome.ret () (((s.subAllocated (s.chunkSize (m.1 + 16))).munmap
      (m.1 + 16 - (s.psize (m.1 + 16)).toNat) (s.chunkSize (m.1 + 16) + s.psize (m.1 + 16))).subMmap
        (s.chunkSize (m.1 + 16) + s.psize (m.1 + 16)))) = _
  rw [h.psize, if_neg (by decide), h.chunkSize, hlen]
  rfl

/-- No mapping is listed twice. -/
theorem Inv.maps_nodup (h : Inv w H) : w.state.maps.Nodup := by
  refine h.space.apart.imp_of_mem fun {k l} hk _ hkl => ?_
  rintro rfl
  have := (h.mapped k hk).large
  simp only [Apart] at hkl
  omega

/-- A mapping undone. -/
theorem Inv.unmapped (h : Inv w H) (ha : a ∈ w.live) (hm : InMap w.state a m) :
    Inv ⟨((w.state.subAllocated (w.state.chunkSize (m.1 + 16))).munmap m.1 m.2).subMmap m.2,
      w.live.erase a, w.brk0⟩ H := by
  obtain ⟨h₁, h₂, h₃, h₄, h₅⟩ := h.space
  have hsub : ∀ k ∈ w.state.maps.erase m, k ∈ w.state.maps := fun k hk => List.mem_of_mem_erase hk
  have hnd := h.maps_nodup
  refine ⟨h.repr.outside rfl rfl rfl rfl rfl rfl fun _ _ => rfl,
    ⟨h.atBreak.empty, h.atBreak.grown⟩, h.coalesced, h.start, h.brk0_le, h.brk_mod, h.mal_below,
    ⟨h₁, fun k hk => h₂ k (hsub k hk), h₃.sublist List.erase_sublist, fun k hk => h₄ k (hsub k hk),
      fun k hk => h₅ k (hsub k hk)⟩,
    fun k hk => (h.mapped k (hsub k hk)).congr rfl rfl, ?_, ?_, ?_, h.erase_ptr_nodup⟩
  · intro b hb
    obtain ⟨hba, hbl⟩ := h.mem_erase.mp hb
    rcases h.placed b hbl with ⟨d, hd⟩ | ⟨k, hk⟩
    · exact Or.inl ⟨d, hd⟩
    · refine Or.inr ⟨k, hnd.mem_erase_iff.mpr ⟨?_, hk.mem⟩, hk.ptr, hk.fits⟩
      rintro rfl
      exact hba (h.ptr_inj hbl ha (hk.ptr.trans hm.ptr.symm))
  · intro d hd hdf
    obtain ⟨b, hb, hp⟩ := h.owned d hd hdf
    refine ⟨b, h.mem_erase.mpr ⟨?_, hb⟩, hp⟩
    rintro rfl
    have hl := (h.mapped m hm.mem).large
    have hap := h.space.heap_apart h.atBreak h.start h.brk0_le hm.mem (List.ne_nil_of_mem hd)
    have := H.tiled.bounds hd
    have := hm.ptr
    omega
  · intro k hk
    obtain ⟨hkm, hkl⟩ := hnd.mem_erase_iff.mp hk
    obtain ⟨b, hb, hp⟩ := h.ownedMap k hkl
    refine ⟨b, h.mem_erase.mpr ⟨?_, hb⟩, hp⟩
    rintro rfl
    -- Two mappings do not start at the same page.
    have hsame : k.1 = m.1 := by
      have := hm.ptr
      omega
    have hap := h.space.maps_apart hkl hm.mem hkm
    have hk := (h.mapped k hkl).large
    have hl := (h.mapped m hm.mem).large
    simp only [Apart] at hap
    omega

/-- Freeing a mapped allocation returns, and keeps the invariant and every other payload. -/
theorem Inv.freeMap (h : Inv w H) (ha : a ∈ w.live) (hm : InMap w.state a m) :
    ∃ s', muslFree a.ptr w.state = .ret () s' ∧ Inv ⟨s', w.live.erase a, w.brk0⟩ H ∧
      ∀ b ∈ w.live.erase a, SameIn b w.state s' := by
  have hret := muslFree_mapped (h.mapped m hm.mem)
  rw [← hm.ptr] at hret
  exact ⟨_, hret, h.unmapped ha hm, fun _ _ _ _ => rfl⟩

/-- **`musl_free` of what the client holds returns**: no test of it fails. -/
theorem Inv.free (h : Inv w H) (ha : a ∈ w.live) :
    ∃ s' H', muslFree a.ptr w.state = .ret () s' ∧ Inv ⟨s', w.live.erase a, w.brk0⟩ H' ∧
      ∀ b ∈ w.live.erase a, SameIn b w.state s' := by
  rcases h.placed a ha with ⟨c, hc⟩ | ⟨m, hm⟩
  · exact h.freeChunk ha hc
  · obtain ⟨s', h₁, h₂, h₃⟩ := h.freeMap ha hm
    exact ⟨s', H, h₁, h₂, h₃⟩

/-! ## Runs

One lemma for each constructor of `Step`, and the induction over the run. -/

theorem Inv.aligned (h : Inv w H) (ha : a ∈ w.live) : a.ptr % 32 = 0 := by
  rcases h.placed a ha with ⟨c, hc⟩ | ⟨m, hm⟩
  · have := H.addr_align hc.mem
    have := hc.ptr
    omega
  · have := (h.space.maps m hm.mem).1
    have := hm.ptr
    omega

/-- No payload has the header of a mapping. -/
theorem Inv.payload_not_mapped {m : Nat × Word} (h : Inv w H) (ha : a ∈ w.live) (hm : m ∈ w.state.maps)
    (hx : a.Has x) : ¬(m.1 + 16 ≤ x ∧ x < m.1 + 32) := by
  obtain ⟨h₁, h₂⟩ := hx
  have hl := (h.mapped m hm).large
  rcases h.placed a ha with ⟨c, hc⟩ | ⟨k, hk⟩
  · -- The heap is apart from the mappings.
    have := hc.ptr
    have := hc.fits
    have := H.tiled.bounds hc.mem
    have := h.space.heap_apart h.atBreak h.start h.brk0_le hm (List.ne_nil_of_mem hc.mem)
    omega
  · have := hk.ptr
    have := hk.fits
    by_cases hkm : k = m
    · subst hkm
      omega
    · have hap := h.space.maps_apart hk.mem hm hkm
      simp only [Apart] at hap
      omega

/-- A word the client may write is not the allocator's. -/
theorem Inv.writable (h : Inv w H) (hx : Writable w x) :
    ¬Bookkeeping w.state.mal H x ∧ ∀ m ∈ w.state.maps, x ≠ m.1 + 16 ∧ x ≠ m.1 + 24 := by
  obtain ⟨hal, ⟨a, ha, h₁, h₂⟩ | ⟨h₁, h₂, h₃⟩⟩ := hx
  · -- The client's words are aligned, as its pointers are.
    have hp := h.aligned ha
    -- A word of a payload.
    have hx : a.Has x := ⟨by omega, h₂⟩
    refine ⟨(h.payload_kept ha hx).not_bookkeeping, fun m hm => ?_⟩
    have := h.payload_not_mapped ha hm hx
    omega
  · -- A word of none of the allocator's memory.
    have hbrk0 : w.brk0 ≤ pageUp w.brk0 := by
      simp only [pageUp]
      omega
    have hstart := h.start
    have hkept : Kept w.state.mal H x := by
      refine ⟨h₁, fun hne => ?_⟩
      have := h.atBreak.grown hne
      by_cases hlt : x < H.lo
      · exact Or.inl hlt
      · exact Or.inr (Or.inl (by omega))
    refine ⟨hkept.not_bookkeeping, fun m hm => ?_⟩
    have hl := (h.mapped m hm).large
    have := h₃ m hm
    omega

theorem Inv.write (h : Inv w H) {mem : Nat → Word} (hw : ∀ x, mem x ≠ w.state.mem x → Writable w x) :
    Inv ⟨{ w.state with mem := mem }, w.live, w.brk0⟩ H := by
  have hsame : ∀ x, ¬Writable w x → mem x = w.state.mem x := fun x hx =>
    not_not.mp fun hne => hx (hw x hne)
  refine ⟨h.repr.outside rfl rfl rfl rfl rfl rfl fun x hx => hsame x fun hwr => (h.writable hwr).1 hx,
    ⟨h.atBreak.empty, h.atBreak.grown⟩, h.coalesced, h.start, h.brk0_le, h.brk_mod, h.mal_below,
    ⟨h.space.brk, h.space.maps, h.space.apart, h.space.data, h.space.heap⟩, fun m hm => ?_,
    fun a ha => (h.placed a ha).imp_right fun ⟨m, hm⟩ => ⟨m, hm.mem, hm.ptr, hm.fits⟩, h.owned,
    h.ownedMap, h.nodup⟩
  exact (h.mapped m hm).congr (hsame _ fun hwr => ((h.writable hwr).2 m hm).1 rfl)
    (hsame _ fun hwr => ((h.writable hwr).2 m hm).2 rfl)

theorem Inv.call (h : Inv w H) (hc : Call w w') : ∃ H', Inv w' H' := by
  cases hc with
  | malloc n hsys hret hspace => exact (h.malloc hsys hret hspace).1
  | free a ha hret =>
      obtain ⟨s', H', h₁, h₂, -⟩ := h.free ha
      rw [hret] at h₁
      cases h₁
      exact ⟨H', h₂⟩
  | freeNull hret =>
      rw [muslFree, if_pos rfl] at hret
      cases hret
      exact ⟨H, h⟩

theorem Inv.step (h : Inv w H) (hs : Step w w') : ∃ H', Inv w' H' := by
  cases hs with
  | call hc => exact h.call hc
  | write mem hw => exact ⟨H, h.write hw⟩

/-- **The invariant holds in every reachable world.** -/
theorem reachable_inv (h : Reachable w) : ∃ H, Inv w H := by
  obtain ⟨w₀, h₀, hrun⟩ := h
  induction hrun with
  | refl => exact h₀.inv
  | tail _ hs ih =>
      obtain ⟨H, ih⟩ := ih
      exact ih.step hs

end MmExper.Musl
