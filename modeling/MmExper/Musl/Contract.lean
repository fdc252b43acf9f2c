import MmExper.Musl.Invariant

/-!
# The contract of the allocator

The invariant of `Invariant.lean` speaks about an abstract heap. Here its consequences are stated in
the words of memory: the chunks are addresses whose size words are read from the state, the free
lists are followed through `next` and `prev`, and a byte is a byte.
-/

namespace MmExper.Musl

open Bitwise Lib

variable {w w' : World} {s : State} {H : Heap} {c d : Chunk} {a b : Alloc} {cs : List Nat}
  {bins : Nat → List Nat} {i x : Nat}

/-! ## The heap, read off memory

The chunks are the addresses that one reaches from the bottom by adding size words. -/

def FreeChunk (s : State) (c : Nat) : Prop := s.csize c &&& cInuse = 0#64

instance (s : State) (c : Nat) : Decidable (FreeChunk s c) := inferInstanceAs (Decidable (_ = _))

/-- From `lo` to the sentinel at `hi` the chunks `cs` lie end to end, each of a positive multiple of
`SIZE_ALIGN` bytes, and each one's size word, flag included, stands again in the next header. -/
structure BoundaryTags (s : State) (lo hi : Nat) (cs : List Nat) : Prop where
  tiled : Tiled id (fun c => (s.chunkSize c).toNat) lo hi cs
  granular : ∀ c ∈ cs, (s.chunkSize c).toNat % 32 = 0
  footer : ∀ c ∈ cs, s.psize (s.nextChunk c) = s.csize c
  sentinel : s.csize hi = 0#64 ||| cInuse

/-- The chunks of the brk heap: none as long as no break memory has been obtained, else those from the
first page boundary at or above the initial break to the recorded end. -/
structure BrkHeap (w : World) (cs : List Nat) : Prop where
  none : w.state.heapEnd = 0 → cs = [] ∧ pageUp w.state.brk = pageUp w.brk0
  nonempty : w.state.heapEnd ≠ 0 → cs ≠ []
  tags : w.state.heapEnd ≠ 0 →
    BoundaryTags w.state (pageUp w.brk0 + 16) (w.state.heapEnd - 16) cs
  fills : w.state.heapEnd ≠ 0 → w.state.heapEnd = pageUp w.state.brk

theorem Repr.freeChunk_iff (h : Repr s H) (hc : c ∈ H.chunks) :
    FreeChunk s c.addr ↔ c.free = true := by
  rw [FreeChunk, (h.tags (List.ne_nil_of_mem hc)).csize c hc, cInuse,
    Chunk.tag_and_one (H.granular c hc)]

theorem tiled_addr {lo hi : Nat} {l : List Chunk} (h : Tiled Chunk.addr Chunk.size lo hi l)
    (hs : ∀ c ∈ l, (s.chunkSize c.addr).toNat = c.size) :
    Tiled id (fun c => (s.chunkSize c).toNat) lo hi (l.map Chunk.addr) := by
  induction l generalizing lo with
  | nil => exact h
  | cons c l ih =>
      obtain ⟨h₁, h₂, h₃⟩ := h
      rw [← hs c (by simp)] at h₂ h₃
      exact ⟨h₁, h₂, ih h₃ fun d hd => hs d (by simp [hd])⟩

theorem Repr.boundaryTags (h : Repr s H) (hne : H.chunks ≠ []) :
    BoundaryTags s H.lo H.hi (H.chunks.map Chunk.addr) := by
  have ht := h.tags hne
  have hsize : ∀ c ∈ H.chunks, (s.chunkSize c.addr).toNat = c.size := fun c hc => h.toNat_chunkSize hc
  refine ⟨tiled_addr H.tiled hsize, ?_, ?_, ht.last⟩
  · intro a ha
    obtain ⟨c, hc, rfl⟩ := List.mem_map.mp ha
    rw [hsize c hc]
    exact H.granular c hc
  · intro a ha
    obtain ⟨c, hc, rfl⟩ := List.mem_map.mp ha
    rw [h.nextChunk hc, ht.psize c hc, ht.csize c hc]

/-- The recorded end is 0 exactly when there is no chunk. -/
theorem Inv.heapEnd_eq_zero (h : Inv w H) : w.state.heapEnd = 0 ↔ H.chunks = [] := by
  by_cases hc : H.chunks = []
  · simp [hc, (h.repr.empty hc).1]
  · have := (h.repr.grown hc).1
    simp only [hc, iff_false]
    omega

theorem Inv.brkHeap (h : Inv w H) : BrkHeap w (H.chunks.map Chunk.addr) := by
  refine ⟨fun he => ?_, fun he => ?_, fun he => ?_, fun he => ?_⟩
  · have hc := h.heapEnd_eq_zero.mp he
    have h₁ := h.atBreak.empty hc
    have h₂ := h.start
    exact ⟨by simp [hc], by omega⟩
  · simpa using fun e => he (h.heapEnd_eq_zero.mpr e)
  · have hc : H.chunks ≠ [] := fun e => he (h.heapEnd_eq_zero.mpr e)
    have hend := (h.repr.grown hc).1
    rw [← h.start, show w.state.heapEnd - 16 = H.hi by omega]
    exact h.repr.boundaryTags hc
  · have hc : H.chunks ≠ [] := fun e => he (h.heapEnd_eq_zero.mpr e)
    rw [(h.repr.grown hc).1, h.atBreak.grown hc]

/-! ## Boundary tags

The state is tiled at every moment, and every call returns: no valid `free` is taken for a
corruption, and no request loops. -/

/-- **Boundary tags.** In every reachable world the brk heap is tiled by well-tagged chunks; freeing what
the client holds returns, so neither the footer test nor the `psize` test crashes; and every request for
memory returns, so the search through the bins ends. -/
theorem boundary_tags (h : Reachable w) :
    (∃ cs, BrkHeap w cs) ∧ (∀ a ∈ w.live, ∃ s', muslFree a.ptr w.state = .ret () s') ∧
      ∀ (sys : Sys) (fuel : Nat) (n : Word), sys.sbrk = true →
        ∃ p s', muslMalloc sys (fuel + 1) n w.state = .ret p s' := by
  obtain ⟨H, hinv⟩ := reachable_inv h
  refine ⟨⟨_, hinv.brkHeap⟩, fun a ha => ?_, fun sys fuel n hsys => hinv.malloc_returns hsys fuel n⟩
  obtain ⟨s', -, hret, -⟩ := hinv.free ha
  exact ⟨s', hret⟩

theorem boundary_tags_run : ∃ w, start.run [.malloc 24, .malloc 1000, .free 0x20020] = some w ∧
    (∃ cs, BrkHeap w cs) ∧ (∀ a ∈ w.live, ∃ s', muslFree a.ptr w.state = .ret () s') ∧
      ∀ (sys : Sys) (fuel : Nat) (n : Word), sys.sbrk = true →
        ∃ p s', muslMalloc sys (fuel + 1) n w.state = .ret p s' := by
  obtain ⟨w, hw, hr, -⟩ := start_run [.malloc 24, .malloc 1000, .free 0x20020]
    (fun _ => true) (by decide +kernel)
  exact ⟨w, hw, boundary_tags hr⟩

/-! ## Free lists

A list is what one gets by following `next` from the sentinel, and `prev` is its reverse. -/

/-- The 64 bins: each is a ring through its sentinel once it is initialised, together they hold the
free chunks of `cs`, each once and in the bin of its size, and `binmap` marks the non-empty ones. -/
structure FreeLists (s : State) (cs : List Nat) (bins : Nat → List Nat) : Prop where
  ring : ∀ i < 64, s.head i ≠ 0 → Ring s.next s.prev (s.binToChunk i) (bins i)
  unset : ∀ i < 64, s.head i = 0 → bins i = []
  bin_lt : ∀ c ∈ cs, FreeChunk s c → binIndex (s.chunkSize c) < 64
  member : ∀ i < 64, ∀ c, c ∈ bins i ↔ c ∈ cs ∧ FreeChunk s c ∧ binIndex (s.chunkSize c) = i
  once : ∀ i < 64, (bins i).Nodup
  bit : ∀ i < 64, isBitSet s.binmap i = true ↔ bins i ≠ []

theorem Repr.freeLists (h : Repr s H) : FreeLists s (H.chunks.map Chunk.addr) H.bins := by
  refine ⟨?_, h.lists.unset, ?_, ?_, fun i _ => H.nodup i, ?_⟩
  · intro i hi hset
    rw [State.binToChunk_eq]
    exact h.lists.ring i hi hset
  · intro a ha _
    obtain ⟨c, hc, rfl⟩ := List.mem_map.mp ha
    rw [h.chunkSize hc]
    exact H.bin_lt hc
  · intro i _ a
    rw [H.mem_bins]
    constructor
    · rintro ⟨c, hc, rfl, hf, hb⟩
      exact ⟨List.mem_map_of_mem hc, (h.freeChunk_iff hc).mpr hf, by rw [h.chunkSize hc]; exact hb⟩
    · rintro ⟨ha, hf, hb⟩
      obtain ⟨c, hc, rfl⟩ := List.mem_map.mp ha
      rw [h.chunkSize hc] at hb
      exact ⟨c, hc, rfl, (h.freeChunk_iff hc).mp hf, hb⟩
  · intro i hi
    rw [isBitSet_eq_getLsbD]
    exact h.lists.bit i hi

/-- **Free lists.** In every reachable world a chunk is on a list exactly when it is a free chunk of the
brk heap, then on exactly one and once, the one of its size; and `binmap` marks the non-empty lists. -/
theorem free_lists (h : Reachable w) : ∃ cs bins, BrkHeap w cs ∧ FreeLists w.state cs bins := by
  obtain ⟨H, hinv⟩ := reachable_inv h
  exact ⟨_, _, hinv.brkHeap, hinv.repr.freeLists⟩

theorem free_lists_run : ∃ w, start.run [.malloc 24, .malloc 1000, .free 0x20020] = some w ∧
    ∃ cs bins, BrkHeap w cs ∧ FreeLists w.state cs bins := by
  obtain ⟨w, hw, hr, -⟩ := start_run [.malloc 24, .malloc 1000, .free 0x20020]
    (fun _ => true) (by decide +kernel)
  exact ⟨w, hw, free_lists hr⟩

/-! ## Coalescing

When nothing is held, one free chunk is left, as two would be neighbours. -/

theorem Repr.isChain (h : Repr s H) (hco : Coalesced H.chunks) :
    (H.chunks.map Chunk.addr).IsChain fun c d => ¬(FreeChunk s c ∧ FreeChunk s d) := by
  have key : ∀ l : List Chunk, (∀ c ∈ l, c ∈ H.chunks) → Coalesced l →
      (l.map Chunk.addr).IsChain fun c d => ¬(FreeChunk s c ∧ FreeChunk s d) := by
    intro l
    induction l with
    | nil => exact fun _ _ => List.isChain_nil
    | cons c l ih =>
        intro hl hco
        obtain ⟨hhead, htail⟩ := List.isChain_cons.mp hco
        refine List.isChain_cons.mpr ⟨?_, ih (fun d hd => hl d (by simp [hd])) htail⟩
        intro a ha
        rw [List.head?_map, Option.mem_def, Option.map_eq_some_iff] at ha
        obtain ⟨d, hd, rfl⟩ := ha
        have hdm : d ∈ l := List.mem_of_head? hd
        rw [h.freeChunk_iff (hl c (by simp)), h.freeChunk_iff (hl d (by simp [hdm]))]
        exact hhead d hd
  exact key _ (fun _ hc => hc) hco

/-- A coalesced heap without a chunk in use is a single chunk. -/
theorem Coalesced.eq_singleton {l : List Chunk} (hco : Coalesced l) (hne : l ≠ [])
    (hf : ∀ c ∈ l, c.free = true) : ∃ c, l = [c] := by
  match l, hne with
  | [c], _ => exact ⟨c, rfl⟩
  | c :: d :: l, _ =>
      have := (List.isChain_cons.mp hco).1 d (by simp)
      simp [hf c (by simp), hf d (by simp)] at this

/-- **Full coalescing.** In every reachable world no two neighbouring chunks are free; and once the
client has freed everything, in whatever order, and the heap has ever been grown, the free lists hold
one chunk, the whole heap. -/
theorem full_coalescing (h : Reachable w) : ∃ cs bins, BrkHeap w cs ∧ FreeLists w.state cs bins ∧
    (cs.IsChain fun c d => ¬(FreeChunk w.state c ∧ FreeChunk w.state d)) ∧
    (w.live = [] → w.state.heapEnd ≠ 0 → ∃ c, cs = [c] ∧ FreeChunk w.state c ∧
      w.state.chunkSize c = w.state.stats.heapBytes - sizeAlign ∧
      ∀ i < 64, bins i = if i = binIndex (w.state.chunkSize c) then [c] else []) := by
  obtain ⟨H, hinv⟩ := reachable_inv h
  refine ⟨_, _, hinv.brkHeap, hinv.repr.freeLists, hinv.repr.isChain hinv.coalesced, ?_⟩
  intro hlive hend
  have hne : H.chunks ≠ [] := fun e => hend (hinv.heapEnd_eq_zero.mpr e)
  -- A chunk in use would be somebody's.
  have hfree : ∀ c ∈ H.chunks, c.free = true := by
    intro c hc
    by_contra hf
    obtain ⟨a, ha, -⟩ := hinv.owned c hc (by simpa using hf)
    simp [hlive] at ha
  -- And two free chunks would be neighbours.
  obtain ⟨c, hc⟩ := hinv.coalesced.eq_singleton hne hfree
  have hcm : c ∈ H.chunks := by simp [hc]
  have hlists := hinv.repr.freeLists
  rw [hc] at hlists ⊢
  refine ⟨c.addr, rfl, (hinv.repr.freeChunk_iff hcm).mpr (hfree c hcm), ?_, ?_⟩
  · obtain ⟨-, -, hbytes⟩ := hinv.repr.grown hne
    have ht := H.tiled
    rw [hc] at ht
    obtain ⟨h₁, h₂, h₃⟩ := ht
    have h₃ : H.lo + c.size = H.hi := h₃
    rw [hinv.repr.chunkSize hcm, hbytes, show H.hi - H.lo + 32 = c.size + 32 by omega, BitVec.ofNat_add,
      sizeAlign, BitVec.add_sub_cancel]
  · intro i hi
    -- The list of its class has that chunk and no other, and the others have none.
    split
    · next hb =>
      have hmem : c.addr ∈ H.bins i := (hlists.member i hi _).mpr
        ⟨by simp, (hinv.repr.freeChunk_iff hcm).mpr (hfree c hcm), hb.symm⟩
      have hall : ∀ a ∈ H.bins i, a = c.addr := fun a ha => by
        simpa using ((hlists.member i hi a).mp ha).1
      by_contra hne
      obtain ⟨a, ha, hac⟩ := ((H.nodup i).ne_singleton_iff c.addr).mp hne |>.resolve_left
        (List.ne_nil_of_mem hmem)
      exact hac (hall a ha)
    · next hb =>
      refine List.eq_nil_iff_forall_not_mem.mpr fun a ha => hb ?_
      obtain ⟨h₁, -, h₃⟩ := (hlists.member i hi a).mp ha
      rw [List.mem_map] at h₁
      obtain ⟨d, hd, rfl⟩ := h₁
      rw [List.mem_singleton.mp hd] at h₃
      exact h₃.symm

/-- Three allocations, freed from the middle outwards. -/
theorem full_coalescing_run : ∃ w, start.run [.malloc 24, .malloc 1000, .malloc 50000, .free 0x20060,
      .free 0x20020, .free 0x21000] = some w ∧
    ∃ cs bins c, BrkHeap w cs ∧ FreeLists w.state cs bins ∧ cs = [c] ∧
      w.state.chunkSize c = w.state.stats.heapBytes - sizeAlign ∧
      ∀ i < 64, bins i = if i = binIndex (w.state.chunkSize c) then [c] else [] := by
  obtain ⟨w, hw, hr, hc⟩ := start_run [.malloc 24, .malloc 1000, .malloc 50000, .free 0x20060,
    .free 0x20020, .free 0x21000] (fun w => w.live = [] ∧ w.state.heapEnd ≠ 0)
    (by decide +kernel)
  simp only [decide_eq_true_eq] at hc
  obtain ⟨cs, bins, h₁, h₂, -, h₃⟩ := full_coalescing hr
  obtain ⟨c, h₄, -, h₅, h₆⟩ := h₃ hc.1 hc.2
  exact ⟨w, hw, cs, bins, c, h₁, h₂, h₄, h₅, h₆⟩

/-! ## Allocation safety

Memory is a function of word addresses, while the client counts bytes. A byte is kept when the word
it is in is kept. -/

/-- The byte at `x`, in the little-endian word it is part of. -/
def State.byte (s : State) (x : Nat) : BitVec 8 :=
  (s.mem (x - x % 8)).extractLsb' (8 * (x % 8)) 8

/-- The range lies in memory the process was granted: the pages of the break (up to the break itself
when it is page-aligned), or a mapping. -/
def Granted (w : World) (a : Alloc) : Prop :=
  pageUp w.brk0 ≤ a.ptr ∧ a.ptr + a.size ≤ pageUp w.state.brk ∧
      (w.brk0 % 4096 = 0 → a.ptr + a.size ≤ w.state.brk) ∨
    ∃ m ∈ w.state.maps, m.1 ≤ a.ptr ∧ a.ptr + a.size ≤ m.1 + m.2.toNat

/-- The range of an allocation is its own. -/
structure Safe (w : World) (cs : List Nat) (a : Alloc) : Prop where
  aligned : a.ptr % 32 = 0
  granted : Granted w a
  live : ∀ b ∈ w.live, b ≠ a → ∀ x, a.Has x → ¬b.Has x
  header : ∀ c ∈ cs, ∀ x, a.Has x → ¬(c ≤ x ∧ x < c + 16)
  sentinel : w.state.heapEnd ≠ 0 → ∀ x, a.Has x → ¬(w.state.heapEnd - 16 ≤ x ∧ x < w.state.heapEnd)
  mapped : ∀ m ∈ w.state.maps, ∀ x, a.Has x → ¬(m.1 + 16 ≤ x ∧ x < m.1 + 32)
  free : ∀ c ∈ cs, FreeChunk w.state c → ∀ x, a.Has x → ¬(c ≤ x ∧ x < w.state.nextChunk c)

theorem Inv.granted (h : Inv w H) (ha : a ∈ w.live) : Granted w a := by
  rcases h.placed a ha with ⟨c, hc⟩ | ⟨m, hm⟩
  · left
    have hcb := H.tiled.bounds hc.mem
    have hend := h.atBreak.grown (List.ne_nil_of_mem hc.mem)
    have hstart := h.start
    have hp := hc.ptr
    have hf := hc.fits
    refine ⟨by omega, by omega, fun h0 => ?_⟩
    have hmod := h.brk_mod
    have : pageUp w.state.brk = w.state.brk := by
      simp only [pageUp]
      omega
    omega
  · right
    have hp := hm.ptr
    have hf := hm.fits
    exact ⟨m, hm.mem, by omega, by omega⟩

/-- Two allocations are apart. -/
theorem Inv.apart (h : Inv w H) (ha : a ∈ w.live) (hb : b ∈ w.live) (hne : b ≠ a) (hx : a.Has x) :
    ¬b.Has x := by
  rintro ⟨h₃, h₄⟩
  obtain ⟨h₁, h₂⟩ := hx
  -- Both in the heap, one of them, or both in mappings.
  rcases h.placed a ha with ⟨c, hc⟩ | ⟨m, hm⟩ <;> rcases h.placed b hb with ⟨d, hd⟩ | ⟨k, hk⟩
  · have := hc.ptr
    have := hc.fits
    have := hd.ptr
    have := hd.fits
    rcases H.tiled.apart hc.mem hd.mem with rfl | h' | h'
    · exact hne (h.ptr_inj hb ha (hd.ptr.trans hc.ptr.symm))
    · omega
    · omega
  · have := hc.ptr
    have := hc.fits
    have := hk.ptr
    have := hk.fits
    have := H.tiled.bounds hc.mem
    have := h.space.heap_apart h.atBreak h.start h.brk0_le hk.mem (List.ne_nil_of_mem hc.mem)
    omega
  · have := hm.ptr
    have := hm.fits
    have := hd.ptr
    have := hd.fits
    have := H.tiled.bounds hd.mem
    have := h.space.heap_apart h.atBreak h.start h.brk0_le hm.mem (List.ne_nil_of_mem hd.mem)
    omega
  · have := hm.ptr
    have := hm.fits
    have := hk.ptr
    have := hk.fits
    have hkm : k ≠ m := by
      rintro rfl
      exact hne (h.ptr_inj hb ha (hk.ptr.trans hm.ptr.symm))
    have hap := h.space.maps_apart hk.mem hm.mem hkm
    simp only [Apart] at hap
    omega

theorem Inv.safe (h : Inv w H) (ha : a ∈ w.live) : Safe w (H.chunks.map Chunk.addr) a := by
  refine ⟨h.aligned ha, h.granted ha, fun b hb hne x hx => h.apart ha hb hne hx, ?_, ?_, ?_, ?_⟩
  · intro c' hc' x hx
    obtain ⟨c, hc, rfl⟩ := List.mem_map.mp hc'
    exact (h.payload_kept ha hx).not_header hc
  · -- The word behind the last chunk is the sentinel's header.
    intro hend x hx
    have hne : H.chunks ≠ [] := fun e => hend (h.heapEnd_eq_zero.mpr e)
    have hlast := (h.repr.grown hne).1
    rcases List.eq_nil_or_concat H.chunks with e | ⟨l, c, e⟩
    · exact absurd e hne
    have hc : c ∈ H.chunks := by simp [e]
    have ht := H.tiled
    rw [e, List.concat_eq_append] at ht
    have hhi : c.addr + c.size = H.hi := (tiled_split.mp ht).2.2
    have := (h.payload_kept ha hx).not_next hc
    omega
  · exact fun m hm x hx => h.payload_not_mapped ha hm hx
  · intro c' hc' hf x hx
    obtain ⟨c, hc, rfl⟩ := List.mem_map.mp hc'
    rw [h.repr.nextChunk hc]
    exact (h.payload_kept ha hx).not_free hc ((h.repr.freeChunk_iff hc).mp hf)

/-- A call that does not free the allocation does not write a byte of it. -/
theorem Inv.call_byte (h : Inv w H) (hc : Call w w') (ha : a ∈ w.live) (ha' : a ∈ w'.live)
    (hx : a.Has x) : w'.state.byte x = w.state.byte x := by
  have hword : a.Has (x - x % 8) := by
    have := h.aligned ha
    obtain ⟨h₁, h₂⟩ := hx
    exact ⟨by omega, by omega⟩
  suffices hsame : SameIn a w.state w'.state by
    rw [State.byte, hsame _ hword, State.byte]
  cases hc with
  | malloc n hsys hret hspace => exact (h.malloc hsys hret hspace).2 a ha
  | free b hb hret =>
      obtain ⟨s', H', h₁, -, h₃⟩ := h.free hb
      rw [hret] at h₁
      cases h₁
      exact h₃ a ha'
  | freeNull hret =>
      rw [muslFree, if_pos rfl] at hret
      cases hret
      exact fun _ _ => rfl

/-- **Allocation safety.** In every reachable world no pointer is held twice, and every allocation is
aligned, lies in granted memory and overlaps neither another one nor a header nor a free chunk; and no
call leaves a byte of it changed before it is freed. -/
theorem allocation_safe (h : Reachable w) : (w.live.map Alloc.ptr).Nodup ∧
    ∃ cs, BrkHeap w cs ∧ ∀ a ∈ w.live, Safe w cs a ∧
      ∀ w', Call w w' → a ∈ w'.live → ∀ x, a.Has x → w'.state.byte x = w.state.byte x := by
  obtain ⟨H, hinv⟩ := reachable_inv h
  exact ⟨hinv.nodup, _, hinv.brkHeap,
    fun a ha => ⟨hinv.safe ha, fun _ hc ha' x hx => hinv.call_byte hc ha ha' hx⟩⟩

theorem allocation_safe_run : ∃ w, start.run [.malloc 24, .malloc 1000, .malloc 24, .free 0x20020] = some w ∧
    (w.live.map Alloc.ptr).Nodup ∧ ∃ cs, BrkHeap w cs ∧ Safe w cs ⟨0x20060, 1000⟩ := by
  obtain ⟨w, hw, hr, hc⟩ := start_run [.malloc 24, .malloc 1000, .malloc 24, .free 0x20020]
    (fun w => ⟨0x20060, 1000⟩ ∈ w.live) (by decide +kernel)
  obtain ⟨hnodup, cs, h₁, h₂⟩ := allocation_safe hr
  exact ⟨w, hw, hnodup, cs, h₁, (h₂ _ (of_decide_eq_true hc)).1⟩

end MmExper.Musl
