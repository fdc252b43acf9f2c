import MmExper.Musl.FreeList
import MmExper.Musl.Heap

/-!
# The heap in memory

`Repr s H` says that the state `s` stores the heap `H`: every size word stands twice, in the header
of its chunk and in the next header (`Tags`), the free lists are the rings of `FreeList.lean`, and
the statistics count what they name. Each of the three changes of a `Heap` has one lemma here saying
that the code which makes it leads from a state that stores the heap to one that stores the changed
heap, and leaves every word alone that the allocator does not own (`Kept`).
-/

namespace MmExper.Musl

open Bitwise Lib

/-! ## Size words

The masks of the source on a size word: `& -2` gives the size, `& 1` the flag, and `| C_INUSE` is
the word of the same chunk in use. It takes a size that is a multiple of 32. -/

namespace Chunk

variable {c : Chunk}

theorem tag_and_neg_two (h : c.size % 32 = 0) : c.tag &&& -2#64 = BitVec.ofNat 64 c.size := by
  have heven : (BitVec.ofNat 64 c.size).toNat % 2 = 0 := by
    rw [BitVec.toNat_ofNat]
    omega
  have hself : BitVec.ofNat 64 c.size &&& -2#64 = BitVec.ofNat 64 c.size := by
    apply BitVec.eq_of_toNat_eq
    rw [show -2#64 = ~~~1#64 from rfl, toNat_and_not_one (by omega), heven, Nat.sub_zero]
  unfold tag
  split
  · exact hself
  · rw [or_cInuse_and_neg_two, hself]

/-- `C_INUSE` is clear exactly in the size word of a free chunk. -/
theorem tag_and_one (h : c.size % 32 = 0) : c.tag &&& 1#64 = 0#64 ↔ c.free = true := by
  have heven : (BitVec.ofNat 64 c.size).toNat % 2 = 0 := by
    rw [BitVec.toNat_ofNat]
    omega
  rw [← BitVec.toNat_inj, toNat_and_one (by omega)]
  unfold tag
  split
  · next e =>
    simp only [e, iff_true]
    simpa using heven
  · next e =>
    rw [toNat_or_one (by omega) heven]
    simp only [e]
    simp
    omega

theorem tag_or_one : c.tag ||| 1#64 = c.used.tag := by
  unfold tag
  simp only [used_free, used_size]
  split
  · rfl
  · simp [BitVec.or_assoc]

end Chunk

/-! ## Boundary tags

Every size word stands twice. `Tags` reads both copies, and `Tags.replace` is the one place where
a write of new size words is checked against it: what is outside the replaced segment stays as it
was. -/

/-- Every size word stands in its chunk and behind it, from an in-use mark below the first chunk to
the zero-size in-use sentinel at `hi`. -/
structure Tags (s : State) (lo hi : Nat) (cs : List Chunk) : Prop where
  csize : ∀ c ∈ cs, s.csize c.addr = c.tag
  psize : ∀ c ∈ cs, s.psize (c.addr + c.size) = c.tag
  first : s.psize lo = 0#64 ||| cInuse
  last : s.csize hi = 0#64 ||| cInuse

/-- The word is a header word of a chunk or of the sentinel. -/
def Header (H : Heap) (w : Nat) : Prop := H.lo ≤ w ∧ w ≤ H.hi + 8 ∧ (w % 32 = 16 ∨ w % 32 = 24)

theorem Tags.congr {s s' : State} {H : Heap} (h : Tags s H.lo H.hi H.chunks)
    (hw : ∀ w, Header H w → s'.mem w = s.mem w) : Tags s' H.lo H.hi H.chunks := by
  have hal := H.align
  have hle := H.tiled.le
  have hhi := H.hi_align
  refine ⟨?_, ?_, ?_, ?_⟩
  · intro c hc
    have := H.tiled.bounds hc
    have := H.addr_align hc
    rw [State.csize, hw _ ⟨by omega, by omega, by omega⟩]
    exact h.csize c hc
  · intro c hc
    have := H.tiled.bounds hc
    have := H.addr_align hc
    have := H.granular c hc
    rw [State.psize, hw _ ⟨by omega, by omega, by omega⟩]
    exact h.psize c hc
  · rw [State.psize, hw _ ⟨by omega, by omega, by omega⟩]
    exact h.first
  · rw [State.csize, hw _ ⟨by omega, by omega, by omega⟩]
    exact h.last

/-- **Rewriting a segment.** The tags of the chunks before and after stay; those of the new pieces
have to be there. -/
theorem Tags.replace {s s' : State} {H : Heap} {l r : List Chunk} {a b : Nat}
    (h : Tags s H.lo H.hi H.chunks) (old new : List Chunk) (hch : H.chunks = l ++ (old ++ r))
    (hl : Tiled Chunk.addr Chunk.size H.lo a l) (hr : Tiled Chunk.addr Chunk.size b H.hi r)
    (hab : a ≤ b) (hframe : ∀ w, Header H w → w ≤ a ∨ b < w → s'.mem w = s.mem w)
    (hnew : ∀ c ∈ new, s'.csize c.addr = c.tag ∧ s'.psize (c.addr + c.size) = c.tag) :
    Tags s' H.lo H.hi (l ++ (new ++ r)) := by
  have hal := H.align
  have hhi := H.hi_align
  have hla := hl.le
  have hrb := hr.le
  -- The two tag words of a chunk outside the segment.
  have hside : ∀ c, c ∈ l ∨ c ∈ r → s'.csize c.addr = c.tag ∧ s'.psize (c.addr + c.size) = c.tag := by
    intro c hc
    have hcH : c ∈ H.chunks := by rw [hch]; grind
    have hcb := H.tiled.bounds hcH
    have hsz := H.size_ge hcH
    have hgr := H.granular c hcH
    have hca := H.addr_align hcH
    have hside : c.addr + c.size ≤ a ∨ b ≤ c.addr := by
      rcases hc with hc | hc
      · exact Or.inl (hl.bounds hc).2.2
      · exact Or.inr (hr.bounds hc).1
    constructor
    · rw [State.csize, hframe _ ⟨by omega, by omega, by omega⟩ (by omega)]
      exact h.csize c hcH
    · rw [State.psize, hframe _ ⟨by omega, by omega, by omega⟩ (by omega)]
      exact h.psize c hcH
  have hall : ∀ c ∈ l ++ (new ++ r), s'.csize c.addr = c.tag ∧ s'.psize (c.addr + c.size) = c.tag := by
    intro c hc
    rcases List.mem_append.mp hc with hc | hc
    · exact hside c (Or.inl hc)
    rcases List.mem_append.mp hc with hc | hc
    · exact hnew c hc
    · exact hside c (Or.inr hc)
  refine ⟨fun c hc => (hall c hc).1, fun c hc => (hall c hc).2, ?_, ?_⟩
  · rw [State.psize, hframe _ ⟨by omega, by omega, by omega⟩ (by omega)]
    exact h.first
  · rw [State.csize, hframe _ ⟨by omega, by omega, by omega⟩ (by omega)]
    exact h.last

/-! ## The representation

`Kept` are the words that a step leaves alone: those outside `mal`, the headers and the free chunks.
The lemmas below say of one such word that it is none of those that the functions write. -/

def Heap.freeBytes (H : Heap) : Nat := ((H.chunks.filter (·.free)).map Chunk.size).sum

/-- The state stores the heap. Before the first growth there is no chunk, and `lo` is where the first
one will be. -/
structure Repr (s : State) (H : Heap) : Prop where
  lists : Lists s H.bins
  tags : H.chunks ≠ [] → Tags s H.lo H.hi H.chunks
  above : s.mal + State.malSize ≤ H.lo
  empty : H.chunks = [] → s.heapEnd = 0 ∧ s.storedBrk = 0#64 ∧ s.stats.heapBytes = 0#64
  grown : H.chunks ≠ [] → s.heapEnd = H.hi + 16 ∧ s.storedBrk = BitVec.ofNat 64 (H.hi + 16) ∧
    s.stats.heapBytes = BitVec.ofNat 64 (H.hi - H.lo + 32)
  free : s.stats.freeBytes = BitVec.ofNat 64 H.freeBytes ∧
    s.stats.freeBlockBytes = BitVec.ofNat 64 H.freeBytes

/-- The word belongs to nobody or to the client: it is outside `mal` and outside the heap, if there is
one yet, or in the payload of a chunk in use. -/
def Kept (mal : Nat) (H : Heap) (w : Nat) : Prop :=
  ¬InMal mal w ∧ (H.chunks ≠ [] → w < H.lo ∨ H.hi + 16 ≤ w ∨
    ∃ d ∈ H.chunks, d.free = false ∧ d.addr + 16 ≤ w ∧ w < d.addr + d.size)

/-- The words the representation depends on: `mal`, the headers, and the links of free chunks. -/
def Bookkeeping (mal : Nat) (H : Heap) (w : Nat) : Prop :=
  InMal mal w ∨ ∃ d ∈ H.chunks, (d.addr ≤ w ∧ w < d.addr + if d.free then 32 else 16) ∨
    (d.addr + d.size ≤ w ∧ w < d.addr + d.size + 16)

section Kept

variable {mal w : Nat} {H : Heap} {c : Chunk}

/-- The client's words are not in a header. -/
theorem Kept.not_header (h : Kept mal H w) (hc : c ∈ H.chunks) : ¬(c.addr ≤ w ∧ w < c.addr + 16) := by
  have hcb := H.tiled.bounds hc
  have hsz := H.size_ge hc
  rintro ⟨h₁, h₂⟩
  rcases h.2 (List.ne_nil_of_mem hc) with h' | h' | ⟨d, hd, -, h₃, h₄⟩
  · omega
  · omega
  · rcases H.tiled.apart hc hd with rfl | h' | h' <;> omega

/-- Nor in a free chunk. -/
theorem Kept.not_free (h : Kept mal H w) (hc : c ∈ H.chunks) (hf : c.free = true) :
    ¬(c.addr ≤ w ∧ w < c.addr + c.size) := by
  have hcb := H.tiled.bounds hc
  rintro ⟨h₁, h₂⟩
  rcases h.2 (List.ne_nil_of_mem hc) with h' | h' | ⟨d, hd, hdf, h₃, h₄⟩
  · omega
  · omega
  · rcases H.tiled.apart hc hd with rfl | h' | h'
    · simp [hf] at hdf
    · omega
    · omega

/-- Nor in the header behind a chunk, be it a chunk's or the sentinel's. -/
theorem Kept.not_next (h : Kept mal H w) (hc : c ∈ H.chunks) :
    ¬(c.addr + c.size ≤ w ∧ w < c.addr + c.size + 16) := by
  have hcb := H.tiled.bounds hc
  rintro ⟨h₁, h₂⟩
  by_cases he : c.addr + c.size = H.hi
  · rcases h.2 (List.ne_nil_of_mem hc) with h' | h' | ⟨d, hd, -, h₃, h₄⟩
    · omega
    · omega
    · have := H.tiled.bounds hd
      omega
  · obtain ⟨d, hd, h₃, h₄⟩ := H.tiled.covers (x := c.addr + c.size) (by omega) (by omega)
    have hdb := H.tiled.bounds hd
    rcases H.tiled.apart hc hd with rfl | h' | h'
    · omega
    · exact h.not_header hd ⟨by omega, by omega⟩
    · omega

theorem Kept.not_bookkeeping (h : Kept mal H w) : ¬Bookkeeping mal H w := by
  rintro (hm | ⟨d, hd, hh | hh⟩)
  · exact h.1 hm
  · have hsz := H.size_ge hd
    split at hh
    · next hf => exact h.not_free hd hf ⟨hh.1, by omega⟩
    · exact h.not_header hd hh
  · exact h.not_next hd hh

/-- Nor is it a link of a node of some list. -/
theorem Kept.ne_link (h : Kept mal H w) {j x : Nat} (hj : j < 64)
    (hx : x ∈ (mal + 24 * j) :: H.bins j) : w ≠ x + 16 ∧ w ≠ x + 24 := by
  have hsize : State.malSize = 1552 := rfl
  rcases List.mem_cons.mp hx with rfl | hx
  · have := h.1
    simp only [InMal] at this
    omega
  · obtain ⟨d, hd, rfl, hdf, -⟩ := (H.mem_bins j x).mp hx
    have := h.not_free hd hdf
    have := H.size_ge hd
    omega

end Kept

namespace Repr

variable {s : State} {H : Heap} {c : Chunk} {i w : Nat} {l r old new : List Chunk} {f : Chunk}

theorem chunkSize (h : Repr s H) (hc : c ∈ H.chunks) :
    s.chunkSize c.addr = BitVec.ofNat 64 c.size := by
  have ht := h.tags (List.ne_nil_of_mem hc)
  rw [State.chunkSize, ht.csize c hc, Chunk.tag_and_neg_two (H.granular c hc)]

theorem toNat_chunkSize (h : Repr s H) (hc : c ∈ H.chunks) : (s.chunkSize c.addr).toNat = c.size := by
  rw [h.chunkSize hc, H.toNat_size hc]

/-- The sizes read from the headers. -/
theorem map_chunkSize (h : Repr s H) (hl : ∀ c ∈ l, c ∈ H.chunks) :
    (l.map Chunk.addr).map (fun c => (s.chunkSize c).toNat) = l.map Chunk.size := by
  rw [List.map_map]
  apply List.map_congr_left
  intro c hc
  exact h.toNat_chunkSize (hl c hc)

theorem nextChunk (h : Repr s H) (hc : c ∈ H.chunks) : s.nextChunk c.addr = c.addr + c.size := by
  rw [State.nextChunk, h.toNat_chunkSize hc]

/-- A chunk in use is not taken for a mapping. -/
theorem isMmapped (h : Repr s H) (hc : c ∈ H.chunks) (hf : c.free = false) :
    s.isMmapped c.addr = false := by
  rw [State.isMmapped, (h.tags (List.ne_nil_of_mem hc)).csize c hc, decide_eq_false_iff_not, cInuse,
    Chunk.tag_and_one (H.granular c hc), hf]
  exact Bool.false_ne_true

theorem chunkAddr (h : Repr s H) (hc : c ∈ H.chunks) : ChunkAddr s.mal c.addr := by
  have := H.tiled.bounds hc
  have := H.bound
  have := h.above
  have := H.size_ge hc
  exact ⟨H.addr_align hc, by omega, by omega⟩

/-- The header words are not words of `mal`. -/
theorem header_notMal (h : Repr s H) (hw : Header H w) : ¬InMal s.mal w := by
  have := h.above
  have := hw.1
  simp only [InMal]
  omega

/-- Nor are they links of a list member. -/
theorem header_ne_link (h : Repr s H) (hw : Header H w) {j x : Nat} (hj : j < 64)
    (hx : x ∈ (s.mal + 24 * j) :: H.bins j) : w ≠ x + 16 ∧ w ≠ x + 24 := by
  have hsize : State.malSize = 1552 := rfl
  obtain ⟨h₁, h₂, h₃⟩ := hw
  have hab := h.above
  rcases List.mem_cons.mp hx with rfl | hx
  · omega
  · have := (h.lists.chunk j hj x hx).align
    omega

/-- Only the bookkeeping matters. -/
theorem outside {s' : State} (h : Repr s H) (hmal : s'.mal = s.mal) (hend : s'.heapEnd = s.heapEnd)
    (hbrk : s'.storedBrk = s.storedBrk) (hheap : s'.stats.heapBytes = s.stats.heapBytes)
    (hfree : s'.stats.freeBytes = s.stats.freeBytes)
    (hblock : s'.stats.freeBlockBytes = s.stats.freeBlockBytes)
    (hw : ∀ w, Bookkeeping s.mal H w → s'.mem w = s.mem w) : Repr s' H := by
  -- The headers, and the two words behind a chunk, are all there is to be read.
  have hheader : ∀ d ∈ H.chunks, ∀ w, d.addr ≤ w → w < d.addr + 16 → s'.mem w = s.mem w := by
    intro d hd w h₁ h₂
    refine hw w (Or.inr ⟨d, hd, Or.inl ⟨h₁, ?_⟩⟩)
    split <;> omega
  have hnext : ∀ d ∈ H.chunks, ∀ w, d.addr + d.size ≤ w → w < d.addr + d.size + 16 →
      s'.mem w = s.mem w :=
    fun d hd w h₁ h₂ => hw w (Or.inr ⟨d, hd, Or.inr ⟨h₁, h₂⟩⟩)
  refine ⟨?_, ?_, by rw [hmal]; exact h.above, ?_, ?_, ?_⟩
  · -- The links are in free chunks.
    refine h.lists.congr hmal (fun w hm => hw w (Or.inl hm)) fun j hj a ha => ?_
    obtain ⟨d, hd, rfl, hf, -⟩ := (H.mem_bins j a).mp ha
    exact ⟨hw _ (Or.inr ⟨d, hd, Or.inl ⟨by omega, by rw [if_pos hf]; omega⟩⟩),
      hw _ (Or.inr ⟨d, hd, Or.inl ⟨by omega, by rw [if_pos hf]; omega⟩⟩)⟩
  · intro hne
    obtain ⟨h₁, h₂, h₃, h₄⟩ := h.tags hne
    refine ⟨fun d hd => ?_, fun d hd => ?_, ?_, ?_⟩
    · rw [State.csize, hheader d hd _ (by omega) (by omega)]
      exact h₁ d hd
    · rw [State.psize, hnext d hd _ (by omega) (by omega)]
      exact h₂ d hd
    · -- The first sentinel is the footer word of the first chunk, the last one its neighbour's header.
      obtain ⟨d, cs, he⟩ := List.exists_cons_of_ne_nil hne
      have ht := H.tiled
      rw [he] at ht
      have hlo : d.addr = H.lo := ht.1
      rw [State.psize, hheader d (by simp [he]) _ (by omega) (by omega)]
      exact h₃
    · rcases List.eq_nil_or_concat H.chunks with he | ⟨cs, d, he⟩
      · exact absurd he hne
      have ht := H.tiled
      rw [he, List.concat_eq_append] at ht
      have hhi : d.addr + d.size = H.hi := (tiled_split.mp ht).2.2
      rw [State.csize, hnext d (by simp [he]) _ (by omega) (by omega)]
      exact h₄
  · rw [hend, hbrk, hheap]
    exact h.empty
  · rw [hend, hbrk, hheap]
    exact h.grown
  · rw [hfree, hblock]
    exact h.free

/-! ### Initialising a bin -/

theorem lockBin (h : Repr s H) (hi : i < 64) :
    Repr (lockBin i s) H ∧ (lockBin i s).head i ≠ 0 ∧
      ∀ w, ¬InMal s.mal w → (lockBin i s).mem w = s.mem w := by
  obtain ⟨hl, hset⟩ := h.lists.lockBin hi
  have hmem : ∀ w, ¬InMal s.mal w → (Musl.lockBin i s).mem w = s.mem w := fun w hw =>
    lockBin_mem hi hw
  have hv : (Musl.lockBin i s).toVars = s.toVars := lockBin_toVars
  refine ⟨⟨hl, ?_, ?_, ?_, ?_, ?_⟩, hset, hmem⟩
  · intro hne
    exact (h.tags hne).congr fun w hw => hmem w (h.header_notMal hw)
  · rw [hv]
    exact h.above
  · rw [hv, lockBin_stats]
    exact h.empty
  · rw [hv, lockBin_stats]
    exact h.grown
  · rw [lockBin_stats]
    exact h.free

/-! ### Taking a chunk -/

/-- `unbin` writes no word of the client, and of the headers only the two copies of the chunk's size
word. -/
theorem unbin_mem (h : Repr s H) (hc : c ∈ H.chunks) (hf : c.free = true) (hset : s.head c.bin ≠ 0)
    (hw : ¬InMal s.mal w) (hsort : Kept s.mal H w ∨
      (w % 32 = 16 ∨ w % 32 = 24) ∧ w ≠ c.addr + 8 ∧ w ≠ c.addr + c.size) :
    (unbin c.addr c.bin s).mem w = s.mem w := by
  have hi := H.bin_lt hc
  have hcsn := h.toNat_chunkSize hc
  obtain ⟨xs, ys, hb⟩ := List.append_of_mem ((H.mem_bins_addr hc c.bin).mpr ⟨hf, rfl⟩)
  obtain ⟨hp, hn, -, -, -, -⟩ := h.lists.neighbours hi hset hb
  have hp' : s.prev c.addr ∈ (s.mal + 24 * c.bin) :: H.bins c.bin := by rw [hb]; grind
  have hn' : s.next c.addr ∈ (s.mal + 24 * c.bin) :: H.bins c.bin := by rw [hb]; grind
  have hlink : ∀ x ∈ (s.mal + 24 * c.bin) :: H.bins c.bin, w ≠ x + 16 ∧ w ≠ x + 24 := by
    intro x hx
    rcases hsort with hk | ⟨hal, -⟩
    · exact hk.ne_link hi hx
    rcases List.mem_cons.mp hx with rfl | hx
    · exact ⟨fun e => hw (e ▸ inMal_head hi), fun e => hw (e ▸ inMal_tail hi)⟩
    · have := (h.lists.chunk _ hi x hx).align
      omega
  have hown : w ≠ c.addr + 8 ∧ w ≠ c.addr + c.size := by
    rcases hsort with hk | ⟨-, h₁⟩
    · have h₁ := hk.not_header hc
      have h₂ := hk.not_next hc
      omega
    · exact h₁
  rw [h.lists.unbin_eq hi hset hb (by rw [hcsn]; exact H.granular c hc)]
  exact unbinMem_of_ne (fun e => hw (e ▸ inMal_binmap _)) (hlink _ hp').1 (hlink _ hn').2 hown.1
    (by rw [hcsn]; exact hown.2)

/-- **`unbin` takes a free chunk into use.** -/
theorem unbin (h : Repr s H) (hch : H.chunks = l ++ c :: r) (hf : c.free = true)
    (hset : s.head c.bin ≠ 0) :
    ∃ H', Repr (unbin c.addr c.bin s) H' ∧ H'.lo = H.lo ∧ H'.hi = H.hi ∧
      H'.chunks = l ++ c.used :: r ∧ H'.bins = without H.bins [c.addr] := by
  have hc : c ∈ H.chunks := by simp [hch]
  have hne : H.chunks ≠ [] := List.ne_nil_of_mem hc
  have hi := H.bin_lt hc
  have hsz := H.size_ge hc
  have hcb := H.tiled.bounds hc
  have hca := H.addr_align hc
  have hgr := H.granular c hc
  have htags := h.tags hne
  have hcs : s.chunkSize c.addr = BitVec.ofNat 64 c.size := h.chunkSize hc
  have hcsn := h.toNat_chunkSize hc
  obtain ⟨xs, ys, hb⟩ := List.append_of_mem ((H.mem_bins_addr hc c.bin).mpr ⟨hf, rfl⟩)
  have hlists := h.lists.unbin hi hset hb (by rw [hcsn]; exact hgr)
  have heq := h.lists.unbin_eq hi hset hb (by rw [hcsn]; exact hgr)
  have hv : (Musl.unbin c.addr c.bin s).toVars = s.toVars := unbin_toVars
  -- The two words that change in the tags.
  have hcsize : (Musl.unbin c.addr c.bin s).csize c.addr = c.used.tag := by
    rw [heq, State.csize]
    simp only [unbinMem, hcsn]
    rw [Function.update_of_ne (by omega), Function.update_self, htags.csize c hc, Chunk.tag_or_one]
  have hpsize : (Musl.unbin c.addr c.bin s).psize (c.addr + c.size) = c.used.tag := by
    rw [heq, State.psize]
    simp only [unbinMem, hcsn]
    rw [Function.update_self, htags.psize c hc, Chunk.tag_or_one]
  refine ⟨H.take c l r xs ys hch hb, ⟨hlists, ?_, ?_, ?_, ?_, ?_⟩, rfl, rfl, rfl, Heap.take_bins hch hb⟩
  · intro _
    have ht := H.tiled
    rw [hch] at ht
    obtain ⟨hl, -, hr⟩ := tiled_split.mp ht
    refine htags.replace [c] [c.used] hch hl hr (by omega) ?_ ?_
    · intro w hw hout
      exact h.unbin_mem hc hf hset (h.header_notMal hw)
        (Or.inr ⟨hw.2.2, by omega, by omega⟩)
    · intro d hd
      rw [List.mem_singleton.mp hd]
      exact ⟨hcsize, hpsize⟩
  · rw [hv]
    exact h.above
  · intro he
    simp [Heap.take] at he
  · intro _
    rw [hv, heq]
    exact h.grown hne
  · have hsplit : H.freeBytes = (H.take c l r xs ys hch hb).freeBytes + c.size := by
      simp only [Heap.freeBytes, Heap.take, hch, List.filter_append, List.filter_cons, hf,
        Chunk.used_free]
      simp
      omega
    obtain ⟨h₁, h₂⟩ := h.free
    rw [heq]
    simp only [State.subFree, h₁, h₂, hsplit, hcs, BitVec.ofNat_add, BitVec.add_sub_cancel, and_self]

/-! ### Putting a chunk -/

theorem freeBytes_put (p : H.Puts l old new r f) : (H.put p).freeBytes = H.freeBytes + f.size := by
  have hold : old.filter (·.free) = [] := List.filter_eq_nil_iff.mpr fun d hd => by
    simp [p.old_used d hd]
  have hnew : new.filter (·.free) = [] := List.filter_eq_nil_iff.mpr fun d hd => by
    simp [p.new_used d hd]
  simp only [Heap.freeBytes, Heap.put, p.chunks, List.filter_append, List.filter_cons, hold, hnew,
    p.free]
  simp
  omega

/-- **`bin_chunk` puts a free chunk in the place of used ones**, once the size words of the new
pieces are written. `s₀` is the state before they were. -/
theorem binChunk {s₀ : State} (h : Repr s₀ H) (p : H.Puts l old new r f) (hv : s.toVars = s₀.toVars)
    (hstats : s.stats = s₀.stats) (hl : Lists s H.bins) (hset : s.head f.bin ≠ 0)
    (htags : Tags s H.lo H.hi (l ++ (new ++ f :: r))) :
    Repr (binChunk f.addr f.bin s) (H.put p) ∧ ∀ w, ¬InMal s.mal w →
      Kept s.mal (H.put p) w ∨ w % 32 = 16 ∨ w % 32 = 24 →
        (binChunk f.addr f.bin s).mem w = s.mem w := by
  have hne : H.chunks ≠ [] := by
    intro he
    have hlen := congrArg List.length p.chunks
    have hold : old = [] := by
      rw [he] at hlen
      simp only [List.length_nil, List.length_append] at hlen
      exact List.eq_nil_of_length_eq_zero (by omega)
    have hseg := p.seg 0 0 (by rw [hold]; rfl)
    have := hseg.bounds (c := f) (by simp)
    omega
  have hf : f ∈ (H.put p).chunks := by simp [Heap.put]
  have hfc : f ∈ l ++ (new ++ f :: r) := by simp
  have hi := (H.put p).bin_lt hf
  have hab : s.mal + State.malSize ≤ (H.put p).lo := by
    rw [hv]
    exact h.above
  have hfa : ChunkAddr s.mal f.addr := by
    have := (H.put p).tiled.bounds hf
    have := (H.put p).bound
    have := (H.put p).size_ge hf
    exact ⟨(H.put p).addr_align hf, by omega, by omega⟩
  have hfresh : ∀ j < 64, f.addr ∉ H.bins j := fun j _ => p.fresh j
  have hcs : s.chunkSize f.addr = BitVec.ofNat 64 f.size := by
    rw [State.chunkSize, htags.csize f hfc, Chunk.tag_and_neg_two ((H.put p).granular f hf)]
  obtain ⟨htm, -, -⟩ := hl.tail_spec hi hset hfa hfresh
  have heq := hl.binChunk_eq hi hset hfa hfresh
  have hlists := hl.binChunk hi hset hfa hfresh
  have hv' : (Musl.binChunk f.addr f.bin s).toVars = s₀.toVars := binChunk_toVars.trans hv
  -- Only links and `binmap` are written.
  have hmem : ∀ w, ¬InMal s.mal w → w ≠ f.addr + 16 → w ≠ f.addr + 24 → w ≠ s.tail f.bin + 16 →
      (Musl.binChunk f.addr f.bin s).mem w = s.mem w := by
    intro w h₁ h₂ h₃ h₄
    rw [heq]
    exact binChunkMem_of_ne (fun e => h₁ (e ▸ inMal_binmap _)) h₂ h₃
      (fun e => h₁ (e ▸ inMal_tail hi)) h₄
  have hheader : ∀ w, ¬InMal s.mal w → w % 32 = 16 ∨ w % 32 = 24 →
      (Musl.binChunk f.addr f.bin s).mem w = s.mem w := by
    intro w hmalw hw
    have hfal := hfa.align
    refine hmem w hmalw (by omega) (by omega) ?_
    rcases List.mem_cons.mp htm with e | hm
    · rw [e]
      intro e'
      exact hmalw (e' ▸ inMal_head hi)
    · have := (hl.chunk _ hi _ hm).align
      omega
  refine ⟨⟨hlists, ?_, ?_, ?_, ?_, ?_⟩, ?_⟩
  · intro _
    refine Tags.congr (H := H.put p) htags fun w hw => ?_
    obtain ⟨hw₁, hw₂, hw₃⟩ := hw
    have hmalw : ¬InMal s.mal w := by
      simp only [InMal]
      omega
    exact hheader w hmalw hw₃
  · rw [hv']
    exact h.above
  · intro he
    simp [Heap.put] at he
  · intro _
    rw [hv', heq]
    simp only [State.addFree, hstats]
    exact h.grown hne
  · obtain ⟨h₁, h₂⟩ := h.free
    rw [heq]
    simp only [State.addFree, hstats, h₁, h₂, hcs, freeBytes_put, BitVec.ofNat_add, and_self]
  · rintro w hw (hk | hal)
    · have hfree := hk.not_free hf p.free
      have hfsz := (H.put p).size_ge hf
      refine hmem w hw (by omega) (by omega) ?_
      refine (hk.ne_link hi (x := s.tail f.bin) ?_).1
      simp only [Heap.put, Function.update_self]
      grind
    · exact hheader w hw hal

end Repr

end MmExper.Musl
