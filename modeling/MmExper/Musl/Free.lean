import MmExper.Musl.Grow
import Mathlib.Data.List.Chain
import Mathlib.Algebra.BigOperators.Ring.List

/-!
# Freeing a chunk

`__bin_chunk` takes the free neighbours of the chunk into use, writes one size over all of it and
puts the result on the list of that size. The neighbours of the result are in use whenever no two
free chunks were neighbours before, so coalescing one chunk on each side is enough.
-/

namespace MmExper.Musl

open Bitwise Lib

/-! ## Coalescing

`Around` splits the chunks at the one that is freed: `pre` and `post` are its free neighbours, none
or one on each side, and whatever comes next on either side is in use. -/

def Coalesced (cs : List Chunk) : Prop := cs.IsChain fun a b => ¬(a.free = true ∧ b.free = true)

/-- The free neighbours `pre` and `post` of a chunk that stands between `l ++ pre` and `post ++ r`. -/
structure Around (l pre post r : List Chunk) : Prop where
  below : pre = [] ∨ ∃ p, pre = [p] ∧ p.free = true
  above : post = [] ∨ ∃ n, post = [n] ∧ n.free = true
  last : ∀ p ∈ l.getLast?, p.free = false
  next : ∀ n ∈ r.head?, n.free = false

/-- The chunk that takes the place of a freed one and its free neighbours. -/
def merged (pre : List Chunk) (c : Chunk) (post : List Chunk) : Chunk :=
  ⟨c.addr - (pre.map Chunk.size).sum, ((pre ++ c :: post).map Chunk.size).sum, true⟩

variable {s t : State} {H H' : Heap} {c f p n : Chunk} {i w a b : Nat} {size : Word}
  {l r cs pre post old : List Chunk}

theorem Coalesced.exists_around (hco : Coalesced (l ++ c :: r)) :
    ∃ l' pre post r', l = l' ++ pre ∧ r = post ++ r' ∧ Around l' pre post r' := by
  obtain ⟨hl, hr, -⟩ := List.isChain_append.mp hco
  have hr := (List.isChain_cons.mp hr).2
  obtain ⟨l', pre, hlp, hpre, hlast⟩ : ∃ l' pre, l = l' ++ pre ∧
      (pre = [] ∨ ∃ p, pre = [p] ∧ p.free = true) ∧ ∀ p ∈ l'.getLast?, p.free = false := by
    rcases List.eq_nil_or_concat l with rfl | ⟨l', p, rfl⟩
    · exact ⟨[], [], rfl, Or.inl rfl, by simp⟩
    rw [List.concat_eq_append] at hl ⊢
    cases hp : p.free with
    | false => exact ⟨l' ++ [p], [], by simp, Or.inl rfl, by simpa using hp⟩
    | true =>
        refine ⟨l', [p], rfl, Or.inr ⟨p, rfl, hp⟩, fun q hq => ?_⟩
        have := (List.isChain_append.mp hl).2.2 q hq p (by simp)
        simpa [hp] using this
  obtain ⟨post, r', hpr, hpost, hnext⟩ : ∃ post r', r = post ++ r' ∧
      (post = [] ∨ ∃ n, post = [n] ∧ n.free = true) ∧ ∀ n ∈ r'.head?, n.free = false := by
    cases r with
    | nil => exact ⟨[], [], rfl, Or.inl rfl, by simp⟩
    | cons n r' =>
        cases hn : n.free with
        | false => exact ⟨[], n :: r', rfl, Or.inl rfl, by simpa using hn⟩
        | true =>
            refine ⟨[n], r', rfl, Or.inr ⟨n, rfl, hn⟩, fun q hq => ?_⟩
            have := (List.isChain_cons.mp hr).1 q hq
            simpa [hn] using this
  exact ⟨l', pre, post, r', hlp, hpr, hpre, hpost, hlast, hnext⟩

/-- Replacing a chunk and its free neighbours by their union keeps free chunks apart. -/
theorem Coalesced.merge (hco : Coalesced (l ++ (pre ++ c :: (post ++ r)))) (h : Around l pre post r) :
    Coalesced (l ++ f :: r) := by
  obtain ⟨hl, hrest, -⟩ := List.isChain_append.mp hco
  have hr : Coalesced r := by
    have h₁ := (List.isChain_append.mp hrest).2.1
    exact (List.isChain_append.mp (List.isChain_cons.mp h₁).2).2.1
  refine List.isChain_append.mpr ⟨hl, List.isChain_cons.mpr ⟨?_, hr⟩, ?_⟩
  · intro d hd
    simp [h.next d hd]
  · intro d hd e _
    simp [h.last d hd]

/-- Using a free chunk keeps free chunks apart. -/
theorem Coalesced.take (hco : Coalesced (l ++ c :: r)) : Coalesced (l ++ c.used :: r) := by
  obtain ⟨hl, hr, -⟩ := List.isChain_append.mp hco
  refine List.isChain_append.mpr ⟨hl, List.isChain_cons.mpr ⟨?_, (List.isChain_cons.mp hr).2⟩, ?_⟩
  · simp
  · intro d _ e he
    simp only [List.head?_cons, Option.mem_def, Option.some.injEq] at he
    simp [← he]

/-- So does a new chunk in use at the end. -/
theorem Coalesced.extend (hco : Coalesced cs) (hc : c.free = false) : Coalesced (cs ++ [c]) := by
  refine List.isChain_append.mpr ⟨hco, List.isChain_singleton _, ?_⟩
  intro d _ e he
  simp only [List.head?_cons, Option.mem_def, Option.some.injEq] at he
  simp [← he, hc]

/-! ## The neighbours in memory

`__bin_chunk` looks at the size word below its chunk and at the one behind it. By the boundary tags
these are the words of the neighbours, or the sentinel's. -/

/-- The size word below a chunk is that of the chunk before it, or the mark below the first. -/
theorem Repr.psize_self (h : Repr s H) (hch : H.chunks = l ++ c :: r) :
    s.psize c.addr = (l.getLast?.map Chunk.tag).getD (0#64 ||| cInuse) := by
  have ht := h.tags (by simp [hch])
  have htile := H.tiled
  rcases List.eq_nil_or_concat l with rfl | ⟨l', d, rfl⟩
  · rw [hch] at htile
    have haddr : c.addr = H.lo := htile.1
    simpa [haddr] using ht.first
  · rw [List.concat_eq_append] at hch ⊢
    rw [hch, List.append_assoc] at htile
    have hd := ht.psize d (by simp [hch])
    rw [← htile.next_start] at hd
    simpa using hd

/-- The header behind a chunk is that of the chunk after it, or the sentinel's. -/
theorem Repr.csize_next (h : Repr s H) (hch : H.chunks = l ++ c :: r) :
    s.csize (c.addr + c.size) = (r.head?.map Chunk.tag).getD (0#64 ||| cInuse) := by
  have ht := h.tags (by simp [hch])
  have htile := H.tiled
  cases r with
  | nil =>
      rw [hch] at htile
      have : c.addr + c.size = H.hi := (tiled_split.mp htile).2.2
      simpa [this] using ht.last
  | cons d r =>
      rw [hch] at htile
      rw [← htile.next_start]
      simpa using ht.csize d (by simp [hch])

/-- `mergePrev` takes the free chunk below, if there is one. -/
theorem Repr.mergePrev (h : Repr s H) (size : Word) (hch : H.chunks = l ++ (pre ++ c :: r))
    (hbelow : pre = [] ∨ ∃ p, pre = [p] ∧ p.free = true) (hlast : ∀ p ∈ l.getLast?, p.free = false) :
    ∃ H' t, Musl.mergePrev c.addr size
        (if s.psize c.addr &&& cInuse ≠ 0#64 then 0#64 else s.chunkPsize c.addr) s =
        (c.addr - (pre.map Chunk.size).sum, size + BitVec.ofNat 64 (pre.map Chunk.size).sum, t) ∧
      Took s t H H' pre ∧ H'.chunks = l ++ (pre.map Chunk.used ++ c :: r) ∧
      H'.bins = without H.bins (pre.map Chunk.addr) := by
  rcases hbelow with rfl | ⟨p, rfl, hp⟩
  · -- The size word below is odd.
    have hodd : s.psize c.addr &&& cInuse ≠ 0#64 := by
      rw [h.psize_self (by simpa using hch)]
      cases hl : l.getLast? with
      | none => decide
      | some p =>
          have hpl : p ∈ l := List.mem_of_getLast? hl
          have hf := hlast p hl
          intro e
          rw [Option.map_some, Option.getD_some, cInuse,
            Chunk.tag_and_one (H.granular p (by rw [hch]; simp [hpl])), hf] at e
          simp at e
    refine ⟨H, s, ?_, Took.refl h, by simpa using hch, (without_nil H.bins).symm⟩
    rw [if_pos hodd, Musl.mergePrev]
    simp
  · -- The chunk below is free: its size is read from the footer, and after the lock once more.
    have hpc : p ∈ H.chunks := by simp [hch]
    have hgr := H.granular p hpc
    have hsz := H.size_ge hpc
    have hpn := H.toNat_size hpc
    have hps : s.psize c.addr = p.tag := by
      rw [h.psize_self (l := l ++ [p]) (r := r) (by simpa using hch)]
      simp
    have heven : p.tag &&& cInuse = 0#64 := (Chunk.tag_and_one hgr).mpr hp
    have hcp : s.chunkPsize c.addr = BitVec.ofNat 64 p.size := by
      rw [State.chunkPsize, hps, Chunk.tag_and_neg_two hgr]
    have hpos : BitVec.ofNat 64 p.size > 0#64 := by
      rw [gt_iff_lt, BitVec.lt_def, hpn, BitVec.toNat_ofNat]
      omega
    have hi := H.bin_lt hpc
    have hself : (Musl.lockBin p.bin s).mem c.addr = s.mem c.addr := by
      refine lockBin_mem hi fun hw => ?_
      have := (h.chunkAddr (c := c) (by simp [hch])).above
      simp only [InMal] at hw
      omega
    have hstart : c.addr = p.addr + p.size := by
      have htile := H.tiled
      rw [hch] at htile
      exact Tiled.next_start (by simpa using htile)
    obtain ⟨H', hk, hch', hb⟩ := h.took_unbin_bins (l := l) (r := c :: r) (by simpa using hch) hp
    refine ⟨H', _, ?_, hk, by simpa using hch', hb⟩
    rw [if_neg (by rw [hps, heven]; simp), hcp, Musl.mergePrev, if_pos hpos]
    simp only []
    have heven' : ¬(Musl.lockBin (binIndex (BitVec.ofNat 64 p.size)) s).psize c.addr &&& cInuse ≠ 0#64 := by
      change ¬(Musl.lockBin p.bin s).mem c.addr &&& cInuse ≠ 0#64
      rw [hself]
      change ¬s.psize c.addr &&& cInuse ≠ 0#64
      rw [hps, heven]
      simp
    have hprev : (Musl.lockBin (binIndex (BitVec.ofNat 64 p.size)) s).prevChunk c.addr = p.addr := by
      have hcp' : (Musl.lockBin p.bin s).chunkPsize c.addr = BitVec.ofNat 64 p.size := by
        rw [State.chunkPsize, State.psize, hself]
        exact hcp
      change c.addr - ((Musl.lockBin p.bin s).chunkPsize c.addr).toNat = p.addr
      rw [hcp', hpn]
      omega
    rw [if_neg heven', hprev]
    simp only [List.map_cons, List.map_nil, List.sum_cons, List.sum_nil, Nat.add_zero, hstart,
      Nat.add_sub_cancel]
    rfl

/-- `mergeNext` takes the free chunk above, if there is one. -/
theorem Repr.mergeNext (h : Repr s H) (size : Word) (hch : H.chunks = l ++ c :: (post ++ r))
    (habove : post = [] ∨ ∃ n, post = [n] ∧ n.free = true) (hnext : ∀ n ∈ r.head?, n.free = false) :
    ∃ H' t, Musl.mergeNext (c.addr + c.size) size
        (if s.csize (c.addr + c.size) &&& cInuse ≠ 0#64 then 0#64
          else s.chunkSize (c.addr + c.size)) s =
        (c.addr + c.size + (post.map Chunk.size).sum,
          size + BitVec.ofNat 64 (post.map Chunk.size).sum, t) ∧
      Took s t H H' post ∧ H'.chunks = l ++ c :: (post.map Chunk.used ++ r) ∧
      H'.bins = without H.bins (post.map Chunk.addr) := by
  rcases habove with rfl | ⟨n, rfl, hn⟩
  · -- The size word behind it is odd.
    have hodd : s.csize (c.addr + c.size) &&& cInuse ≠ 0#64 := by
      rw [h.csize_next (by simpa using hch)]
      cases hr : r.head? with
      | none => decide
      | some n =>
          have hnr : n ∈ r := List.mem_of_head? hr
          have hf := hnext n hr
          intro e
          rw [Option.map_some, Option.getD_some, cInuse,
            Chunk.tag_and_one (H.granular n (by rw [hch]; simp [hnr])), hf] at e
          simp at e
    refine ⟨H, s, ?_, Took.refl h, by simpa using hch, (without_nil H.bins).symm⟩
    rw [if_pos hodd, Musl.mergeNext]
    simp
  · -- The chunk behind is free. It is taken off its list, and `next` moves behind it.
    have hnc : n ∈ H.chunks := by simp [hch]
    have hgr := H.granular n hnc
    have hsz := H.size_ge hnc
    have hnn := H.toNat_size hnc
    have hi := H.bin_lt hnc
    have hstart : n.addr = c.addr + c.size := by
      have htile := H.tiled
      rw [hch] at htile
      exact Tiled.next_start (by simpa using htile)
    have hcs : s.csize n.addr = n.tag := (h.tags (List.ne_nil_of_mem hnc)).csize n hnc
    have heven : n.tag &&& cInuse = 0#64 := (Chunk.tag_and_one hgr).mpr hn
    have hpos : BitVec.ofNat 64 n.size > 0#64 := by
      rw [gt_iff_lt, BitVec.lt_def, hnn, BitVec.toNat_ofNat]
      omega
    have hself : (Musl.lockBin n.bin s).csize n.addr = n.tag := by
      rw [← hcs]
      refine lockBin_mem hi fun hw => ?_
      have := (h.chunkAddr hnc).above
      simp only [InMal] at hw
      omega
    obtain ⟨H', hk, hch', hb⟩ := h.took_unbin_bins (l := l ++ [c]) (r := r) (by simpa using hch) hn
    have hafter := hk.repr.nextChunk (c := n.used) (by simp [hch'])
    refine ⟨H', _, ?_, hk, by simpa using hch', hb⟩
    rw [← hstart, if_neg (by rw [hcs, heven]; simp), h.chunkSize hnc, Musl.mergeNext, if_pos hpos]
    simp only []
    rw [show binIndex (BitVec.ofNat 64 n.size) = n.bin from rfl,
      if_neg (by rw [hself, heven]; simp)]
    simp only [Chunk.used_addr, Chunk.used_size] at hafter
    simp only [hafter, List.map_cons, List.map_nil, List.sum_cons, List.sum_nil, Nat.add_zero]

/-! ## The result of `__bin_chunk`

Both merges take a free neighbour into use first, so in between the heap has `pre` and `post` as
used chunks, and the union is put in the place of all three at once. -/

theorem map_used_size (cs : List Chunk) : (cs.map Chunk.used).map Chunk.size = cs.map Chunk.size := by
  rw [List.map_map]
  rfl

/-- Everything `__bin_chunk` joins is one segment of the heap. -/
theorem merged_tiled
    (h : Tiled Chunk.addr Chunk.size a b (pre.map Chunk.used ++ c :: post.map Chunk.used)) :
    Tiled Chunk.addr Chunk.size a b [merged pre c post] := by
  have hsum := h.sum_size
  obtain ⟨h₁, h₂, -⟩ := tiled_split.mp h
  have hpre := h₁.sum_size
  simp only [List.map_append, List.map_cons, map_used_size, List.sum_append, List.sum_cons]
    at hsum hpre
  refine ⟨?_, ?_, ?_⟩
  · change c.addr - (pre.map Chunk.size).sum = a
    omega
  · change 0 < ((pre ++ c :: post).map Chunk.size).sum
    simp only [List.map_append, List.map_cons, List.sum_append, List.sum_cons]
    omega
  · change a + ((pre ++ c :: post).map Chunk.size).sum = b
    simp only [List.map_append, List.map_cons, List.sum_append, List.sum_cons]
    exact hsum

/-- The freed chunk and its neighbours, all in use by then, can give way to their union. -/
theorem puts_merged (hch : H.chunks = l ++ ((pre.map Chunk.used ++ c :: post.map Chunk.used) ++ r))
    (hf : c.free = false) :
    H.Puts l (pre.map Chunk.used ++ c :: post.map Chunk.used) [] r (merged pre c post) := by
  refine ⟨hch, ?_, by simp, rfl, fun a b => merged_tiled, ?_⟩
  · intro d hd
    simp only [List.mem_append, List.mem_map, List.mem_cons] at hd
    rcases hd with ⟨e, -, rfl⟩ | rfl | ⟨e, -, rfl⟩
    · rfl
    · exact hf
    · rfl
  · intro d hd
    rw [List.mem_singleton.mp hd]
    have hsame : (pre ++ c :: post).map Chunk.size =
        (pre.map Chunk.used ++ c :: post.map Chunk.used).map Chunk.size := by
      simp only [List.map_append, List.map_cons, map_used_size]
    refine Nat.mod_eq_zero_of_dvd (List.dvd_sum fun x hx => ?_)
    rw [hsame] at hx
    obtain ⟨e, he, rfl⟩ := List.mem_map.mp hx
    exact Nat.dvd_of_mod_eq_zero (H.granular e (by rw [hch]; simp only [List.mem_append] at he ⊢; tauto))

/-- What `__bin_chunk` has done once it has put the union on its list: `u` is the state before pages
are given back. -/
structure Freed (s u : State) (H H' : Heap) (l pre : List Chunk) (c : Chunk) (post r : List Chunk) :
    Prop where
  repr : Repr u H'
  lo : H'.lo = H.lo
  hi : H'.hi = H.hi
  chunks : H'.chunks = l ++ merged pre c post :: r
  vars : u.toVars = s.toVars
  allocated : u.stats.allocatedBytes = s.stats.allocatedBytes - BitVec.ofNat 64 c.size
  mmap : u.stats.mmapBytes = s.stats.mmapBytes
  frame : ∀ w, Kept s.mal H' w → u.mem w = s.mem w
  headers : ∀ w, ¬InMal s.mal w → w % 32 = 16 ∨ w % 32 = 24 →
    (∀ p ∈ pre ++ post, w ≠ p.addr + 8 ∧ w ≠ p.addr + p.size) → w ≠ (merged pre c post).addr + 8 →
    w ≠ (merged pre c post).addr + (merged pre c post).size → u.mem w = s.mem w

/-- The freed chunk is gone, the other chunks in use stay. -/
theorem Freed.used_iff {u : State} {d : Chunk} (k : Freed s u H H' l pre c post r)
    (hch : H.chunks = l ++ (pre ++ c :: (post ++ r))) (ha : Around l pre post r)
    (hcf : c.free = false) (hdf : d.free = false) :
    d ∈ H'.chunks ↔ d ∈ H.chunks ∧ d ≠ c := by
  have hfm : merged pre c post ∈ H'.chunks := by simp [k.chunks]
  -- `c` lies inside the union, and no other chunk overlaps that.
  have hcH : c ∉ H'.chunks := by
    intro hm
    have hc : c ∈ H.chunks := by simp [hch]
    have hcb := H.tiled.bounds hc
    have htile := H.tiled
    rw [hch, ← List.append_assoc] at htile
    obtain ⟨b, -, hpre⟩ := tiled_append.mp (tiled_split.mp htile).1
    have hsum := hpre.sum_size
    have hfa : (merged pre c post).addr = c.addr - (pre.map Chunk.size).sum := rfl
    have hfs : (merged pre c post).size = ((pre ++ c :: post).map Chunk.size).sum := rfl
    simp only [List.map_append, List.map_cons, List.sum_append, List.sum_cons] at hfs
    rcases H'.tiled.apart hm hfm with e | h' | h'
    · rw [e] at hcf
      simp [merged] at hcf
    · omega
    · omega
  -- Its neighbours were free.
  have hpre : d ∉ pre := by
    intro hm
    rcases ha.below with rfl | ⟨p, rfl, hp⟩
    · simp at hm
    · rw [List.mem_singleton.mp hm, hp] at hdf
      simp at hdf
  have hpost : d ∉ post := by
    intro hm
    rcases ha.above with rfl | ⟨p, rfl, hp⟩
    · simp at hm
    · rw [List.mem_singleton.mp hm, hp] at hdf
      simp at hdf
  have hdf' : d ≠ merged pre c post := fun e => by simp [e, merged] at hdf
  constructor
  · intro hm
    refine ⟨?_, fun e => hcH (e ▸ hm)⟩
    rw [k.chunks] at hm
    rw [hch]
    simp only [List.mem_append, List.mem_cons, hdf', false_or] at hm ⊢
    tauto
  · rintro ⟨hm, hne⟩
    rw [hch] at hm
    rw [k.chunks]
    simp only [List.mem_append, List.mem_cons, hne, hpre, hpost, false_or] at hm ⊢
    tauto

def tagSize (f : Chunk) (s : State) : State :=
  (s.setCsize f.addr (BitVec.ofNat 64 f.size)).setPsize (f.addr + f.size) (BitVec.ofNat 64 f.size)

theorem tagSize_mem (h₁ : w ≠ f.addr + 8) (h₂ : w ≠ f.addr + f.size) :
    (tagSize f s).mem w = s.mem w := by
  rw [tagSize, State.setPsize, State.setCsize, State.store_mem, State.store_mem,
    Function.update_of_ne h₂, Function.update_of_ne h₁]

def Heap.binsFreed (H : Heap) (pre : List Chunk) (c : Chunk) (post : List Chunk) : Nat → List Nat :=
  Function.update (without H.bins ((pre ++ post).map Chunk.addr)) (merged pre c post).bin
    (without H.bins ((pre ++ post).map Chunk.addr) (merged pre c post).bin ++ [(merged pre c post).addr])

/-- The end of `__bin_chunk`: the union gets its size and goes on its list. -/
theorem Repr.binMerged (h : Repr s H)
    (hch : H.chunks = l ++ ((pre.map Chunk.used ++ c :: post.map Chunk.used) ++ r))
    (hf : c.free = false) (hm : f = merged pre c post) :
    ∃ H', Repr (Musl.binChunk f.addr f.bin (tagSize f (Musl.lockBin f.bin s))) H' ∧
      H'.lo = H.lo ∧ H'.hi = H.hi ∧ H'.chunks = l ++ f :: r ∧
      H'.bins = Function.update H.bins f.bin (H.bins f.bin ++ [f.addr]) ∧
      ∀ w, ¬InMal s.mal w → w ≠ f.addr + 8 → w ≠ f.addr + f.size →
        Kept s.mal H' w ∨ w % 32 = 16 ∨ w % 32 = 24 →
        (Musl.binChunk f.addr f.bin (tagSize f (Musl.lockBin f.bin s))).mem w = s.mem w := by
  have hsize : State.malSize = 1552 := rfl
  have hp := puts_merged hch hf
  rw [← hm] at hp
  have hfm : f ∈ (H.put hp).chunks := by simp [Heap.put]
  have hfb := (H.put hp).tiled.bounds hfm
  have hfa := (H.put hp).addr_align hfm
  have hfg := (H.put hp).granular f hfm
  have hfs := (H.put hp).size_ge hfm
  have hlo : (H.put hp).lo = H.lo := rfl
  have hhi : (H.put hp).hi = H.hi := rfl
  have hi := (H.put hp).bin_lt hfm
  have hab := h.above
  obtain ⟨hr, hset, hlock⟩ := h.lockBin hi
  have hv : (Musl.lockBin f.bin s).toVars = s.toVars := lockBin_toVars
  have hmal : (Musl.lockBin f.bin s).mal = s.mal := congrArg Vars.mal hv
  -- Both size words of the union are written outside `mal`.
  have hlists : Lists (tagSize f (Musl.lockBin f.bin s)) H.bins := by
    refine hr.lists_congr rfl fun w hw => tagSize_mem ?_ ?_ <;>
      · rintro rfl
        exact hw ⟨by omega, by omega, by omega⟩
  have hset' : (tagSize f (Musl.lockBin f.bin s)).head f.bin ≠ 0 := by
    change ((tagSize f (Musl.lockBin f.bin s)).mem ((Musl.lockBin f.bin s).mal + 24 * f.bin + 16)).toNat ≠ 0
    rw [hmal, tagSize_mem (by omega) (by omega), ← hmal]
    exact hset
  -- They replace those of the three chunks in the tiling.
  have htags : Tags (tagSize f (Musl.lockBin f.bin s)) H.lo H.hi (l ++ ([] ++ f :: r)) := by
    have ht := H.tiled
    rw [hch] at ht
    obtain ⟨a, h₁, h₂⟩ := tiled_append.mp ht
    obtain ⟨b, h₃, h₄⟩ := tiled_append.mp h₂
    obtain ⟨h₅, -, h₆⟩ := hm ▸ merged_tiled h₃
    have h₆ : a + f.size = b := h₆
    refine (hr.tags (by simp [hch])).replace _ [f] hch h₁ h₄ (by omega) ?_ ?_
    · intro w hw hout
      exact tagSize_mem (by omega) (by omega)
    · intro d hd
      rw [List.mem_singleton.mp hd, Chunk.tag, if_pos hp.free]
      constructor
      · rw [State.csize, tagSize, State.setPsize, State.store_mem, Function.update_of_ne (by omega),
          State.setCsize, State.store_mem, Function.update_self]
      · rw [State.psize, tagSize, State.setPsize, State.store_mem, Function.update_self]
  obtain ⟨hrepr, hframe⟩ := Repr.binChunk (s := tagSize f (Musl.lockBin f.bin s)) hr hp rfl rfl hlists
    hset' htags
  refine ⟨H.put hp, hrepr, rfl, rfl, rfl, rfl, ?_⟩
  intro w hmalw h₁ h₂ hw
  rw [hframe w (by exact hmal ▸ hmalw) (by exact hmal ▸ hw), tagSize_mem h₁ h₂, hlock w hmalw]

/-- **`__bin_chunk` up to the return of pages**: it does not crash, and the chunk and its free
neighbours become one free chunk. -/
theorem Repr._binChunk (h : Repr s H) (hch : H.chunks = l ++ (pre ++ c :: (post ++ r)))
    (hf : c.free = false) (ha : Around l pre post r) :
    ∃ H' u, Musl._binChunk c.addr s = .ret () (reclaimPages (merged pre c post).addr
        ((merged pre c post).addr + (merged pre c post).size)
        (BitVec.ofNat 64 (merged pre c post).size) (BitVec.ofNat 64 c.size) u) ∧
      Freed s u H H' l pre c post r ∧ H'.bins = H.binsFreed pre c post := by
  have hc : c ∈ H.chunks := by simp [hch]
  have hcb := H.tiled.bounds hc
  have hca := H.addr_align hc
  have hgr := H.granular c hc
  have hsz := H.size_ge hc
  have hab := h.above
  set s₁ := s.subAllocated (s.chunkSize c.addr) with hs₁
  have h₁ : Repr s₁ H := h.outside rfl rfl rfl rfl rfl rfl fun _ _ => rfl
  -- The footer is intact.
  have hfoot : s₁.psize (c.addr + c.size) = s₁.csize c.addr := by
    have ht := h₁.tags (List.ne_nil_of_mem hc)
    rw [ht.psize c hc, ht.csize c hc]
  obtain ⟨H₁, t₁, hp, k₁, hch₁, hb₁⟩ := h₁.mergePrev (BitVec.ofNat 64 c.size) hch ha.below ha.last
  have hpre : c.addr - (pre.map Chunk.size).sum + (pre.map Chunk.size).sum = c.addr := by
    have ht := H.tiled
    rw [hch, ← List.append_assoc] at ht
    obtain ⟨a, -, h₂⟩ := tiled_append.mp (tiled_split.mp ht).1
    have := h₂.sum_size
    omega
  -- Merging with the chunk below leaves the header above alone.
  have hnext : t₁.csize (c.addr + c.size) = s₁.csize (c.addr + c.size) := by
    refine k₁.headers _ ?_ (by omega) ?_
    · simp only [InMal, hs₁, State.subAllocated]
      omega
    · intro p hp
      have hpm : p ∈ l ++ pre := by simp [hp]
      have ht := H.tiled
      rw [hch, ← List.append_assoc] at ht
      have := (tiled_split.mp ht).1.bounds hpm
      have hpg := H.granular p (by rw [hch]; simp [hp])
      have hpa := H.addr_align (c := p) (by rw [hch]; simp [hp])
      omega
  obtain ⟨H₂, t₂, hn, k₂, hch₂, hb₂⟩ := k₁.repr.mergeNext (l := l ++ pre.map Chunk.used) (c := c)
    (BitVec.ofNat 64 c.size + BitVec.ofNat 64 (pre.map Chunk.size).sum) (by simpa using hch₁)
    ha.above ha.next
  rw [State.chunkSize, hnext, ← State.chunkSize] at hn
  set f := merged pre c post with hm
  have haddr : f.addr = c.addr - (pre.map Chunk.size).sum := rfl
  have hsize : f.size = c.size + (pre.map Chunk.size).sum + (post.map Chunk.size).sum := by
    simp only [hm, merged, List.map_append, List.map_cons, List.sum_append, List.sum_cons]
    omega
  have hend : f.addr + f.size = c.addr + c.size + (post.map Chunk.size).sum := by omega
  have k := k₁.trans k₂
  have hch₂' : H₂.chunks = l ++ ((pre.map Chunk.used ++ c :: post.map Chunk.used) ++ r) := by
    simpa using hch₂
  obtain ⟨H₃, hr, hlo, hhi, hch₃, hb₃, hframe⟩ := k₂.repr.binMerged hch₂' hf hm
  have hword : BitVec.ofNat 64 c.size + BitVec.ofNat 64 (pre.map Chunk.size).sum +
      BitVec.ofNat 64 (post.map Chunk.size).sum = BitVec.ofNat 64 f.size := by
    rw [hsize, BitVec.ofNat_add, BitVec.ofNat_add]
  have hbins : H₃.bins = H.binsFreed pre c post := by
    rw [hb₃, hb₂, hb₁, without_without, ← List.map_append]
    rfl
  refine ⟨H₃, _, ?_, ⟨hr, ?_, ?_, hch₃, ?_, ?_, ?_, ?_, ?_⟩, hbins⟩
  · rw [Musl._binChunk, h.nextChunk hc]
    simp only []
    rw [← hs₁, if_neg (not_not.mpr hfoot), h₁.chunkSize hc, hp]
    simp only []
    rw [hn]
    simp only [hword, ← haddr, ← hend]
    rfl
  · rw [hlo, k.lo]
  · rw [hhi, k.hi]
  · rw [binChunk_toVars]
    change (Musl.lockBin f.bin t₂).toVars = s.toVars
    rw [lockBin_toVars, k.vars]
    rfl
  · have htot := (lockBin_totals f.bin t₂).allocated
    rw [(binChunk_totals _ _ _).allocated]
    change (Musl.lockBin f.bin t₂).stats.allocatedBytes = _
    rw [htot, k.totals.allocated, hs₁, ← h.chunkSize hc]
    rfl
  · have htot := (lockBin_totals f.bin t₂).mmap
    rw [(binChunk_totals _ _ _).mmap]
    change (Musl.lockBin f.bin t₂).stats.mmapBytes = _
    rw [htot, k.totals.mmap]
    rfl
  · intro w hw
    have hmal : t₂.mal = s.mal := congrArg Vars.mal k.vars
    have hfm : f ∈ H₃.chunks := by simp [hch₃]
    have hhead := hw.not_header hfm
    have hfoot := hw.not_next hfm
    have hkept : Kept s.mal H w := by
      refine ⟨hw.1, fun _ => ?_⟩
      rw [← k.lo, ← k.hi, ← hlo, ← hhi]
      rcases hw.2 (List.ne_nil_of_mem hfm) with h' | h' | ⟨d, hd, hdf, h'⟩
      · exact Or.inl h'
      · exact Or.inr (Or.inl h')
      · have hne : d ≠ f := fun e => by simp [e, hm, merged] at hdf
        refine Or.inr (Or.inr ⟨d, ?_, hdf, h'⟩)
        rw [hch₃] at hd
        rw [hch]
        grind
    rw [hframe w (by rw [hmal]; exact hw.1) (by omega) (by omega) (Or.inl (by rwa [hmal])),
      k.frame w hkept]
    rfl
  · intro w hmalw hal hps h₂ h₃
    have hmal : t₂.mal = s.mal := congrArg Vars.mal k.vars
    rw [hframe w (by rwa [hmal]) h₂ h₃ (Or.inr hal), k.headers w hmalw hal hps]
    rfl

/-! ## Giving pages back

The range lies between the links of the free chunk and the footer behind it, so no word that the
representation depends on is zeroed. -/

/-- Pages of the free chunk `f` go back after `osize` bytes of it were freed. -/
def Reclaims (f : Chunk) (osize : Nat) : Prop :=
  163840 < f.size ∧
    shareHighestBit (BitVec.ofNat 64 f.size) (BitVec.ofNat 64 f.size - BitVec.ofNat 64 osize) = false

instance (f : Chunk) (osize : Nat) : Decidable (Reclaims f osize) :=
  inferInstanceAs (Decidable (_ ∧ _))

def Reclaimed (f : Chunk) (osize x : Nat) : Prop :=
  Reclaims f osize ∧ pageUp (f.addr + 32) ≤ x ∧ x < pageDown (f.addr + f.size - 32)

instance (f : Chunk) (osize x : Nat) : Decidable (Reclaimed f osize x) :=
  inferInstanceAs (Decidable (_ ∧ _ ∧ _))

theorem Reclaimed.inside {osize x : Nat} (h : Reclaimed f osize x) :
    f.addr + 32 ≤ x ∧ x + 32 < f.addr + f.size := by
  obtain ⟨-, h₁, h₂⟩ := h
  simp only [pageUp, pageDown] at h₁ h₂
  omega

theorem toNat_sub_ofNat {x y : Nat} (h : y ≤ x) (hx : x < 2 ^ 64) :
    (BitVec.ofNat 64 x - BitVec.ofNat 64 y).toNat = x - y := by
  rw [BitVec.toNat_sub_of_le (by simp only [BitVec.le_def, BitVec.toNat_ofNat]; omega)]
  simp only [BitVec.toNat_ofNat]
  omega

theorem madvise_mem (s : State) (a x : Nat) (v : Word) :
    (s.madvise a v).mem x = if a ≤ x ∧ x < a + v.toNat then 0#64 else s.mem x := rfl

theorem addReclaimed_mem (s : State) (v : Word) : (s.addReclaimed v).mem = s.mem := rfl

section Reclaim

variable {osize : Nat}

theorem reclaimPages_eq (hfit : f.addr + f.size ≤ 2 ^ 63) (s : State) :
    reclaimPages f.addr (f.addr + f.size) (BitVec.ofNat 64 f.size) (BitVec.ofNat 64 osize) s =
      if Reclaims f osize then
        (s.addReclaimed (BitVec.ofNat 64 (pageDown (f.addr + f.size - 32) - pageUp (f.addr + 32)))).madvise
          (pageUp (f.addr + 32))
          (BitVec.ofNat 64 (pageDown (f.addr + f.size - 32) - pageUp (f.addr + 32)))
      else s := by
  have hsz : (BitVec.ofNat 64 f.size).toNat = f.size :=
    Lib.toNat_ofNat_of_lt (by omega)
  -- The branch is taken on words, the predicate is about numbers: none wraps.
  have hcond : (BitVec.ofNat 64 f.size > reclaim ∧ !shareHighestBit (BitVec.ofNat 64 f.size)
      (BitVec.ofNat 64 f.size - BitVec.ofNat 64 osize)) ↔ Reclaims f osize := by
    rw [Reclaims, gt_iff_lt, BitVec.lt_def, hsz, Bool.not_eq_true']
    rfl
  unfold reclaimPages
  by_cases hc : Reclaims f osize
  · -- Both ends of the range are rounded towards its middle.
    have hlarge := hc.1
    have ha : (align64Up (BitVec.ofNat 64 f.addr + sizeAlign) pageSize).toNat = pageUp (f.addr + 32) := by
      have hadd : (BitVec.ofNat 64 f.addr + sizeAlign).toNat = f.addr + 32 := by
        rw [BitVec.toNat_add, sizeAlign, BitVec.toNat_ofNat, BitVec.toNat_ofNat]
        omega
      rw [toNat_align64Up_page, hadd]
      rw [hadd, pageUp]
      omega
    have hb : (align64 (BitVec.ofNat 64 (f.addr + f.size) - sizeAlign) pageSize).toNat =
        pageDown (f.addr + f.size - 32) := by
      rw [toNat_align64 (k := 12) rfl, sizeAlign, toNat_sub_ofNat (by omega) (by omega), pageDown]
      omega
    have hle : pageUp (f.addr + 32) ≤ pageDown (f.addr + f.size - 32) := by
      simp only [pageUp, pageDown]
      omega
    have hlen : align64 (BitVec.ofNat 64 (f.addr + f.size) - sizeAlign) pageSize -
        align64Up (BitVec.ofNat 64 f.addr + sizeAlign) pageSize =
        BitVec.ofNat 64 (pageDown (f.addr + f.size - 32) - pageUp (f.addr + 32)) := by
      apply BitVec.eq_of_toNat_eq
      rw [BitVec.toNat_sub_of_le (by rw [BitVec.le_def, ha, hb]; exact hle), ha, hb, BitVec.toNat_ofNat]
      refine (Nat.mod_eq_of_lt ?_).symm
      simp only [pageDown]
      omega
    rw [if_pos (hcond.mpr hc), if_pos hc]
    simp only [hlen, ha]
  · rw [if_neg fun h => hc (hcond.mp h), if_neg hc]

theorem reclaimPages_mem (hfit : f.addr + f.size ≤ 2 ^ 63) (s : State) (x : Nat) :
    (reclaimPages f.addr (f.addr + f.size) (BitVec.ofNat 64 f.size) (BitVec.ofNat 64 osize) s).mem x =
      if Reclaimed f osize x then 0#64 else s.mem x := by
  rw [reclaimPages_eq hfit]
  by_cases hc : Reclaims f osize
  · have hlarge := hc.1
    have hlen : (BitVec.ofNat 64 (pageDown (f.addr + f.size - 32) - pageUp (f.addr + 32))).toNat =
        pageDown (f.addr + f.size - 32) - pageUp (f.addr + 32) := by
      rw [BitVec.toNat_ofNat]
      refine Nat.mod_eq_of_lt ?_
      simp only [pageDown]
      omega
    have hle : pageUp (f.addr + 32) ≤ pageDown (f.addr + f.size - 32) := by
      simp only [pageUp, pageDown]
      omega
    rw [if_pos hc]
    rw [madvise_mem, hlen, Nat.add_sub_cancel' hle, addReclaimed_mem]
    simp only [Reclaimed, hc, true_and]
  · have : ¬Reclaimed f osize x := fun h => hc h.1
    rw [if_neg hc, if_neg this]

theorem reclaimPages_vars (self next : Nat) (size osize : Word) (s : State) :
    ∃ cs, (Musl.reclaimPages self next size osize s).toVars = { s.toVars with calls := cs } := by
  unfold Musl.reclaimPages
  split
  · exact ⟨_, rfl⟩
  · exact ⟨_, rfl⟩

theorem reclaimPages_totals (self next : Nat) (size osize : Word) (s : State) :
    SameTotals s (Musl.reclaimPages self next size osize s) := by
  unfold Musl.reclaimPages
  split <;> exact ⟨rfl, rfl, rfl⟩

theorem Repr.madvise (h : Repr s H) {v : Word}
    (hw : ∀ w, Bookkeeping s.mal H w → ((s.addReclaimed v).madvise a v).mem w = s.mem w) :
    Repr ((s.addReclaimed v).madvise a v) H :=
  h.outside rfl rfl rfl rfl rfl rfl hw

/-- Giving pages back changes nothing but the inside of the free chunk. -/
theorem Repr.reclaimPages (h : Repr s H) (osize : Nat) (hf : f ∈ H.chunks) (hfree : f.free = true) :
    Repr (Musl.reclaimPages f.addr (f.addr + f.size) (BitVec.ofNat 64 f.size) (BitVec.ofNat 64 osize) s)
      H := by
  have hfb := H.tiled.bounds hf
  have hbd := H.bound
  have hfit : f.addr + f.size ≤ 2 ^ 63 := by omega
  have hmem : ∀ w, Bookkeeping s.mal H w → (Musl.reclaimPages f.addr (f.addr + f.size)
      (BitVec.ofNat 64 f.size) (BitVec.ofNat 64 osize) s).mem w = s.mem w := by
    intro w hw
    rw [reclaimPages_mem hfit, if_neg]
    intro hr
    have hin := hr.inside
    have hab := h.above
    -- A word of `mal` is below the heap.
    rcases hw with hm | ⟨d, hd, hw⟩
    · simp only [InMal] at hm
      omega
    · -- A word of a chunk: of the free one the header and the links, of another one its header.
      have hsz := H.size_ge hd
      rcases H.tiled.apart hd hf with rfl | h' | h'
      · rw [if_pos hfree] at hw
        omega
      · split at hw <;> omega
      · split at hw <;> omega
  rw [reclaimPages_eq hfit] at hmem ⊢
  split at hmem
  · next hc =>
    rw [if_pos hc]
    exact h.madvise hmem
  · next hc =>
    rw [if_neg hc]
    exact h

end Reclaim

/-! ## `musl_free` on a chunk in use

The parts together, for a chunk of the heap. It does not crash: the two copies of the size word
agree. -/

/-- **Freeing a chunk in use** does not crash: it becomes one free chunk with its free neighbours, and
pages inside it may be given back. -/
theorem Repr.muslFree_bins (h : Repr s H) (hco : Coalesced H.chunks) (hc : c ∈ H.chunks)
    (hf : c.free = false) :
    ∃ l pre post r H' u, H.chunks = l ++ (pre ++ c :: (post ++ r)) ∧ Around l pre post r ∧
      Freed s u H H' l pre c post r ∧ H'.bins = H.binsFreed pre c post ∧
      Musl.muslFree (c.addr + 16) s = .ret () (Musl.reclaimPages (merged pre c post).addr
        ((merged pre c post).addr + (merged pre c post).size)
        (BitVec.ofNat 64 (merged pre c post).size) (BitVec.ofNat 64 c.size) u) := by
  obtain ⟨l, r, hch⟩ := List.append_of_mem hc
  rw [hch] at hco
  obtain ⟨l, pre, post, r, rfl, rfl, ha⟩ := hco.exists_around
  rw [List.append_assoc] at hch
  obtain ⟨H', u, hret, k, hb⟩ := h._binChunk hch hf ha
  refine ⟨l, pre, post, r, H', u, hch, ha, k, hb, ?_⟩
  have hinuse := h.isMmapped hc hf
  have hself : memToChunk (c.addr + 16) = c.addr := by
    simp [memToChunk]
  rw [Musl.muslFree, if_neg (by omega)]
  simp only [hself, hinuse]
  simpa using hret

theorem Repr.muslFree (h : Repr s H) (hco : Coalesced H.chunks) (hc : c ∈ H.chunks)
    (hf : c.free = false) :
    ∃ l pre post r H' u, H.chunks = l ++ (pre ++ c :: (post ++ r)) ∧ Around l pre post r ∧
      Freed s u H H' l pre c post r ∧
      Musl.muslFree (c.addr + 16) s = .ret () (Musl.reclaimPages (merged pre c post).addr
        ((merged pre c post).addr + (merged pre c post).size)
        (BitVec.ofNat 64 (merged pre c post).size) (BitVec.ofNat 64 c.size) u) := by
  obtain ⟨l, pre, post, r, H', u, hch, ha, k, -, hret⟩ := h.muslFree_bins hco hc hf
  exact ⟨l, pre, post, r, H', u, hch, ha, k, hret⟩

end MmExper.Musl
