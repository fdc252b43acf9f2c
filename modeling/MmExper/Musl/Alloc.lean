import MmExper.Musl.Free
import MmExper.Musl.Search

/-!
# Allocating a chunk

Whichever way `musl_malloc` gets a chunk from the brk heap (the fast path, the bin search, a grown
heap) and whether or not it trims it, the caller sees the same thing: one chunk in use more, large
enough, and no other chunk in use touched (`Obtained`).
-/

namespace MmExper.Musl

open Bitwise Lib

variable {sys : Sys} {s s' t u : State} {H H' : Heap} {c d f : Chunk} {i w m fuel : Nat} {n : Word}
  {l r : List Chunk}

/-! ## Sizes

A request that `adjust_size` lets through, as a number. -/

/-- The adjusted size holds the request and a header, in units of 32 bytes. -/
theorem adjustSize_spec {v : Word} (h : adjustSize n = some v) :
    v.toNat % 32 = 0 ∧ 32 ≤ v.toNat ∧ n.toNat + 16 ≤ v.toNat ∧ v.toNat + 4096 ≤ 2 ^ 63 := by
  have hmax : (ptrdiffMax - sizeAlign - pageSize).toNat = 9223372036854771679 := by decide
  unfold adjustSize at h
  split at h
  · -- Either the request is too large, or `n - 1` has wrapped because it is zero.
    next hgt =>
    split at h
    · simp at h
    · next hn =>
      have hn : n = 0#64 := not_not.mp hn
      rw [Option.some_inj] at h
      subst h hn
      simp
  · -- Rounding up `n + OVERHEAD` does not leave the words.
    next hle =>
    rw [Option.some_inj] at h
    subst h
    rw [gt_iff_lt, BitVec.lt_def, hmax] at hle
    have hlt := n.isLt
    have hpos : 0 < n.toNat := by
      by_contra h0
      have hn : n = 0#64 := BitVec.eq_of_toNat_eq (by rw [BitVec.toNat_ofNat]; omega)
      rw [hn] at hle
      exact hle (by decide)
    have hsub : (n - 1#64).toNat = n.toNat - 1 := by
      rw [BitVec.toNat_sub_of_le (by rw [BitVec.le_def]; exact hpos)]
      rfl
    have hadd : (n + overhead).toNat = n.toNat + 16 := by
      rw [BitVec.toNat_add, overhead, BitVec.toNat_ofNat]
      omega
    rw [toNat_align64Up (k := 5) rfl, hadd]
    omega

/-! ## A chunk for the caller

`Obtained` is what all three paths have in common: a chunk in use that is large enough, and the rest
of the heap as before. It can be trimmed. -/

/-- The heap `H'` of state `t` has the chunk `c` of at least `m` bytes in use that the heap `H` of
state `s` does not have, and is the same for all others. -/
structure Obtained (s t : State) (H H' : Heap) (c : Chunk) (m : Nat) : Prop where
  repr : Repr t H'
  atBreak : AtBreak t H'
  coalesced : Coalesced H'.chunks
  lo : H'.lo = H.lo
  hi : H.hi ≤ H'.hi
  mem : c ∈ H'.chunks
  used : c.free = false
  large : m ≤ c.size
  others : ∀ d, d.free = false → d ≠ c → (d ∈ H'.chunks ↔ d ∈ H.chunks)
  fresh : ∀ d ∈ H.chunks, d.free = false → d.addr ≠ c.addr
  mal : t.mal = s.mal
  maps : t.maps = s.maps
  brk : t.brk = s.brk ∨ t.brk = s.brk + growth (BitVec.ofNat 64 m)
  allocated : t.stats.allocatedBytes = s.stats.allocatedBytes
  mmap : t.stats.mmapBytes = s.stats.mmapBytes
  frame : ∀ w, Kept s.mal H' w → ¬(c.addr ≤ w ∧ w < c.addr + c.size) → t.mem w = s.mem w

namespace Obtained

/-- The words of other chunks were not the allocator's before. -/
theorem kept (k : Obtained s t H H' c m) (hw : Kept s.mal H' w)
    (hc : ¬(c.addr ≤ w ∧ w < c.addr + c.size)) : Kept s.mal H w := by
  refine ⟨hw.1, fun _ => ?_⟩
  have hhi := k.hi
  rw [← k.lo]
  rcases hw.2 (List.ne_nil_of_mem k.mem) with h | h | ⟨d, hd, hf, h⟩
  · exact Or.inl h
  · exact Or.inr (Or.inl (by omega))
  · have hne : d ≠ c := by
      rintro rfl
      omega
    exact Or.inr (Or.inr ⟨d, (k.others d hf hne).mp hd, hf, h⟩)

/-- A free chunk taken from its list. -/
theorem of_taken (hb : AtBreak s H) (hco : Coalesced H.chunks) (hch : H.chunks = l ++ c :: r)
    (hf : c.free = true) (hm : m ≤ c.size) (k : Took s t H H' [c])
    (hch' : H'.chunks = l ++ c.used :: r) : Obtained s t H H' c.used m := by
  have hc : c ∈ H.chunks := by simp [hch]
  have hne : H.chunks ≠ [] := List.ne_nil_of_mem hc
  have hbrk : t.brk = s.brk := congrArg Vars.brk k.vars
  refine ⟨k.repr, ⟨fun e => by simp [hch'] at e, fun _ => ?_⟩, ?_, k.lo, Nat.le_of_eq k.hi.symm,
    by simp [hch'], rfl, hm, ?_, ?_, congrArg Vars.mal k.vars, congrArg Vars.maps k.vars, Or.inl hbrk,
    k.totals.allocated, k.totals.mmap, ?_⟩
  · rw [k.hi, hbrk]
    exact hb.grown hne
  · rw [hch']
    rw [hch] at hco
    exact hco.take
  · intro d hd hdc
    have : d ≠ c := fun e => by simp [e, hf] at hd
    rw [hch', hch]
    simp only [List.mem_append, List.mem_cons, hdc, this, false_or]
  · intro d hd hdf he
    rw [H.tiled.start_inj hd hc he, hf] at hdf
    simp at hdf
  · -- What is kept is not in the chunk: it was free, and is the caller's now.
    intro w hw hout
    refine k.frame w ⟨hw.1, fun _ => ?_⟩
    rw [← k.lo, ← k.hi]
    rcases hw.2 (by simp [hch']) with h | h | ⟨d, hd, hdf, h⟩
    · exact Or.inl h
    · exact Or.inr (Or.inl h)
    · have hdc : d ≠ c.used := by
        rintro rfl
        omega
      refine Or.inr (Or.inr ⟨d, ?_, hdf, h⟩)
      rw [hch'] at hd
      rw [hch]
      simp only [List.mem_append, List.mem_cons, hdc, false_or] at hd
      simp only [List.mem_append, List.mem_cons]
      tauto

/-- A new chunk at the end. -/
theorem of_expanded (hco : Coalesced H.chunks) (hm : m < 2 ^ 64)
    (k : Expanded s t H H' c (BitVec.ofNat 64 m)) : Obtained s t H H' c m := by
  have hlarge := k.large
  rw [BitVec.toNat_ofNat, Nat.mod_eq_of_lt hm] at hlarge
  have hc : c ∈ H'.chunks := by simp [k.chunks]
  have hhi := H'.tiled.bounds hc
  have haddr := k.addr
  refine ⟨k.repr, k.atBreak, ?_, k.lo, by omega, hc, k.used, hlarge, ?_, ?_, k.mal, k.maps,
    Or.inr k.brk, k.allocated, k.mmap, fun w hw _ => k.frame w hw⟩
  · rw [k.chunks]
    exact hco.extend k.used
  · intro d _ hdc
    rw [k.chunks]
    simp [hdc]
  · intro d hd _
    have := H.tiled.bounds hd
    omega

/-- Trimming it. The chunk behind it is in use, so the remainder has no free neighbour. -/
theorem trim (k : Obtained s t H H' c m) (hch : H'.chunks = l ++ c :: r)
    (hnext : ∀ n ∈ r.head?, n.free = false) (hm : m % 32 = 0) (hpos : 0 < m) :
    ∃ H'' c', Obtained s (Musl.trim c.addr (BitVec.ofNat 64 m) t) H H'' c' m ∧ c'.addr = c.addr := by
  rcases Nat.lt_or_ge m c.size with hlt | hge
  · -- The chunk is cut in two: `c.kept m` for the caller, and `c.rest m` on a list.
    obtain ⟨H'', hr, hlo, hhi, hch'', hframe⟩ := k.repr.trim_split hch k.used hm hpos hlt
    have hv : (Musl.trim c.addr (BitVec.ofNat 64 m) t).toVars = t.toVars := trim_toVars _ _ _
    have htot := trim_totals c.addr (BitVec.ofNat 64 m) t
    have hrest : c.rest m ∈ H''.chunks := by simp [hch'']
    refine ⟨H'', c.kept m, ⟨hr, ⟨fun e => by simp [hch''] at e, fun _ => ?_⟩, ?_, hlo.trans k.lo, ?_,
      by simp [hch''], rfl, Nat.le_refl m, ?_, fun d hd hdf => k.fresh d hd hdf, ?_, ?_, ?_,
      htot.allocated.trans k.allocated, htot.mmap.trans k.mmap, ?_⟩, rfl⟩
    · rw [hhi, congrArg Vars.brk hv]
      exact k.atBreak.grown (by simp [hch])
    · -- The rest is free and between two chunks in use.
      have hco := k.coalesced
      rw [hch] at hco
      rw [hch'']
      obtain ⟨h₁, h₂, -⟩ := List.isChain_append.mp hco
      have h₃ := (List.isChain_cons.mp h₂).2
      refine List.isChain_append.mpr ⟨h₁, List.isChain_cons.mpr ⟨?_, List.isChain_cons.mpr ⟨?_, h₃⟩⟩, ?_⟩
      · simp [Chunk.kept]
      · intro e he
        simp [hnext e he]
      · intro d _ e he
        simp only [List.head?_cons, Option.mem_def, Option.some.injEq] at he
        simp [← he, Chunk.kept]
    · rw [hhi]
      exact k.hi
    · intro d hd hdc
      have h₁ : d ≠ c.rest m := fun e => by simp [e, Chunk.rest] at hd
      by_cases hcc : d = c
      · -- The chunk itself is gone: neither heap has it in use.
        subst hcc
        have h₂ : d ∉ H.chunks := fun hm => k.fresh d hm hd rfl
        have h₃ : d ∉ H''.chunks := by
          intro hm
          have hkept : d.kept m ∈ H''.chunks := by simp [hch'']
          exact hdc (H''.tiled.start_inj hm hkept rfl)
        exact ⟨fun h => absurd h h₃, fun h => absurd h h₂⟩
      · rw [← k.others d hd hcc, hch'', hch]
        simp only [List.mem_append, List.mem_cons, hdc, hcc, h₁, false_or]
    · rw [congrArg Vars.mal hv]
      exact k.mal
    · rw [congrArg Vars.maps hv]
      exact k.maps
    · rw [congrArg Vars.brk hv]
      exact k.brk
    · -- A word outside both pieces was outside the chunk.
      intro w hw hout
      have hw₁ := hw.not_free hrest rfl
      simp only [Chunk.kept, Chunk.rest] at hout hw₁
      have hkeep : Kept s.mal H' w := by
        refine ⟨hw.1, fun _ => ?_⟩
        rw [← hlo, ← hhi]
        rcases hw.2 (List.ne_nil_of_mem hrest) with h | h | ⟨d, hd, hdf, h⟩
        · exact Or.inl h
        · exact Or.inr (Or.inl h)
        · refine Or.inr (Or.inr ⟨d, ?_, hdf, h⟩)
          have h₁ : d ≠ c.rest m := fun e => by simp [e, Chunk.rest] at hdf
          have h₂ : d ≠ c.kept m := by
            rintro rfl
            simp only [Chunk.kept] at h
            omega
          rw [hch''] at hd
          rw [hch]
          simp only [List.mem_append, List.mem_cons, h₁, h₂, false_or] at hd
          simp only [List.mem_append, List.mem_cons]
          tauto
      rw [hframe w (k.mal.symm ▸ hw)]
      exact k.frame w hkeep (by omega)
  · -- There is nothing to cut off.
    have heq : m = c.size := by
      have := k.large
      omega
    refine ⟨H', c, ?_, rfl⟩
    rw [heq, k.repr.trim_eq k.mem, ← heq]
    exact k

end Obtained

/-! ## The paths of `musl_malloc`

The fast path takes the first chunk of the request's own class if there would be nothing to trim,
the slow path the first chunk of the first class from there on. If there is none the heap grows. -/

/-- The neighbour behind a free chunk is in use. -/
theorem Coalesced.next_used (hco : Coalesced (l ++ c :: r)) (hf : c.free = true) :
    ∀ n ∈ r.head?, n.free = false := by
  intro n hn
  have := (List.isChain_cons.mp (List.isChain_append.mp hco).2.1).1 n hn
  simpa [hf] using this

theorem mallocTrim_brk (a : Nat) (n : Word) (s : State) :
    ∃ p s', mallocTrim a n s = .ret p s' ∧ s'.brk = s.brk :=
  ⟨_, _, rfl, congrArg Vars.brk (trim_toVars a n s)⟩

/-- Once the heap has grown the break stays where it is. -/
theorem expandHeap_mallocTrim_brk (sys : Sys) (v : Word) (s : State) :
    ∃ p s', (if (Musl.expandHeap sys v s).1 = 0 then .ret 0 (Musl.expandHeap sys v s).2
        else Musl.mallocTrim (Musl.expandHeap sys v s).1 v (Musl.expandHeap sys v s).2) = .ret p s' ∧
      s'.brk = (Musl.expandHeap sys v s).2.brk := by
  split
  · exact ⟨_, _, rfl, rfl⟩
  · exact mallocTrim_brk _ _ _

/-- The end of the slow path. -/
theorem Obtained.mallocTrim {v : Word} (k : Obtained s t H H' c v.toNat) (hch : H'.chunks = l ++ c :: r)
    (hnext : ∀ n ∈ r.head?, n.free = false) (hv : v.toNat % 32 = 0) (hpos : 32 ≤ v.toNat) :
    ∃ H'' c' u, Musl.mallocTrim c.addr v t =
        .ret (c'.addr + 16) (u.addAllocated (BitVec.ofNat 64 c'.size)) ∧
      Obtained s u H H'' c' v.toNat := by
  obtain ⟨H'', c', k', haddr⟩ := k.trim hch hnext hv (by omega)
  rw [BitVec.ofNat_toNat, BitVec.setWidth_eq] at k'
  refine ⟨H'', c', _, ?_, k'⟩
  rw [← haddr] at k' ⊢
  rw [Musl.mallocTrim, k'.repr.chunkSize k'.mem, chunkToMem]

section Paths

variable {v : Word} (h : Repr s H) (hb : AtBreak s H) (hco : Coalesced H.chunks)
  (hsys : sys.sbrk = true) (hv : v.toNat % 32 = 0) (hpos : 32 ≤ v.toNat) (hmax : v.toNat ≤ 229376)
include h hb hco hsys hv hpos hmax

/-- **The slow path.** The kernel moves the break only within the lower half of the address space. -/
theorem Repr.mallocSlow (hroom : ∀ p s', Musl.mallocSlow sys (fuel + 1) v (binIndexUp v) s = .ret p s' →
    s'.brk ≤ 2 ^ 63) :
    ∃ H' c u, Musl.mallocSlow sys (fuel + 1) v (binIndexUp v) s =
        .ret (c.addr + 16) (u.addAllocated (BitVec.ofNat 64 c.size)) ∧
      Obtained s u H H' c v.toNat := by
  rcases h.searchBins fuel (binIndexUp v) with ⟨-, hs⟩ | ⟨l, c, r, hch, hf, hi, hs⟩
  · -- Nothing on the lists is large enough for sure.
    have hslow : Musl.mallocSlow sys (fuel + 1) v (binIndexUp v) s =
        if (Musl.expandHeap sys v s).1 = 0 then .ret 0 (Musl.expandHeap sys v s).2
        else Musl.mallocTrim (Musl.expandHeap sys v s).1 v (Musl.expandHeap sys v s).2 := by
      rw [Musl.mallocSlow, hs]
    have hfits : s.brk + growth v ≤ 2 ^ 63 := by
      obtain ⟨p, s', hret, hs'⟩ := expandHeap_mallocTrim_brk sys v s
      rw [← h.expandHeap_brk hb hsys hmax, ← hs']
      exact hroom _ _ (hslow.trans hret)
    obtain ⟨H', c, haddr, k⟩ := h.expandHeap hb hsys (by omega) hmax hfits
    have hne : (Musl.expandHeap sys v s).1 ≠ 0 := by
      rw [haddr]
      have := H'.addr_align (c := c) (by simp [k.chunks])
      omega
    rw [hslow, if_neg hne, haddr]
    refine Obtained.mallocTrim (Obtained.of_expanded hco v.isLt ?_) k.chunks (by simp) hv hpos
    rwa [BitVec.ofNat_toNat, BitVec.setWidth_eq]
  · -- The chunk that was found is of a class that is large enough.
    have hc : c ∈ H.chunks := by simp [hch]
    obtain ⟨H', k, hch'⟩ := h.took_unbin hch hf
    have hlarge : v.toNat ≤ c.size := by
      rw [← H.toNat_size hc]
      refine le_of_binIndexUp_le hpos hmax hv ?_ ?_ hi <;> rw [H.toNat_size hc]
      · exact H.size_ge hc
      · exact H.granular c hc
    have hslow : Musl.mallocSlow sys (fuel + 1) v (binIndexUp v) s = Musl.mallocTrim c.used.addr v
        (Musl.unbin c.addr c.bin (Musl.lockBin c.bin s)) := by
      rw [Musl.mallocSlow, hs]
      rfl
    rw [hslow]
    refine Obtained.mallocTrim (Obtained.of_taken hb hco hch hf hlarge k hch') hch' ?_ hv hpos
    rw [hch] at hco
    exact hco.next_used hf

/-- **Below the threshold `musl_malloc` hands out a chunk of the brk heap**, whichever path it takes. -/
theorem Repr.muslMalloc (had : adjustSize n = some v)
    (hroom : ∀ p s', Musl.muslMalloc sys (fuel + 1) n s = .ret p s' → s'.brk ≤ 2 ^ 63) :
    ∃ H' c u, Musl.muslMalloc sys (fuel + 1) n s =
        .ret (c.addr + 16) (u.addAllocated (BitVec.ofNat 64 c.size)) ∧
      Obtained s u H H' c v.toNat := by
  have hthr : ¬v > mmapThreshold := not_gt_mmapThreshold.mpr hmax
  set i := binIndexUp v with hi
  -- The fast path falls through to the slow one.
  have hslow : Musl.muslMalloc sys (fuel + 1) n s =
      if i < 63 ∧ isBitSet s.binmap i then
        if (Musl.lockBin i s).head i ≠ (Musl.lockBin i s).binToChunk i ∧
            (Musl.lockBin i s).chunkSize ((Musl.lockBin i s).head i) - v ≤ dontcare then
          .ret (chunkToMem ((Musl.lockBin i s).head i))
            ((Musl.unbin ((Musl.lockBin i s).head i) i (Musl.lockBin i s)).addAllocated
              ((Musl.unbin ((Musl.lockBin i s).head i) i (Musl.lockBin i s)).chunkSize
                ((Musl.lockBin i s).head i)))
        else Musl.mallocSlow sys (fuel + 1) v i (Musl.lockBin i s)
      else Musl.mallocSlow sys (fuel + 1) v i s := by
    rw [Musl.muslMalloc, had]
    simp only [if_neg hthr, ← hi]
  by_cases hfast : i < 63 ∧ isBitSet s.binmap i
  · rw [if_pos hfast] at hslow
    have hi64 : i < 64 := by omega
    obtain ⟨hne, l, c, r, hch, hf, hb', hhead⟩ := h.head_of_bit hi64
      (by rw [← isBitSet_eq_getLsbD]; exact hfast.2)
    have hc : c ∈ H.chunks := by simp [hch]
    have hlock : Musl.lockBin i s = s := lockBin_head fun e => hne (Or.inl e)
    rw [hlock, hhead] at hslow
    by_cases hsz : c.addr ≠ s.binToChunk i ∧ s.chunkSize c.addr - v ≤ dontcare
    · rw [if_pos hsz] at hslow
      obtain ⟨H', k, hch'⟩ := h.took_unbin hch hf
      rw [hb', hlock] at k
      have hlarge : v.toNat ≤ c.size := by
        rw [← H.toNat_size hc]
        refine le_of_binIndexUp_le hpos hmax hv ?_ ?_ (Nat.le_of_eq hb'.symm) <;> rw [H.toNat_size hc]
        · exact H.size_ge hc
        · exact H.granular c hc
      refine ⟨H', c.used, _, ?_, Obtained.of_taken hb hco hch hf hlarge k hch'⟩
      have hcs : (Musl.unbin c.addr i s).chunkSize c.addr = BitVec.ofNat 64 c.size :=
        k.repr.chunkSize (c := c.used) (by simp [hch'])
      rw [hslow, hcs]
      rfl
    · rw [if_neg hsz] at hslow
      rw [hslow] at hroom ⊢
      exact h.mallocSlow hb hco hsys hv hpos hmax hroom
  · rw [if_neg hfast] at hslow
    rw [hslow] at hroom ⊢
    exact h.mallocSlow hb hco hsys hv hpos hmax hroom

end Paths

end MmExper.Musl
