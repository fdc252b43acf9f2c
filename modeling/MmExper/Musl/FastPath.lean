import MmExper.Musl.Invariant

/-!
# The fast path of `musl_malloc`

The fast path takes the first chunk of the bin of the request if at most `DONTCARE` bytes of it would
be left over. The slow path looks for the lowest set bit from that bin on, which is the bin itself, takes
the same chunk, and then leaves it untrimmed.
-/

namespace MmExper.Musl

open Bitwise Lib

variable {w : World} {s : State} {H : Heap} {sys : Sys} {fuel i : Nat} {n v : Word}

/-- The fast path of `musl_malloc` succeeds for the adjusted size `v`. -/
def FastPath (v : Word) (s : State) : Prop :=
  binIndexUp v < 63 ∧ isBitSet s.binmap (binIndexUp v) = true ∧
    (lockBin (binIndexUp v) s).head (binIndexUp v) ≠ (lockBin (binIndexUp v) s).binToChunk (binIndexUp v) ∧
    (lockBin (binIndexUp v) s).chunkSize ((lockBin (binIndexUp v) s).head (binIndexUp v)) - v ≤ dontcare

instance (v : Word) (s : State) : Decidable (FastPath v s) :=
  inferInstanceAs (Decidable (_ ∧ _ ∧ _ ∧ _))

/-- What the fast path does. -/
theorem muslMalloc_fast (had : adjustSize n = some v) (hthr : v ≤ mmapThreshold) (hf : FastPath v s) :
    muslMalloc sys fuel n s =
      .ret (chunkToMem ((lockBin (binIndexUp v) s).head (binIndexUp v)))
        ((unbin ((lockBin (binIndexUp v) s).head (binIndexUp v)) (binIndexUp v)
            (lockBin (binIndexUp v) s)).addAllocated
          ((unbin ((lockBin (binIndexUp v) s).head (binIndexUp v)) (binIndexUp v)
            (lockBin (binIndexUp v) s)).chunkSize ((lockBin (binIndexUp v) s).head (binIndexUp v)))) := by
  obtain ⟨h₁, h₂, h₃, h₄⟩ := hf
  have hnot : ¬v > mmapThreshold := BitVec.not_lt.mpr hthr
  rw [muslMalloc, had]
  simp only [if_neg hnot]
  rw [if_pos ⟨h₁, h₂⟩, if_pos ⟨h₃, h₄⟩]

/-- The lowest bit from a set bit on is that bit. -/
theorem firstSet_maskHighBits {x : Word} (h : isBitSet x i = true) :
    maskHighBits x i ≠ 0#64 ∧ firstSet (maskHighBits x i) = i := by
  rw [isBitSet_eq_getLsbD] at h
  have hbit : (maskHighBits x i).getLsbD i = true := by
    rw [getLsbD_maskHighBits, h]
    simp
  have hne : maskHighBits x i ≠ 0#64 := by
    intro e
    rw [e, BitVec.getLsbD_zero] at hbit
    cases hbit
  obtain ⟨-, hset, hmin⟩ := firstSet_spec hne
  refine ⟨hne, Nat.le_antisymm ?_ ?_⟩
  · by_contra hlt
    rw [hmin i (Nat.not_le.mp hlt)] at hbit
    cases hbit
  · rw [getLsbD_maskHighBits, Bool.and_eq_true, decide_eq_true_eq] at hset
    exact hset.2

/-- A chunk with at most `DONTCARE` bytes too many is not trimmed. -/
theorem mallocTrim_of_le {c : Nat} (h : s.chunkSize c - v ≤ dontcare) :
    mallocTrim c v s = .ret (chunkToMem c) (s.addAllocated (s.chunkSize c)) := by
  have htrim : trim c v s = s := by
    rw [trim]
    exact if_pos h
  rw [mallocTrim, htrim]

/-- In a state that stores a heap the slow path does the same. -/
theorem mallocSlow_fast (h : Repr s H) (hf : FastPath v s) :
    mallocSlow sys (fuel + 1) v (binIndexUp v) s =
      .ret (chunkToMem ((lockBin (binIndexUp v) s).head (binIndexUp v)))
        ((unbin ((lockBin (binIndexUp v) s).head (binIndexUp v)) (binIndexUp v)
            (lockBin (binIndexUp v) s)).addAllocated
          ((unbin ((lockBin (binIndexUp v) s).head (binIndexUp v)) (binIndexUp v)
            (lockBin (binIndexUp v) s)).chunkSize ((lockBin (binIndexUp v) s).head (binIndexUp v)))) := by
  obtain ⟨h₁, h₂, -, h₄⟩ := hf
  set i := binIndexUp v
  have hi : i < 64 := by omega
  obtain ⟨hne, l, c, r, hch, hcf, hcb, hhead⟩ := h.head_of_bit hi (by rwa [← isBitSet_eq_getLsbD])
  have hc : c ∈ H.chunks := by simp [hch]
  have hlock : lockBin i s = s := lockBin_head fun e => hne (Or.inl e)
  rw [hlock, hhead] at h₄ ⊢
  -- The search ends at the first bit it looks at.
  obtain ⟨hmask, hfirst⟩ := firstSet_maskHighBits h₂
  have hsearch : searchBins (fuel + 1) (maskHighBits s.binmap i) s =
      some ⟨[i], some c.addr, unbin c.addr i s⟩ := by
    rw [searchBins_takes fuel hmask (by rwa [hfirst]), hfirst, hhead]
  -- Taking the chunk into use does not change its size.
  obtain ⟨H', k, hch'⟩ := h.took_unbin hch hcf
  rw [hcb, hlock] at k
  have hsize : (unbin c.addr i s).chunkSize c.addr = s.chunkSize c.addr := by
    rw [h.chunkSize hc]
    exact k.repr.chunkSize (c := c.used) (by simp [hch'])
  rw [mallocSlow, hsearch]
  show mallocTrim c.addr v (unbin c.addr i s) = _
  apply mallocTrim_of_le
  rw [hsize]
  exact h₄

/-- **The fast path equals the slow path**, in the result and in everything that is left behind. -/
theorem fast_path_eq_slow_path (hw : Reachable w) (had : adjustSize n = some v)
    (hthr : v ≤ mmapThreshold) (hf : FastPath v w.state) :
    ∃ p s', muslMalloc sys fuel n w.state = .ret p s' ∧
      mallocSlow sys (fuel + 1) v (binIndexUp v) w.state = .ret p s' := by
  obtain ⟨H, hinv⟩ := reachable_inv hw
  exact ⟨_, _, muslMalloc_fast had hthr hf, mallocSlow_fast hinv.repr hf⟩

/-- A chunk that was freed between two others is asked for again. -/
theorem fast_path_eq_slow_path_run :
    ∃ w, start.run [.malloc 24, .malloc 24, .free 0x20020] = some w ∧
      ∃ p s', muslMalloc ⟨true, none⟩ 0 24 w.state = .ret p s' ∧
        mallocSlow ⟨true, none⟩ 1 64 (binIndexUp 64) w.state = .ret p s' := by
  obtain ⟨w, hw, hr, hc⟩ := start_run [.malloc 24, .malloc 24, .free 0x20020]
    (fun w => FastPath 64 w.state) (by decide +kernel)
  simp only [decide_eq_true_eq] at hc
  exact ⟨w, hw, fast_path_eq_slow_path hr (by decide) (by decide) hc⟩

end MmExper.Musl
