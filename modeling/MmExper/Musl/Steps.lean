import MmExper.Musl.Repr

/-!
# Taking and trimming

The steps `musl_malloc` and `musl_free` are made of, each as what it does to a state that stores a
heap: taking a free chunk into use, which can be repeated (`Took`), and giving the tail of a chunk
back (`Repr.trim_split`).
-/

namespace MmExper.Musl

open Bitwise Lib

variable {s s' : State} {H : Heap} {c : Chunk} {i w : Nat} {l r old new : List Chunk} {f : Chunk}

/-- Writing size words does not touch the lists. -/
theorem Repr.lists_congr (h : Repr s H) (hv : s'.toVars = s.toVars)
    (hw : ∀ w, ¬Header H w → s'.mem w = s.mem w) : Lists s' H.bins := by
  refine h.lists.congr (congrArg Vars.mal hv) ?_ ?_
  · intro w hm
    exact hw w fun hh => h.header_notMal hh hm
  · intro j hj a ha
    exact ⟨hw _ fun hh => (h.header_ne_link hh hj (by simp [ha])).1 rfl,
      hw _ fun hh => (h.header_ne_link hh hj (by simp [ha])).2 rfl⟩

/-- The counters that only the two entry points and the growth of the heap change. -/
structure SameTotals (s s' : State) : Prop where
  allocated : s'.stats.allocatedBytes = s.stats.allocatedBytes
  mmap : s'.stats.mmapBytes = s.stats.mmapBytes
  heap : s'.stats.heapBytes = s.stats.heapBytes

theorem SameTotals.refl (s : State) : SameTotals s s := ⟨rfl, rfl, rfl⟩

theorem SameTotals.trans {s₁ s₂ s₃ : State} (h₁ : SameTotals s₁ s₂) (h₂ : SameTotals s₂ s₃) :
    SameTotals s₁ s₃ :=
  ⟨h₂.allocated.trans h₁.allocated, h₂.mmap.trans h₁.mmap, h₂.heap.trans h₁.heap⟩

theorem lockBin_totals (i : Nat) (s : State) : SameTotals s (lockBin i s) := by
  unfold lockBin
  split <;> exact ⟨rfl, rfl, rfl⟩

theorem unbin_totals (c i : Nat) (s : State) : SameTotals s (unbin c i s) := by
  unfold unbin
  split <;> exact ⟨rfl, rfl, rfl⟩

theorem binChunk_totals (c i : Nat) (s : State) : SameTotals s (binChunk c i s) := by
  unfold binChunk
  simp only []
  split <;> exact ⟨rfl, rfl, rfl⟩

/-! ## Taking chunks

`Took` says what stays when free chunks are taken into use. It composes, so that the two merges of a
free can be done one after the other. -/

/-- What taking the free chunks `ps` into use, one after the other, leaves as it was. -/
structure Took (s t : State) (H H' : Heap) (ps : List Chunk) : Prop where
  repr : Repr t H'
  lo : H'.lo = H.lo
  hi : H'.hi = H.hi
  vars : t.toVars = s.toVars
  totals : SameTotals s t
  nonempty : H'.chunks ≠ [] → H.chunks ≠ []
  /-- What was in use still is. -/
  used : ∀ d ∈ H.chunks, d.free = false → d ∈ H'.chunks
  frame : ∀ w, Kept s.mal H w → t.mem w = s.mem w
  headers : ∀ w, ¬InMal s.mal w → w % 32 = 16 ∨ w % 32 = 24 →
    (∀ p ∈ ps, w ≠ p.addr + 8 ∧ w ≠ p.addr + p.size) → t.mem w = s.mem w

namespace Took

variable {t u : State} {H' H'' : Heap} {ps qs : List Chunk}

theorem kept (k : Took s t H H' ps) (hw : Kept s.mal H w) : Kept s.mal H' w := by
  refine ⟨hw.1, fun hne => ?_⟩
  rw [k.lo, k.hi]
  rcases hw.2 (k.nonempty hne) with h | h | ⟨d, hd, hf, h⟩
  · exact Or.inl h
  · exact Or.inr (Or.inl h)
  · exact Or.inr (Or.inr ⟨d, k.used d hd hf, hf, h⟩)

theorem refl (h : Repr s H) : Took s s H H [] :=
  ⟨h, rfl, rfl, rfl, SameTotals.refl s, id, fun _ hd _ => hd, fun _ _ => rfl, fun _ _ _ _ => rfl⟩

theorem trans (k₁ : Took s t H H' ps) (k₂ : Took t u H' H'' qs) : Took s u H H'' (ps ++ qs) := by
  have hmal : t.mal = s.mal := congrArg Vars.mal k₁.vars
  refine ⟨k₂.repr, k₂.lo.trans k₁.lo, k₂.hi.trans k₁.hi, k₂.vars.trans k₁.vars,
    k₁.totals.trans k₂.totals, fun hne => k₁.nonempty (k₂.nonempty hne),
    fun d hd hf => k₂.used d (k₁.used d hd hf) hf, ?_, ?_⟩
  · intro w hw
    rw [k₂.frame w (by rw [hmal]; exact k₁.kept hw), k₁.frame w hw]
  · intro w hm hal hps
    rw [k₂.headers w (by rwa [hmal]) hal fun p hp => hps p (by simp [hp]),
      k₁.headers w hm hal fun p hp => hps p (by simp [hp])]

end Took

/-- **Taking one chunk**: `lock_bin` and `unbin`, in the chunk's own bin. -/
theorem Repr.took_unbin_bins (h : Repr s H) (hch : H.chunks = l ++ c :: r) (hf : c.free = true) :
    ∃ H', Took s (Musl.unbin c.addr c.bin (Musl.lockBin c.bin s)) H H' [c] ∧
      H'.chunks = l ++ c.used :: r ∧ H'.bins = without H.bins [c.addr] := by
  have hc : c ∈ H.chunks := by simp [hch]
  have hi := H.bin_lt hc
  obtain ⟨hr, hset, hm⟩ := h.lockBin hi
  have hmal : (Musl.lockBin c.bin s).mal = s.mal := congrArg Vars.mal lockBin_toVars
  obtain ⟨H', hr', hlo, hhi, hch', hb⟩ := hr.unbin hch hf hset
  refine ⟨H', ⟨hr', hlo, hhi, unbin_toVars.trans lockBin_toVars,
    (lockBin_totals _ _).trans (unbin_totals _ _ _), fun _ => List.ne_nil_of_mem hc, ?_, ?_, ?_⟩, hch', hb⟩
  · intro d hd hdf
    have hne : d ≠ c := fun e => by simp [e, hf] at hdf
    rw [hch] at hd
    rw [hch']
    grind
  · intro w hw
    rw [hr.unbin_mem hc hf hset (by rw [hmal]; exact hw.1) (Or.inl (by rwa [hmal])), hm w hw.1]
  · intro w hw hal hps
    obtain ⟨h₁, h₂⟩ := hps c (by simp)
    rw [hr.unbin_mem hc hf hset (by rwa [hmal]) (Or.inr ⟨hal, h₁, h₂⟩), hm w hw]

theorem Repr.took_unbin (h : Repr s H) (hch : H.chunks = l ++ c :: r) (hf : c.free = true) :
    ∃ H', Took s (Musl.unbin c.addr c.bin (Musl.lockBin c.bin s)) H H' [c] ∧
      H'.chunks = l ++ c.used :: r := by
  obtain ⟨H', hk, hch', -⟩ := h.took_unbin_bins hch hf
  exact ⟨H', hk, hch'⟩

/-! ## `trim`

If enough is left, the chunk is cut in two and the tail goes straight onto its list. There is
nothing to merge it with: the chunk behind it is in use. -/

@[simp] theorem trim_toVars (c : Nat) (n : Word) (s : State) : (trim c n s).toVars = s.toVars := by
  unfold trim
  simp only []
  split
  · rfl
  · rw [binChunk_toVars, lockBin_toVars]
    rfl

theorem splitTags_totals (c d e : Nat) (n n1 : Word) (s : State) :
    SameTotals s (splitTags c d e n n1 s) := ⟨rfl, rfl, rfl⟩

theorem trim_totals (c : Nat) (n : Word) (s : State) : SameTotals s (trim c n s) := by
  unfold trim
  simp only []
  split
  · exact SameTotals.refl s
  · exact ((splitTags_totals _ _ _ _ _ _).trans (lockBin_totals _ _)).trans (binChunk_totals _ _ _)

/-- The piece of a chunk that `trim` keeps. -/
def Chunk.kept (c : Chunk) (n : Nat) : Chunk := ⟨c.addr, n, false⟩

/-- The piece of a chunk that `trim` gives back. -/
def Chunk.rest (c : Chunk) (n : Nat) : Chunk := ⟨c.addr + n, c.size - n, true⟩

section Trim

variable {n : Nat}

/-- Cutting a used chunk in two is one of the changes a heap admits. -/
theorem puts_split (hch : H.chunks = l ++ c :: r) (hf : c.free = false) (hn : n % 32 = 0)
    (hpos : 0 < n) (hlt : n < c.size) : H.Puts l [c] [c.kept n] r (c.rest n) := by
  have hgr := H.granular c (by simp [hch])
  refine ⟨hch, by simpa using hf, by simp [Chunk.kept], rfl, ?_, ?_⟩
  · rintro a b ⟨h₁, -, h₃⟩
    have h₃' : a + c.size = b := h₃
    refine ⟨h₁, hpos, ?_, ?_, ?_⟩
    · change c.addr + n = a + n
      omega
    · change 0 < c.size - n
      omega
    · change a + n + (c.size - n) = b
      omega
  · intro d hd
    simp only [List.cons_append, List.nil_append, List.mem_cons, List.not_mem_nil, or_false] at hd
    rcases hd with rfl | rfl
    · exact hn
    · simp only [Chunk.rest]
      omega

theorem splitTags_mem {c d e : Nat} {n m : Word} (h₁ : w ≠ d) (h₂ : w ≠ d + 8) (h₃ : w ≠ e)
    (h₄ : w ≠ c + 8) : (splitTags c d e n m s).mem w = s.mem w := by
  simp only [splitTags, State.setCsize, State.setPsize, State.store_mem]
  rw [Function.update_of_ne h₄, Function.update_of_ne h₃, Function.update_of_ne h₂,
    Function.update_of_ne h₁]

/-- The size words after the cut are those of the two pieces. -/
theorem splitTags_tags (h : Repr s H) (hch : H.chunks = l ++ c :: r) (hn : n % 32 = 0)
    (hpos : 0 < n) (hlt : n < c.size) :
    Tags (splitTags c.addr (c.addr + n) (c.addr + c.size) (BitVec.ofNat 64 n) (BitVec.ofNat 64 c.size) s)
      H.lo H.hi (l ++ ([c.kept n] ++ c.rest n :: r)) := by
  have hc : c ∈ H.chunks := by simp [hch]
  have hcb := H.tiled.bounds hc
  have hgr := H.granular c hc
  have hbd := H.bound
  have hword : BitVec.ofNat 64 c.size - BitVec.ofNat 64 n = BitVec.ofNat 64 (c.size - n) := by
    apply BitVec.eq_of_toNat_eq
    rw [BitVec.toNat_sub_of_le (by simp only [BitVec.le_def, BitVec.toNat_ofNat]; omega)]
    simp only [BitVec.toNat_ofNat]
    omega
  have ht := H.tiled
  rw [hch] at ht
  obtain ⟨hl, -, hr⟩ := tiled_split.mp ht
  rw [show l ++ ([c.kept n] ++ c.rest n :: r) = l ++ ([c.kept n, c.rest n] ++ r) by simp]
  refine (h.tags (List.ne_nil_of_mem hc)).replace [c] _ hch hl hr (by omega) ?_ ?_
  · -- Only the header of the chunk, the place of the cut and the footer are written.
    intro w _ hout
    exact splitTags_mem (by omega) (by omega) (by omega) (by omega)
  intro d hd
  simp only [List.mem_cons, List.not_mem_nil, or_false] at hd
  rcases hd with rfl | rfl
  · -- The first piece: its footer is the size word below the second one.
    simp only [Chunk.kept, Chunk.tag, splitTags, State.setCsize, State.setPsize, State.csize,
      State.psize, State.store_mem]
    rw [Function.update_self, Function.update_of_ne (by omega), Function.update_of_ne (by omega),
      Function.update_of_ne (by omega), Function.update_self]
    exact ⟨rfl, rfl⟩
  · have he : c.addr + n + (c.size - n) = c.addr + c.size := by omega
    simp only [Chunk.rest, Chunk.tag, if_true, he, splitTags, State.setCsize, State.setPsize,
      State.csize, State.psize, State.store_mem, hword]
    rw [Function.update_of_ne (by omega), Function.update_of_ne (by omega), Function.update_self,
      Function.update_of_ne (by omega), Function.update_self]
    exact ⟨rfl, rfl⟩

/-- `trim` on a chunk that is too large. -/
theorem Repr.trim_split_bins (h : Repr s H) (hch : H.chunks = l ++ c :: r) (hf : c.free = false)
    (hn : n % 32 = 0) (hpos : 0 < n) (hlt : n < c.size) :
    ∃ H', Repr (Musl.trim c.addr (BitVec.ofNat 64 n) s) H' ∧ H'.lo = H.lo ∧ H'.hi = H.hi ∧
      H'.chunks = l ++ c.kept n :: c.rest n :: r ∧
      (∀ w, Kept s.mal H' w → (Musl.trim c.addr (BitVec.ofNat 64 n) s).mem w = s.mem w) ∧
      H'.bins = Function.update H.bins (c.rest n).bin (H.bins (c.rest n).bin ++ [(c.rest n).addr]) := by
  have hc : c ∈ H.chunks := by simp [hch]
  have hcb := H.tiled.bounds hc
  have hca := H.addr_align hc
  have hgr := H.granular c hc
  have hbd := H.bound
  have hp := puts_split hch hf hn hpos hlt
  have hi := (H.put hp).bin_lt (c := c.rest n) (by simp [Heap.put])
  have hnn : (BitVec.ofNat 64 n).toNat = n :=
    Lib.toNat_ofNat_of_lt (by omega)
  have hdiff : BitVec.ofNat 64 c.size - BitVec.ofNat 64 n = BitVec.ofNat 64 (c.size - n) := by
    apply BitVec.eq_of_toNat_eq
    rw [BitVec.toNat_sub_of_le (by simp only [BitVec.le_def, BitVec.toNat_ofNat]; omega)]
    simp only [BitVec.toNat_ofNat]
    omega
  have hlarge : ¬BitVec.ofNat 64 (c.size - n) ≤ dontcare := by
    simp only [BitVec.le_def, BitVec.toNat_ofNat, dontcare]
    omega
  -- `trim` is the cut and then `bin_chunk` on the rest.
  have htrim : Musl.trim c.addr (BitVec.ofNat 64 n) s = Musl.binChunk (c.rest n).addr (c.rest n).bin
      (Musl.lockBin (c.rest n).bin (splitTags c.addr (c.addr + n) (c.addr + c.size)
        (BitVec.ofNat 64 n) (BitVec.ofNat 64 c.size) s)) := by
    rw [Musl.trim, h.chunkSize hc]
    simp only [hdiff]
    rw [if_neg hlarge, hnn, h.nextChunk hc]
    rfl
  rw [htrim]
  set t := splitTags c.addr (c.addr + n) (c.addr + c.size) (BitVec.ofNat 64 n)
    (BitVec.ofNat 64 c.size) s with ht
  have hmem : ∀ w, w ≠ c.addr + n → w ≠ c.addr + n + 8 → w ≠ c.addr + c.size → w ≠ c.addr + 8 →
      t.mem w = s.mem w := fun w h₁ h₂ h₃ h₄ => splitTags_mem h₁ h₂ h₃ h₄
  -- The four words of the cut are outside `mal`, so the lists are the old ones.
  have hlists : Lists t H.bins := by
    refine h.lists_congr rfl fun w hw => hmem w ?_ ?_ ?_ ?_ <;>
      · rintro rfl
        exact hw ⟨by omega, by omega, by omega⟩
  obtain ⟨hlists', hset⟩ := hlists.lockBin hi
  have hlock : ∀ w, ¬InMal s.mal w → (Musl.lockBin (c.rest n).bin t).mem w = t.mem w := fun w hw =>
    lockBin_mem hi hw
  -- The tags of the cut survive `lock_bin`, which writes into `mal` only.
  have htags₀ := splitTags_tags h hch hn hpos hlt
  have htags : Tags (Musl.lockBin (c.rest n).bin t) H.lo H.hi (l ++ ([c.kept n] ++ c.rest n :: r)) :=
    Tags.congr (H := H.put hp) htags₀ fun w hw => hlock w (h.header_notMal hw)
  have hv : (Musl.lockBin (c.rest n).bin t).toVars = s.toVars := lockBin_toVars
  obtain ⟨hrepr, hframe⟩ := h.binChunk hp hv lockBin_stats hlists' hset htags
  refine ⟨H.put hp, hrepr, rfl, rfl, rfl, ?_, rfl⟩
  -- A kept word is in no header, of either piece or of the chunk behind.
  intro w hw
  have h₁ := hw.not_header (c := c.kept n) (by simp [Heap.put])
  have h₂ := hw.not_header (c := c.rest n) (by simp [Heap.put])
  have h₃ := hw.not_next (c := c.rest n) (by simp [Heap.put])
  simp only [Chunk.kept, Chunk.rest] at h₁ h₂ h₃
  rw [hframe w (by rw [hv]; exact hw.1) (Or.inl (by rw [hv]; exact hw)), hlock w hw.1]
  exact hmem w (by omega) (by omega) (by omega) (by omega)

theorem Repr.trim_split (h : Repr s H) (hch : H.chunks = l ++ c :: r) (hf : c.free = false)
    (hn : n % 32 = 0) (hpos : 0 < n) (hlt : n < c.size) :
    ∃ H', Repr (Musl.trim c.addr (BitVec.ofNat 64 n) s) H' ∧ H'.lo = H.lo ∧ H'.hi = H.hi ∧
      H'.chunks = l ++ c.kept n :: c.rest n :: r ∧
      ∀ w, Kept s.mal H' w → (Musl.trim c.addr (BitVec.ofNat 64 n) s).mem w = s.mem w := by
  obtain ⟨H', hr, hlo, hhi, hch', hframe, -⟩ := h.trim_split_bins hch hf hn hpos hlt
  exact ⟨H', hr, hlo, hhi, hch', hframe⟩

/-- `trim` on a chunk of the right size. -/
theorem Repr.trim_eq (h : Repr s H) (hc : c ∈ H.chunks) :
    Musl.trim c.addr (BitVec.ofNat 64 c.size) s = s := by
  rw [Musl.trim, h.chunkSize hc]
  simp

end Trim

end MmExper.Musl
