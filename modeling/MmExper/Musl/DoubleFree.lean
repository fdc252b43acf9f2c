import MmExper.Musl.Contract

/-!
# Freeing twice

What the second `musl_free(p)` sees are the two header words of the freed chunk and the footer behind
it, as the first one left them. They depend on which neighbours were free: a chunk that keeps its place
is a free chunk now and goes to `unmap_chunk`, where the odd `psize` gives it away; a chunk swallowed by
a free chunk below it keeps its stale header, whose footer gives it away only if it was rewritten.
Either header can also have been returned to the kernel and read as zero.
-/

namespace MmExper.Musl

open Bitwise Lib

variable {w : World} {s s' t u : State} {H H' : Heap} {c f n p : Chunk} {a : Alloc} {x osize : Nat}
  {l r pre post : List Chunk}

/-! ## Which free crashes

There are two tests, one for each path, and each compares two header words. -/

/-- The footer test of `__bin_chunk` decides between the crash, with memory untouched, and a return. -/
theorem _binChunk_cases (self : Nat) (s : State) :
    s.psize (s.nextChunk self) ≠ s.csize self ∧
        _binChunk self s = .crash (s.subAllocated (s.chunkSize self)) ∨
      s.psize (s.nextChunk self) = s.csize self ∧ ∃ t, _binChunk self s = .ret () t := by
  by_cases h : s.psize (s.nextChunk self) = s.csize self
  · right
    refine ⟨h, ?_⟩
    rw [_binChunk]
    exact ⟨_, if_neg (not_not.mpr h)⟩
  · left
    refine ⟨h, ?_⟩
    rw [_binChunk]
    exact if_pos h

/-- So does the `psize` test of `unmap_chunk`. -/
theorem unmapChunk_cases (self : Nat) (s : State) :
    s.psize self &&& 1#64 ≠ 0#64 ∧ unmapChunk self s = .crash (s.subAllocated (s.chunkSize self)) ∨
      s.psize self &&& 1#64 = 0#64 ∧ ∃ t, unmapChunk self s = .ret () t := by
  by_cases h : s.psize self &&& 1#64 = 0#64
  · right
    refine ⟨h, ?_⟩
    rw [unmapChunk]
    exact ⟨_, if_neg (not_not.mpr h)⟩
  · left
    refine ⟨h, ?_⟩
    rw [unmapChunk]
    exact if_pos h

/-- `musl_free` crashes here, with no word of memory changed, so no bin either. -/
def Crashes (p : Nat) (s : State) : Prop := ∃ t, muslFree p s = .crash t ∧ t.mem = s.mem

/-- What `musl_free` looks at before it decides. -/
theorem crashes_iff (c : Nat) (s : State) : Crashes (c + 16) s ↔
    if s.csize c &&& cInuse = 0#64 then s.psize c &&& 1#64 ≠ 0#64
    else s.psize (s.nextChunk c) ≠ s.csize c := by
  have hself : memToChunk (c + 16) = c := by
    simp [memToChunk]
  have hfree : muslFree (c + 16) s =
      if s.csize c &&& cInuse = 0#64 then unmapChunk c s else _binChunk c s := by
    rw [muslFree, if_neg (by omega)]
    simp only [hself, State.isMmapped, decide_eq_true_eq]
  rw [Crashes, hfree]
  split
  · rcases unmapChunk_cases c s with ⟨h, e⟩ | ⟨h, t, e⟩
    · exact ⟨fun _ => h, fun _ => ⟨_, e, rfl⟩⟩
    · simp [e, h]
  · rcases _binChunk_cases c s with ⟨h, e⟩ | ⟨h, t, e⟩
    · exact ⟨fun _ => h, fun _ => ⟨_, e, rfl⟩⟩
    · simp [e, h]

/-! ## The header after the first free

A chunk with no free neighbour below keeps its place, and is tagged as free. One that was merged
into the chunk below is inside it: its old words are still there, unless they were in pages that
went back. -/

/-- The chunk that freeing `c` makes of it and its free neighbours, from the size words before. -/
def freedChunk (s : State) (c : Nat) : Chunk :=
  let below := if s.psize c &&& cInuse = 0#64 then (s.chunkPsize c).toNat else 0
  let above := if FreeChunk s (s.nextChunk c) then (s.chunkSize (s.nextChunk c)).toNat else 0
  ⟨c - below, below + (s.chunkSize c).toNat + above, true⟩

/-- The words of the header of `x` are given back to the kernel when `c` is freed. -/
def Zeroed (s : State) (c x : Nat) : Prop := Reclaimed (freedChunk s c) (s.chunkSize c).toNat x

instance (s : State) (c x : Nat) : Decidable (Zeroed s c x) :=
  inferInstanceAs (Decidable (Reclaimed _ _ _))

/-- **When a second free is caught.** The chunk below is in use; or the chunk's old header survives the
first free and the footer behind it does not: the chunk above is in use, or its header is zeroed. -/
def CaughtTwice (s : State) (c : Nat) : Prop :=
  s.psize c &&& cInuse ≠ 0#64 ∨
    ¬Zeroed s c c ∧ (¬FreeChunk s (s.nextChunk c) ∨ Zeroed s c (s.nextChunk c))

section Around

variable (h : Repr s H) (hch : H.chunks = l ++ (pre ++ c :: (post ++ r))) (ha : Around l pre post r)
include h hch ha

/-- The chunk below is free exactly when it is merged. -/
theorem Around.psize_iff : s.psize c.addr &&& cInuse = 0#64 ↔ pre ≠ [] := by
  rw [h.psize_self (l := l ++ pre) (r := post ++ r) (by simpa using hch)]
  rcases ha.below with rfl | ⟨p, rfl, hp⟩
  · simp only [List.append_nil, ne_eq, not_true_eq_false, iff_false]
    cases hl : l.getLast? with
    | none => decide
    | some p =>
        have hpl : p ∈ l := List.mem_of_getLast? hl
        rw [Option.map_some, Option.getD_some, cInuse,
          Chunk.tag_and_one (H.granular p (by rw [hch]; simp [hpl])), ha.last p hl]
        simp
  · simp only [List.getLast?_append, List.getLast?_singleton, Option.some_or, Option.map_some,
      Option.getD_some, cInuse]
    rw [Chunk.tag_and_one (H.granular p (by simp [hch])), hp]
    simp

/-- And the one above. -/
theorem Around.next_iff : FreeChunk s (c.addr + c.size) ↔ post ≠ [] := by
  rw [FreeChunk, h.csize_next (l := l ++ pre) (r := post ++ r) (by simpa using hch)]
  rcases ha.above with rfl | ⟨n, rfl, hn⟩
  · simp only [List.nil_append, ne_eq, not_true_eq_false, iff_false]
    cases hr : r.head? with
    | none => decide
    | some n =>
        have hnr : n ∈ r := List.mem_of_head? hr
        rw [Option.map_some, Option.getD_some, cInuse,
          Chunk.tag_and_one (H.granular n (by rw [hch]; simp [hnr])), ha.next n hr]
        simp
  · simp only [List.cons_append, List.nil_append, List.head?_cons, Option.map_some, Option.getD_some,
      cInuse]
    rw [Chunk.tag_and_one (H.granular n (by simp [hch])), hn]
    simp

theorem Around.freedChunk_eq : freedChunk s c.addr = merged pre c post := by
  have hc : c ∈ H.chunks := by simp [hch]
  have hpre := ha.psize_iff h hch
  have hpost := ha.next_iff h hch
  have hsz := h.toNat_chunkSize hc
  -- What `__bin_chunk` reads below and behind the chunk is what is there.
  have hbelow : (if s.psize c.addr &&& cInuse = 0#64 then (s.chunkPsize c.addr).toNat else 0) =
      (pre.map Chunk.size).sum := by
    rcases ha.below with rfl | ⟨p, rfl, hp⟩
    · rw [if_neg fun e => hpre.mp e rfl]
      rfl
    · have hpm : p ∈ H.chunks := by simp [hch]
      rw [if_pos (hpre.mpr (by simp)), State.chunkPsize,
        h.psize_self (l := l ++ [p]) (r := post ++ r) (by simpa using hch)]
      simp only [List.getLast?_append, List.getLast?_singleton, Option.some_or, Option.map_some,
        Option.getD_some, List.map_cons, List.map_nil, List.sum_cons, List.sum_nil, Nat.add_zero]
      rw [Chunk.tag_and_neg_two (H.granular p hpm), H.toNat_size hpm]
  have habove : (if FreeChunk s (c.addr + c.size) then (s.chunkSize (c.addr + c.size)).toNat else 0) =
      (post.map Chunk.size).sum := by
    rcases ha.above with rfl | ⟨n, rfl, hn⟩
    · rw [if_neg fun e => hpost.mp e rfl]
      rfl
    · have hnm : n ∈ H.chunks := by simp [hch]
      have hstart : n.addr = c.addr + c.size := by
        have htile := H.tiled
        rw [hch] at htile
        exact Tiled.next_start (l := l ++ pre) (r := r) (by simpa using htile)
      rw [if_pos (hpost.mpr (by simp)), ← hstart, h.toNat_chunkSize hnm]
      simp
  rw [freedChunk, h.nextChunk hc, hbelow, habove, hsz, merged]
  simp only [List.map_append, List.map_cons, List.sum_append, List.sum_cons, Nat.add_assoc]

end Around

/-- Pages are given back whole, and a header lies in one page. -/
theorem reclaimed_header (hx : x % 32 = 16) : Reclaimed f osize (x + 8) ↔ Reclaimed f osize x := by
  simp only [Reclaimed, pageUp, pageDown]
  refine and_congr_right fun _ => ?_
  constructor <;> omega

/-- A size word of a chunk in use is not an even one. -/
theorem Chunk.tag_ne_ofNat {m : Nat} (hc : c.free = false) (hg : c.size % 32 = 0) (hm : m % 2 = 0) :
    BitVec.ofNat 64 m ≠ c.tag := by
  intro e
  have h₁ : ¬c.tag &&& 1#64 = 0#64 := by
    rw [Chunk.tag_and_one hg, hc]
    simp
  refine h₁ ?_
  rw [← e, ← BitVec.toNat_inj, toNat_and_one (by omega), BitVec.toNat_ofNat, BitVec.toNat_ofNat]
  omega

/-- A chunk that keeps its place is a free chunk after a chunk in use. -/
theorem Freed.crashes_in_place (k : Freed s u H H' l [] c post r) (ha : Around l [] post r)
    (hr : Repr t H') : Crashes (c.addr + 16) t := by
  set f := merged [] c post with hf
  have hfm : f ∈ H'.chunks := by simp [k.chunks, ← hf]
  have haddr : c.addr = f.addr := by simp [hf, merged]
  have hff : f.free = true := rfl
  have hlow : t.psize f.addr = (l.getLast?.map Chunk.tag).getD (0#64 ||| cInuse) :=
    hr.psize_self k.chunks
  rw [haddr, crashes_iff, (hr.tags (List.ne_nil_of_mem hfm)).csize f hfm, cInuse,
    if_pos ((Chunk.tag_and_one (H'.granular f hfm)).mpr hff), hlow]
  cases hl : l.getLast? with
  | none => decide
  | some p =>
      have hpm : p ∈ H'.chunks := by
        rw [k.chunks]
        simp [List.mem_of_getLast? hl]
      rw [Option.map_some, Option.getD_some, ne_eq, Chunk.tag_and_one (H'.granular p hpm), ha.last p hl]
      simp

section After

variable (h : Repr s H) (hch : H.chunks = l ++ ([p] ++ c :: (post ++ r)))
  (k : Freed s u H H' l [p] c post r)
  (hmem : ∀ x, t.mem x = if Reclaimed (merged [p] c post) c.size x then 0#64 else u.mem x)
include h hch k hmem

/-- A header word inside the merged chunk that no merge rewrites is as it was, or given back. -/
theorem Freed.stale_word (hx : x % 32 = 16 ∨ x % 32 = 24) (h₁ : c.addr < x)
    (h₂ : x < c.addr + c.size + (post.map Chunk.size).sum)
    (hpost : ∀ n ∈ post, x ≠ n.addr + 8 ∧ x ≠ n.addr + n.size) :
    t.mem x = if Reclaimed (merged [p] c post) c.size x then 0#64 else s.mem x := by
  have hpm : p ∈ H.chunks := by simp [hch]
  have hps := H.size_ge hpm
  have hpa := H.addr_align hpm
  have hpb := H.tiled.bounds hpm
  have hab := h.above
  have hstart : c.addr = p.addr + p.size := by
    have htile := H.tiled
    rw [hch] at htile
    exact Tiled.next_start (l := l) (by simpa using htile)
  have hfa : (merged [p] c post).addr = c.addr - p.size := by simp [merged]
  have hfs : (merged [p] c post).size = p.size + c.size + (post.map Chunk.size).sum := by
    simp [merged]
    omega
  rw [hmem]
  split
  · rfl
  · refine k.headers x ?_ hx ?_ (by omega) (by omega)
    · simp only [InMal]
      omega
    · intro q hq
      rcases List.mem_append.mp hq with hq | hq
      · rw [List.mem_singleton.mp hq]
        omega
      · exact hpost q hq

/-- The swallowed chunk keeps its size word, unless that is given back. -/
theorem Freed.stale_csize :
    t.csize c.addr = if Reclaimed (merged [p] c post) c.size c.addr then 0#64 else c.tag := by
  have hc : c ∈ H.chunks := by simp [hch]
  have hca := H.addr_align hc
  have hcs := H.size_ge hc
  have hpost : ∀ n ∈ post, c.addr + c.size ≤ n.addr := by
    intro n hn
    have htile := H.tiled
    rw [hch, ← List.append_assoc] at htile
    exact ((tiled_split.mp htile).2.2.bounds (c := n) (by simp [hn])).1
  rw [State.csize, k.stale_word h hch hmem (by omega) (by omega) (by omega)
    (fun n hn => by have := hpost n hn; omega)]
  simp only [reclaimed_header hca, ← (h.tags (List.ne_nil_of_mem hc)).csize c hc]
  rfl

/-- The footer behind the swallowed chunk, if the chunk above was merged too. -/
theorem Freed.stale_footer (hpost : post = [n]) : t.psize (c.addr + c.size) =
    if Reclaimed (merged [p] c post) c.size (c.addr + c.size) then 0#64 else c.tag := by
  have hc : c ∈ H.chunks := by simp [hch]
  have hca := H.addr_align hc
  have hcg := H.granular c hc
  have hcs := H.size_ge hc
  have hns := H.size_ge (c := n) (by simp [hch, hpost])
  have hstart : n.addr = c.addr + c.size := by
    have htile := H.tiled
    rw [hch, hpost] at htile
    exact Tiled.next_start (l := l ++ [p]) (r := r) (by simpa using htile)
  have hsum : (post.map Chunk.size).sum = n.size := by simp [hpost]
  rw [State.psize, k.stale_word h hch hmem (by omega) (by omega) (by omega)
    (fun q hq => by rw [hpost, List.mem_singleton] at hq; subst hq; omega),
    ← (h.tags (List.ne_nil_of_mem hc)).psize c hc]
  rfl

end After

/-! ## The second free

Both cases of the first free, put into the tests of the second one. -/

/-- The second free after the first, in terms of the heap before. -/
theorem Freed.crashes_iff (h : Repr s H) (hch : H.chunks = l ++ (pre ++ c :: (post ++ r)))
    (ha : Around l pre post r) (hcf : c.free = false) (k : Freed s u H H' l pre c post r)
    (hr : Repr t H')
    (hmem : ∀ x, t.mem x = if Reclaimed (merged pre c post) c.size x then 0#64 else u.mem x) :
    Crashes (c.addr + 16) t ↔ CaughtTwice s c.addr := by
  have hc : c ∈ H.chunks := by simp [hch]
  have hgr := H.granular c hc
  have hprev := ha.psize_iff h hch
  have hnext := ha.next_iff h hch
  have hzero : ∀ x, Zeroed s c.addr x ↔ Reclaimed (merged pre c post) c.size x := by
    intro x
    rw [Zeroed, ha.freedChunk_eq h hch, h.toNat_chunkSize hc]
  rw [CaughtTwice, hzero, hzero, h.nextChunk hc, hnext]
  -- With no free neighbour below, the chunk kept its place.
  rcases ha.below with rfl | ⟨p, rfl, -⟩
  · exact ⟨fun _ => Or.inl fun e => hprev.mp e rfl, fun _ => k.crashes_in_place ha hr⟩
  have hbelow : s.psize c.addr &&& cInuse = 0#64 := hprev.mpr (by simp)
  have hhead := k.stale_csize h hch hmem
  rw [Musl.crashes_iff, hhead]
  -- Merged into the chunk below: what `musl_free` reads are words inside a free chunk.
  by_cases hz : Reclaimed (merged [p] c post) c.size c.addr
  · -- The header reads as zero: an empty mapping, as far as `musl_free` can tell.
    have hps : t.psize c.addr = 0#64 := by rw [State.psize, hmem, if_pos hz]
    rw [if_pos hz, if_pos (by simp), hps]
    simp only [BitVec.zero_and, ne_eq, not_true_eq_false, hbelow, hz, false_and, or_self]
  · have hodd : ¬c.tag &&& cInuse = 0#64 := by
      rw [cInuse, Chunk.tag_and_one hgr, hcf]
      simp
    have hafter : t.nextChunk c.addr = c.addr + c.size := by
      rw [State.nextChunk, State.chunkSize, hhead, if_neg hz, Chunk.tag_and_neg_two hgr, H.toNat_size hc]
    rw [if_neg hz, if_neg hodd, hafter]
    simp only [ne_eq, hbelow, not_true_eq_false, hz, not_false_eq_true, true_and, false_or]
    rcases ha.above with rfl | ⟨n, rfl, -⟩
    · -- The footer is the new, even size word of the merged chunk.
      have hfm : merged [p] c [] ∈ H'.chunks := by simp [k.chunks]
      have hgf := H'.granular _ hfm
      have hfoot := (hr.tags (List.ne_nil_of_mem hfm)).psize _ hfm
      have hend : (merged [p] c []).addr + (merged [p] c []).size = c.addr + c.size := by
        have hstart : c.addr = p.addr + p.size := by
          have htile := H.tiled
          rw [hch] at htile
          exact Tiled.next_start (l := l) (by simpa using htile)
        simp only [merged, List.map_cons, List.map_nil, List.cons_append, List.nil_append, List.sum_cons,
          List.sum_nil]
        omega
      rw [hend, Chunk.tag, if_pos (show (merged [p] c []).free = true from rfl)] at hfoot
      rw [hfoot]
      have := Chunk.tag_ne_ofNat (m := (merged [p] c []).size) hcf hgr (by omega)
      simp [this]
    · -- The footer is the old one, or zero.
      rw [k.stale_footer h hch hmem rfl]
      by_cases hzn : Reclaimed (merged [p] c [n]) c.size (c.addr + c.size)
      · rw [if_pos hzn]
        have := Chunk.tag_ne_ofNat (m := 0) hcf hgr rfl
        simp [hzn, this]
      · rw [if_neg hzn]
        simp [hzn]

def CaughtOnSecondFree (s : State) (p : Nat) : Prop := ∃ s', muslFree p s = .ret () s' ∧ Crashes p s'

/-- **Double free.** Freeing a live allocation of the brk heap twice in a row ends in `crash()`, with no
bin changed by the second call, exactly under `CaughtTwice`. -/
theorem double_free_iff (h : Reachable w) (ha : a ∈ w.live)
    (hbrk : w.state.isMmapped (memToChunk a.ptr) = false) :
    CaughtOnSecondFree w.state a.ptr ↔ CaughtTwice w.state (memToChunk a.ptr) := by
  obtain ⟨H, hinv⟩ := reachable_inv h
  obtain ⟨c, hc⟩ : ∃ c, InHeap H a c := by
    refine (hinv.placed a ha).resolve_right ?_
    rintro ⟨m, hm⟩
    have hself : memToChunk a.ptr = m.1 + 16 := by
      rw [memToChunk, hm.ptr]
      omega
    rw [hself, (hinv.mapped m hm.mem).isMmapped] at hbrk
    simp at hbrk
  obtain ⟨l, pre, post, r, H', u, hch, har, k, hret⟩ := hinv.repr.muslFree hinv.coalesced hc.mem hc.used
  have hfm : merged pre c post ∈ H'.chunks := by simp [k.chunks]
  have hfb := H'.tiled.bounds hfm
  have hbd := H'.bound
  have hself : memToChunk a.ptr = c.addr := by
    rw [memToChunk, hc.ptr]
    omega
  have hcrash := k.crashes_iff hinv.repr hch har hc.used
    (k.repr.reclaimPages c.size hfm rfl) fun x => reclaimPages_mem (by omega) u x
  rw [hself, ← hcrash, CaughtOnSecondFree, hc.ptr]
  constructor
  · rintro ⟨s', h₁, h₂⟩
    rw [hret] at h₁
    cases h₁
    exact h₂
  · exact fun h₂ => ⟨_, hret, h₂⟩

theorem double_free_iff_run : ∃ w, start.run [.malloc 24, .malloc 24, .free 0x20020] = some w ∧
    (CaughtOnSecondFree w.state 0x20060 ↔ CaughtTwice w.state 0x20050) := by
  obtain ⟨w, hw, hr, hc⟩ := start_run [.malloc 24, .malloc 24, .free 0x20020]
    (fun w => ⟨0x20060, 24⟩ ∈ w.live ∧ w.state.isMmapped 0x20050 = false) (by decide +kernel)
  simp only [decide_eq_true_eq] at hc
  exact ⟨w, hw, double_free_iff hr hc.1 hc.2⟩

def caughtOnSecondFree (s : State) (p : Nat) : Bool :=
  match muslFree p s with
  | .ret _ s' =>
    match muslFree p s' with
    | .crash _ => true
    | _ => false
  | _ => false

theorem CaughtOnSecondFree.test {p : Nat} (h : CaughtOnSecondFree s p) :
    caughtOnSecondFree s p = true := by
  obtain ⟨s', h₁, t, h₂, -⟩ := h
  simp only [caughtOnSecondFree, h₁, h₂]

/-- Four allocations, of which the first and the third are freed; freeing the second one twice then
returns both times. -/
theorem double_free_missed : ∃ w, start.run [.malloc 24, .malloc 24, .malloc 24, .malloc 24,
      .free 0x20020, .free 0x200a0] = some w ∧ Reachable w ∧
    ⟨0x20060, 24⟩ ∈ w.live ∧ w.state.isMmapped (memToChunk 0x20060) = false ∧
      ¬CaughtOnSecondFree w.state 0x20060 := by
  obtain ⟨w, hw, hr, hc⟩ := start_run [.malloc 24, .malloc 24, .malloc 24, .malloc 24,
    .free 0x20020, .free 0x200a0] (fun w => ⟨0x20060, 24⟩ ∈ w.live ∧
      w.state.isMmapped (memToChunk 0x20060) = false ∧ caughtOnSecondFree w.state 0x20060 = false)
    (by decide +kernel)
  simp only [decide_eq_true_eq] at hc
  obtain ⟨h₁, h₂, h₃⟩ := hc
  refine ⟨w, hw, hr, h₁, h₂, fun h => ?_⟩
  rw [h.test] at h₃
  simp at h₃

end MmExper.Musl
