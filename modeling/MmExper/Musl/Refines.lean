import MmExper.Musl.Arena
import MmExper.Musl.RoundTrip

/-!
# The allocator refines the arena

Each entry point, on a state that stores a heap, answers as the arena operation does and leaves a state
that stores a heap with the new arena. What is stored can be read back from the state alone
(`Repr.arena_unique`), so over a run the arena is followed step by step, whatever the client writes.
-/

namespace MmExper.Musl

open Bitwise Lib

variable {w w' : World} {sys : Sys} {s t : State} {H H' : Heap} {c : Chunk} {i fuel p : Nat} {n v : Word}

/-! ## What a state stores

An arena can be read off memory, and it is the only one that the state stores. -/

/-- The chunk at an address, read from its header. -/
def chunkAt (s : State) (a : Nat) : Chunk := ⟨a, (s.chunkSize a).toNat, s.csize a &&& 1#64 = 0#64⟩

theorem Repr.chunkAt_eq (h : Repr s H) (hc : c ∈ H.chunks) : chunkAt s c.addr = c := by
  have htag := (h.tags (List.ne_nil_of_mem hc)).csize c hc
  have hfree : decide (s.csize c.addr &&& 1#64 = 0#64) = c.free := by
    rw [htag, Bool.eq_iff_iff, decide_eq_true_iff, Chunk.tag_and_one (H.granular c hc)]
  rw [chunkAt, h.toNat_chunkSize hc, hfree]

theorem Repr.chunks_eq_nil_iff (h : Repr s H) : H.chunks = [] ↔ s.heapEnd = 0 := by
  constructor
  · intro hc
    exact (h.empty hc).1
  · intro he
    by_contra hc
    have := (h.grown hc).1
    omega

/-- **The heap in a state is determined by it**, apart from where it begins. -/
theorem Repr.arena_unique (h : Repr s H) (h' : Repr s H') (hlo : H.lo = H'.lo) : H.arena = H'.arena := by
  have hnil : H.chunks = [] ↔ H'.chunks = [] := h.chunks_eq_nil_iff.trans h'.chunks_eq_nil_iff.symm
  have hhi : H.hi = H'.hi := by
    by_cases hc : H.chunks = []
    · have ht := H.tiled
      have ht' := H'.tiled
      rw [hc] at ht
      rw [hnil.mp hc] at ht'
      have h₁ : H.lo = H.hi := ht
      have h₂ : H'.lo = H'.hi := ht'
      omega
    · have h₁ := (h.grown hc).1
      have h₂ := (h'.grown fun e => hc (hnil.mpr e)).1
      omega
  -- A chunk is what stands in its header.
  have hread : ∀ {K : Heap}, Repr s K → K.chunks = (K.chunks.map Chunk.addr).map (chunkAt s) := by
    intro K hK
    rw [List.map_map]
    exact ((List.map_congr_left fun c hc => hK.chunkAt_eq hc).trans (List.map_id _)).symm
  -- The first chunk is at the same address, and each size gives the next address.
  have hchunks : H.chunks = H'.chunks := by
    have ht := H'.tiled
    rw [← hlo, ← hhi] at ht
    rw [hread h, hread h', H.tiled.starts_unique ht (f := fun a => (s.chunkSize a).toNat)
      (fun c hc => (h.toNat_chunkSize hc).symm) fun c hc => (h'.toNat_chunkSize hc).symm]
  -- A ring through the sentinel is determined by its links.
  have hbins : H.bins = H'.bins := by
    funext i
    by_cases hi : i < 64
    · by_cases h0 : s.head i = 0
      · rw [h.lists.unset i hi h0, h'.lists.unset i hi h0]
      · exact (h.lists.ring i hi h0).unique (h'.lists.ring i hi h0)
    · -- There is no such class.
      have hempty : ∀ K : Heap, K.bins i = [] := by
        intro K
        apply List.eq_nil_iff_forall_not_mem.mpr
        intro a ha
        obtain ⟨c, hc, -, -, hb⟩ := (K.mem_bins i a).mp ha
        have := K.bin_lt hc
        omega
      rw [hempty H, hempty H']
  simp only [Heap.arena, hlo, hhi, hchunks, hbins]

/-! ## The steps of `musl_malloc`

Each step of the code on the lists of a heap is the step of the arena on its queues. -/

/-- The first chunk of the bin of a set bit. -/
theorem Repr.head_of_bins (h : Repr s H) (hi : i < 64) {a : Nat} {as : List Nat} (hb : H.bins i = a :: as) :
    s.head i = a ∧ ¬BinEmpty s i := by
  have hne : H.bins i ≠ [] := by simp [hb]
  obtain ⟨hempty, -⟩ := h.head_of_bit hi ((h.lists.bit i hi).mpr hne)
  have hring := h.lists.ring i hi fun e => hempty (Or.inl e)
  rw [hb] at hring
  exact ⟨hring.nx_sentinel, hempty⟩

/-- The lowest set bit from `i` on is the first queue from `i` on with a chunk waiting. -/
theorem Repr.serve_of_mask (h : Repr s H) (hmask : maskHighBits s.binmap i ≠ 0#64) :
    ∃ a as, H.bins (firstSet (maskHighBits s.binmap i)) = a :: as ∧ H.arena.serve i = some a := by
  obtain ⟨hlt, hset, hlow⟩ := firstSet_spec hmask
  rw [getLsbD_maskHighBits, Bool.and_eq_true, decide_eq_true_eq] at hset
  obtain ⟨a, as, has⟩ := List.exists_cons_of_ne_nil ((h.lists.bit _ hlt).mp hset.1)
  refine ⟨a, as, has, Arena.serve_eq_some hlt hset.2 has ?_⟩
  intro k hk hik
  have hclear := hlow k hk
  rw [getLsbD_maskHighBits, decide_eq_true hik, Bool.and_true] at hclear
  by_contra hne
  rw [(h.lists.bit k (by omega)).mpr hne] at hclear
  cases hclear

theorem Repr.serve_of_no_mask (h : Repr s H) (hmask : maskHighBits s.binmap i = 0#64) :
    H.arena.serve i = none := by
  apply Arena.serve_eq_none_iff.mpr
  intro j hj hij
  by_contra hne
  have hbit := (h.lists.bit j hj).mpr hne
  have hclear : (maskHighBits s.binmap i).getLsbD j = false := by
    rw [hmask]
    exact BitVec.getLsbD_zero
  rw [getLsbD_maskHighBits, hbit, decide_eq_true hij] at hclear
  cases hclear

/-- `trim` cuts off what is not needed. -/
theorem Repr.trim_arena {m : Nat} (h : Repr s H) (hc : c ∈ H.chunks) (hf : c.free = false)
    (hm : m % 32 = 0) (hpos : 0 < m) (hle : m ≤ c.size) :
    ∃ H', Repr (Musl.trim c.addr (BitVec.ofNat 64 m) s) H' ∧ H'.lo = H.lo ∧
      H'.arena = H.arena.cut c.addr m := by
  obtain ⟨l, r, hch⟩ := List.append_of_mem hc
  rcases Nat.lt_or_eq_of_le hle with hlt | rfl
  · obtain ⟨H', hr, hlo, hhi, hch', -, hb⟩ := h.trim_split_bins hch hf hm hpos hlt
    exact ⟨H', hr, hlo, Heap.arena_cut hch hlt hlo hhi hch' hb⟩
  · refine ⟨H, ?_, rfl, (Heap.arena_cut_eq hc (Nat.le_refl _)).symm⟩
    rw [h.trim_eq hc]
    exact h

/-- What the end of the slow path makes of the chunk it was given. -/
theorem Repr.mallocTrim_arena (h : Repr s H) (hc : c ∈ H.chunks) (hf : c.free = false)
    (hv : v.toNat % 32 = 0) (hpos : 32 ≤ v.toNat) (hle : v.toNat ≤ c.size) :
    ∃ H' t, mallocTrim c.addr v s = .ret (c.addr + 16) t ∧ Repr t H' ∧ H'.lo = H.lo ∧
      H'.arena = H.arena.cut c.addr v.toNat := by
  obtain ⟨H', hr, hlo, ha⟩ := h.trim_arena hc hf hv (by omega) hle
  rw [BitVec.ofNat_toNat, BitVec.setWidth_eq] at hr
  exact ⟨H', _, rfl, hr.outside rfl rfl rfl rfl rfl rfl fun _ _ => rfl, hlo, ha⟩

section Paths

variable (h : Repr s H) (hb : AtBreak s H) (hsys : sys.sbrk = true) (hv : v.toNat % 32 = 0)
  (hpos : 32 ≤ v.toNat) (hmax : v.toNat ≤ 229376)
include h hb hsys hv hpos hmax

omit h hb hsys in
/-- A chunk of a class from the request's on is large enough. -/
theorem class_large (hc : c ∈ H.chunks) (hi : binIndexUp v ≤ c.bin) : v.toNat ≤ c.size := by
  rw [← H.toNat_size hc]
  refine le_of_binIndexUp_le hpos hmax hv ?_ ?_ hi <;> rw [H.toNat_size hc]
  · exact H.size_ge hc
  · exact H.granular c hc

/-- Growing appends the chunk the arena appends. -/
theorem Repr.expandHeap_arena (hroom : s.brk + growth v ≤ 2 ^ 63) :
    ∃ H' c, (Musl.expandHeap sys v s).1 = c.addr ∧ Repr (Musl.expandHeap sys v s).2 H' ∧ c ∈ H'.chunks ∧
      c.free = false ∧ v.toNat ≤ c.size ∧ c.addr = H.hi ∧ H'.lo = H.lo ∧
      H'.arena = H.arena.grow v.toNat := by
  obtain ⟨H', c, haddr, k, hbins⟩ := h.expandHeap_bins hb hsys (by omega) hmax hroom
  obtain ⟨hg, -, -⟩ := growth_spec hmax
  have hc : c ∈ H'.chunks := by simp [k.chunks]
  have hend : c.addr + c.size = H'.hi := by
    have ht := H'.tiled
    rw [k.chunks] at ht
    exact (tiled_split.mp ht).2.2
  have hbrk : H'.hi + 16 = pageUp s.brk + growth v := by
    rw [k.atBreak.grown (List.ne_nil_of_mem hc), k.brk, pageUp_add hg]
  have haddr' := k.addr
  -- The new chunk takes all the growth, less the sentinel below it if it is the first.
  have hsize : c.size = if H.chunks = [] then pageUp (v.toNat + 32) - 32 else pageUp (v.toNat + 32) := by
    have hgrowth : growth v = pageUp (v.toNat + 32) := rfl
    split
    · next hnil =>
      have hlo := hb.empty hnil
      have ht := H.tiled
      rw [hnil] at ht
      have hlh : H.lo = H.hi := ht
      omega
    · next hne =>
      have hhi := hb.grown hne
      omega
  exact ⟨H', c, haddr, k.repr, hc, k.used, k.large, haddr', k.lo,
    Heap.arena_grow k.lo haddr' k.used hsize k.chunks hbins⟩

/-- The slow path serves as the arena does. -/
theorem Repr.mallocSlow_arena (hroom : ∀ p s', Musl.mallocSlow sys (fuel + 1) v (binIndexUp v) s = .ret p s' →
    s'.brk ≤ 2 ^ 63) :
    ∃ H' t, Musl.mallocSlow sys (fuel + 1) v (binIndexUp v) s = .ret ((H.arena.malloc v).1 + 16) t ∧
      Repr t H' ∧ H'.lo = H.lo ∧ H'.arena = (H.arena.malloc v).2 := by
  by_cases hmask : maskHighBits s.binmap (binIndexUp v) = 0#64
  · -- No bit is set from the class on: no queue there has a chunk, and the heap grows.
    have hslow : Musl.mallocSlow sys (fuel + 1) v (binIndexUp v) s =
        if (Musl.expandHeap sys v s).1 = 0 then .ret 0 (Musl.expandHeap sys v s).2
        else mallocTrim (Musl.expandHeap sys v s).1 v (Musl.expandHeap sys v s).2 := by
      rw [Musl.mallocSlow, Musl.searchBins, if_pos hmask]
    have hfits : s.brk + growth v ≤ 2 ^ 63 := by
      obtain ⟨p, s', hret, hs'⟩ := expandHeap_mallocTrim_brk sys v s
      rw [← h.expandHeap_brk hb hsys hmax, ← hs']
      exact hroom _ _ (hslow.trans hret)
    obtain ⟨H₁, c, haddr, hr, hc, hf, hlarge, hstart, hlo, ha⟩ :=
      h.expandHeap_arena hb hsys hv hpos hmax hfits
    obtain ⟨H', t, hret, hr', hlo', ha'⟩ := hr.mallocTrim_arena hc hf hv hpos hlarge
    have hne : c.addr ≠ 0 := by
      have := H₁.addr_align hc
      omega
    rw [haddr, if_neg hne, hret] at hslow
    have hmalloc : H.arena.malloc v = (H.hi, (H.arena.grow v.toNat).cut H.hi v.toNat) := by
      rw [Arena.malloc, h.serve_of_no_mask hmask]
      rfl
    refine ⟨H', t, ?_, hr', hlo'.trans hlo, ?_⟩
    · rw [hslow, hmalloc, hstart]
    · rw [hmalloc, ha', ha, hstart]
  · -- The lowest bit set is that of the first queue with a chunk.
    obtain ⟨hlt, hset, -⟩ := firstSet_spec hmask
    rw [getLsbD_maskHighBits, Bool.and_eq_true, decide_eq_true_eq] at hset
    obtain ⟨a, as, has, hserve⟩ := h.serve_of_mask hmask
    obtain ⟨hhead, hempty⟩ := h.head_of_bins hlt has
    obtain ⟨c, hc, rfl, hf, hbin⟩ := (H.mem_bins _ a).mp (has.symm ▸ List.mem_cons_self)
    obtain ⟨l, r, hch⟩ := List.append_of_mem hc
    obtain ⟨H₁, k, hch₁, hb₁⟩ := h.took_unbin_bins hch hf
    have h0 : s.head c.bin ≠ 0 := fun e => hempty (Or.inl (hbin ▸ e))
    rw [lockBin_head h0] at k
    have hslow : Musl.mallocSlow sys (fuel + 1) v (binIndexUp v) s =
        mallocTrim c.used.addr v (Musl.unbin c.addr c.bin s) := by
      rw [Musl.mallocSlow, searchBins_takes fuel hmask hempty, hhead, hbin]
      rfl
    have hlarge := class_large hv hpos hmax hc (hbin ▸ hset.2)
    obtain ⟨H', t, hret, hr', hlo', ha'⟩ := k.repr.mallocTrim_arena (c := c.used) (by simp [hch₁]) rfl hv
      hpos hlarge
    have hmalloc : H.arena.malloc v = (c.addr, (H.arena.take c.addr).cut c.addr v.toNat) := by
      rw [Arena.malloc, hserve]
    refine ⟨H', t, ?_, hr', hlo'.trans k.lo, ?_⟩
    · rw [hslow, hret, hmalloc]
      rfl
    · rw [hmalloc, ha', Heap.arena_take hch k.lo k.hi hch₁ hb₁]
      rfl

/-- **Below the threshold `musl_malloc` serves as the arena does**, on the fast path too. -/
theorem Repr.muslMalloc_arena (had : adjustSize n = some v)
    (hroom : ∀ p s', Musl.muslMalloc sys (fuel + 1) n s = .ret p s' → s'.brk ≤ 2 ^ 63) :
    ∃ H' t, Musl.muslMalloc sys (fuel + 1) n s = .ret ((H.arena.malloc v).1 + 16) t ∧ Repr t H' ∧
      H'.lo = H.lo ∧ H'.arena = (H.arena.malloc v).2 := by
  have hthr : ¬v > mmapThreshold := not_gt_mmapThreshold.mpr hmax
  set i := binIndexUp v with hi
  have hpaths : Musl.muslMalloc sys (fuel + 1) n s =
      if i < 63 ∧ isBitSet s.binmap i then
        if (Musl.lockBin i s).head i ≠ (Musl.lockBin i s).binToChunk i ∧
            (Musl.lockBin i s).chunkSize ((Musl.lockBin i s).head i) - v ≤ dontcare then
          .ret (chunkToMem ((Musl.lockBin i s).head i))
            ((Musl.unbin ((Musl.lockBin i s).head i) i (Musl.lockBin i s)).addAllocated
              ((Musl.unbin ((Musl.lockBin i s).head i) i (Musl.lockBin i s)).chunkSize ((Musl.lockBin i s).head i)))
        else Musl.mallocSlow sys (fuel + 1) v i (Musl.lockBin i s)
      else Musl.mallocSlow sys (fuel + 1) v i s := by
    rw [Musl.muslMalloc, had]
    simp only [if_neg hthr, ← hi]
  by_cases hfast : i < 63 ∧ isBitSet s.binmap i
  · rw [if_pos hfast] at hpaths
    have hi64 : i < 64 := by omega
    obtain ⟨a, as, has⟩ := List.exists_cons_of_ne_nil
      ((h.lists.bit i hi64).mp (by rw [← isBitSet_eq_getLsbD]; exact hfast.2))
    obtain ⟨hhead, hempty⟩ := h.head_of_bins hi64 has
    obtain ⟨c, hc, rfl, hf, hbin⟩ := (H.mem_bins _ _).mp (show a ∈ H.bins i by simp [has])
    have hlock : Musl.lockBin i s = s := lockBin_head fun e => hempty (Or.inl e)
    rw [hlock, hhead] at hpaths
    by_cases hsz : c.addr ≠ s.binToChunk i ∧ s.chunkSize c.addr - v ≤ dontcare
    · rw [if_pos hsz] at hpaths
      obtain ⟨l, r, hch⟩ := List.append_of_mem hc
      obtain ⟨H', k, hch', hb'⟩ := h.took_unbin_bins hch hf
      rw [hbin, hlock] at k
      have hlarge := class_large hv hpos hmax hc (Nat.le_of_eq (hi.symm.trans hbin.symm))
      -- The chunk is so close a fit that it has the very size, and there is nothing to cut off.
      have hexact : c.size ≤ v.toNat := by
        have hclose := hsz.2
        have hgr := H.granular c hc
        have hcn := H.toNat_size hc
        rw [h.chunkSize hc, dontcare, BitVec.le_def, BitVec.toNat_sub_of_le
          (by rw [BitVec.le_def, hcn]; exact hlarge), hcn] at hclose
        simp only [BitVec.toNat_ofNat] at hclose
        omega
      have hserve : H.arena.serve i = some c.addr :=
        Arena.serve_eq_some hi64 (Nat.le_refl i) has fun k hk hik => absurd hik (by omega)
      have hmalloc : H.arena.malloc v = (c.addr, (H.arena.take c.addr).cut c.addr v.toNat) := by
        rw [Arena.malloc, ← hi, hserve]
      have htake := Heap.arena_take hch k.lo k.hi hch' hb'
      have hcut : H'.arena.cut c.addr v.toNat = H'.arena :=
        Heap.arena_cut_eq (c := c.used) (by simp [hch']) hexact
      rw [hpaths, hmalloc]
      exact ⟨H', _, rfl, k.repr.outside rfl rfl rfl rfl rfl rfl fun _ _ => rfl, k.lo,
        by rw [← htake, hcut]⟩
    · rw [if_neg hsz] at hpaths
      rw [hpaths] at hroom ⊢
      exact h.mallocSlow_arena hb hsys hv hpos hmax hroom
  · rw [if_neg hfast] at hpaths
    rw [hpaths] at hroom ⊢
    exact h.mallocSlow_arena hb hsys hv hpos hmax hroom

end Paths

/-- **Freeing a chunk in use frees it in the arena.** -/
theorem Repr.muslFree_arena (h : Repr s H) (hco : Coalesced H.chunks) (hc : c ∈ H.chunks)
    (hf : c.free = false) :
    ∃ H' t, Musl.muslFree (c.addr + 16) s = .ret () t ∧ Repr t H' ∧ H'.lo = H.lo ∧
      H'.arena = H.arena.free c.addr := by
  obtain ⟨l, pre, post, r, H', u, hch, ha, k, hb, hret⟩ := h.muslFree_bins hco hc hf
  have hm : merged pre c post ∈ H'.chunks := by simp [k.chunks]
  exact ⟨H', _, hret, k.repr.reclaimPages _ hm rfl, k.lo,
    Heap.arena_free hch ha hco hf k.lo k.hi k.chunks hb⟩

/-! ## Runs

`Does` is a call with everything that is said in it. The client's own writes come between calls. -/

/-- What the client and the allocator tell each other in a call: a request, where the kernel would put a
mapping for it, and the pointer it is answered with, or a pointer given back. -/
inductive Event
  | malloc (n : Word) (mapping : Option Nat) (p : Nat)
  | free (p : Nat)

/-- One call, and what is said in it. -/
inductive Does : World → Event → World → Prop
  | malloc {w : World} {s' : State} {sys : Sys} {fuel p : Nat} (n : Word) (hsys : sys.sbrk = true)
      (hret : muslMalloc sys fuel n w.state = .ret p s') (hspace : AddressSpace w.brk0 s') :
      Does w (.malloc n sys.mmap p) ⟨s', if p = 0 then w.live else ⟨p, n.toNat⟩ :: w.live, w.brk0⟩
  | free {w : World} {s' : State} (a : Alloc) (ha : a ∈ w.live)
      (hret : muslFree a.ptr w.state = .ret () s') : Does w (.free a.ptr) ⟨s', w.live.erase a, w.brk0⟩
  | freeNull {w : World} {s' : State} (hret : muslFree 0 w.state = .ret () s') :
      Does w (.free 0) ⟨s', w.live, w.brk0⟩

/-- A run and what is said in it. Between the calls the client writes where it may, unseen. -/
inductive Trace : World → List Event → World → Prop
  | nil (w : World) : Trace w [] w
  | call {w w₁ w' : World} {e : Event} {es : List Event} (hd : Does w e w₁) (h : Trace w₁ es w') :
      Trace w (e :: es) w'
  | write {w w' : World} {es : List Event} (mem : Nat → Word)
      (hw : ∀ x, mem x ≠ w.state.mem x → Writable w x)
      (h : Trace ⟨{ w.state with mem := mem }, w.live, w.brk0⟩ es w') : Trace w es w'

theorem does_iff_call : (∃ e, Does w e w') ↔ Call w w' := by
  constructor
  · rintro ⟨e, hd⟩
    cases hd with
    | malloc n hsys hret hspace => exact .malloc n hsys hret hspace
    | free a ha hret => exact .free a ha hret
    | freeNull hret => exact .freeNull hret
  · intro hc
    cases hc with
    | malloc n hsys hret hspace => exact ⟨_, .malloc n hsys hret hspace⟩
    | free a ha hret => exact ⟨_, .free a ha hret⟩
    | freeNull hret => exact ⟨_, .freeNull hret⟩

/-- Traces are the runs. -/
theorem trace_iff_run : (∃ es, Trace w es w') ↔ Relation.ReflTransGen Step w w' := by
  constructor
  · rintro ⟨es, h⟩
    induction h with
    | nil => exact .refl
    | call hd _ ih => exact .head (.call (does_iff_call.mp ⟨_, hd⟩)) ih
    | write mem hw _ ih => exact .head (.write mem hw) ih
  · intro h
    induction h using Relation.ReflTransGen.head_induction_on with
    | refl => exact ⟨[], .nil _⟩
    | head hs _ ih =>
        obtain ⟨es, hes⟩ := ih
        cases hs with
        | call hc =>
            obtain ⟨e, hd⟩ := does_iff_call.mpr hc
            exact ⟨e :: es, .call hd hes⟩
        | write mem hw => exact ⟨es, .write mem hw hes⟩

namespace Arena

/-- Answer a request: nothing, a mapping, or a chunk. -/
def request (A : Arena) (n : Word) (mapping : Option Nat) : Nat × Arena :=
  match adjustSize n with
  | none => (0, A)
  | some v =>
    if v > mmapThreshold then ((mapping.map (· + 32)).getD 0, A)
    else ((A.malloc v).1 + 16, (A.malloc v).2)

/-- Take a pointer back. Pointers to mappings are none of the arena's. -/
def release (A : Arena) (p : Nat) : Arena :=
  if A.chunks.any fun c => !c.free && decide (c.addr + 16 = p) then A.free (p - 16) else A

/-- Take part in a call, if the answer is right. -/
def perform (A : Arena) : Event → Option Arena
  | .malloc n mapping p =>
    if (A.request n mapping).1 = p then some (A.request n mapping).2 else none
  | .free p => some (A.release p)

end Arena

def Stores (w : World) (A : Arena) : Prop := ∃ H, Inv w H ∧ H.arena = A

/-- It stores one only. -/
theorem Stores.unique {A B : Arena} (h : Stores w A) (h' : Stores w B) : A = B := by
  obtain ⟨H, hinv, rfl⟩ := h
  obtain ⟨H', hinv', rfl⟩ := h'
  exact hinv.repr.arena_unique hinv'.repr (hinv.start.trans hinv'.start.symm)

theorem Initial.stores (h : Initial w) : Stores w (Arena.nothing w.brk0) := by
  obtain ⟨H, hinv⟩ := h.inv
  refine ⟨H, hinv, ?_⟩
  have hnil : H.chunks = [] := hinv.repr.chunks_eq_nil_iff.mpr h.heapEnd
  have hhi : H.lo = H.hi := by
    have ht := H.tiled
    rw [hnil] at ht
    exact ht
  have hbins : H.bins = fun _ => [] := by
    funext i
    apply List.eq_nil_iff_forall_not_mem.mpr
    intro a ha
    obtain ⟨c, hc, -⟩ := (H.mem_bins i a).mp ha
    rw [hnil] at hc
    cases hc
  simp only [Heap.arena, Arena.nothing, ← hhi, hinv.start, hnil, hbins]

/-- The client's writes do not show. -/
theorem Stores.write {A : Arena} (h : Stores w A) {mem : Nat → Word}
    (hw : ∀ x, mem x ≠ w.state.mem x → Writable w x) :
    Stores ⟨{ w.state with mem := mem }, w.live, w.brk0⟩ A := by
  obtain ⟨H, hinv, rfl⟩ := h
  exact ⟨H, hinv.write hw, rfl⟩

/-- A request is answered as in the arena. -/
theorem Inv.malloc_request (h : Inv w H) (hsys : sys.sbrk = true)
    (hret : muslMalloc sys fuel n w.state = .ret p t) (hspace : AddressSpace w.brk0 t) :
    (H.arena.request n sys.mmap).1 = p ∧
      Stores ⟨t, if p = 0 then w.live else ⟨p, n.toNat⟩ :: w.live, w.brk0⟩
        (H.arena.request n sys.mmap).2 := by
  cases had : adjustSize n with
  -- `adjust_size` fails.
  | none =>
      rw [muslMalloc, had] at hret
      cases hret
      rw [Arena.request, had]
      exact ⟨rfl, H, by simpa using h.calls w.state.calls, rfl⟩
  | some v =>
      obtain ⟨hv₁, hv₂, hv₃, hv₄⟩ := adjustSize_spec had
      by_cases hthr : v > mmapThreshold
      · -- Above the threshold the arena is not asked.
        have hreq : H.arena.request n sys.mmap = ((sys.mmap.map (· + 32)).getD 0, H.arena) := by
          simp only [Arena.request, had, if_pos hthr]
        rw [hreq]
        rw [muslMalloc_large had hthr] at hret
        cases hmap : sys.mmap with
        | none =>
            rw [mallocMmap] at hret
            simp only [State.mmap, hmap, if_true] at hret
            cases hret
            exact ⟨rfl, H, by simpa using h.calls _, rfl⟩
        | some base =>
            have hbase : base < 2 ^ 63 := mallocMmap_base_lt hmap hret hspace
            obtain ⟨u, hu, k⟩ := mallocMmap_some (v := v) (s := w.state) hmap hbase
            obtain ⟨hl₁, hl₂⟩ := mapLen_spec (v := v) hv₄
            rw [hu] at hret
            cases hret
            refine ⟨rfl, H, ?_, rfl⟩
            rw [if_neg (by omega)]
            exact h.mapsIn k hl₁ (by omega) hspace
      · -- Below it, what the call leaves is both a heap of the invariant and one with the arena's answer.
        have hmax : v.toNat ≤ 229376 := not_gt_mmapThreshold.mp hthr
        obtain ⟨⟨H'', hinv⟩, -⟩ := h.malloc hsys hret hspace
        have hret := muslMalloc_succ hret
        have hroom : ∀ q u, muslMalloc sys (fuel + 1) n w.state = .ret q u → u.brk ≤ 2 ^ 63 := by
          have htop : userTop = 2 ^ 56 := rfl
          intro q u hq
          rw [hret] at hq
          cases hq
          have := hspace.brk
          omega
        obtain ⟨H', u, hu, hr, hlo, ha⟩ := h.repr.muslMalloc_arena h.atBreak hsys hv₁ hv₂ hmax had hroom
        rw [hret] at hu
        cases hu
        have hreq : H.arena.request n sys.mmap = ((H.arena.malloc v).1 + 16, (H.arena.malloc v).2) := by
          simp only [Arena.request, had, if_neg hthr]
        rw [hreq]
        refine ⟨rfl, H'', hinv, ?_⟩
        rw [← ha]
        exact hinv.repr.arena_unique hr (hinv.start.trans (hlo.trans h.start).symm)

/-- What is given back is given back to the arena. -/
theorem Inv.free_release {a : Alloc} (h : Inv w H) (ha : a ∈ w.live)
    (hret : muslFree a.ptr w.state = .ret () t) :
    Stores ⟨t, w.live.erase a, w.brk0⟩ (H.arena.release a.ptr) := by
  rcases h.placed a ha with ⟨c, hc⟩ | ⟨m, hm⟩
  · obtain ⟨s', H'', hret'', hinv, -⟩ := h.free ha
    obtain ⟨H', u, hu, hr, hlo, harena⟩ := h.repr.muslFree_arena h.coalesced hc.mem hc.used
    rw [hret] at hret''
    cases hret''
    rw [← hc.ptr, hret] at hu
    cases hu
    have hrel : H.arena.release a.ptr = H.arena.free c.addr := by
      have hany : (H.chunks.any fun d => !d.free && decide (d.addr + 16 = a.ptr)) = true :=
        List.any_eq_true.mpr ⟨c, hc.mem, by simp [hc.used, hc.ptr]⟩
      rw [Arena.release, Heap.arena, if_pos hany, hc.ptr, Nat.add_sub_cancel]
    rw [hrel, ← harena]
    exact ⟨H'', hinv, hinv.repr.arena_unique hr (hinv.start.trans (hlo.trans h.start).symm)⟩
  · obtain ⟨s', hret'', hinv, -⟩ := h.freeMap ha hm
    rw [hret] at hret''
    cases hret''
    refine ⟨H, hinv, ?_⟩
    -- No chunk begins inside a mapping.
    have hany : (H.chunks.any fun d => !d.free && decide (d.addr + 16 = a.ptr)) = false := by
      apply List.any_eq_false.mpr
      intro d hd hda
      have hp := hm.ptr
      have hl := (h.mapped m hm.mem).large
      have hap := h.space.heap_apart h.atBreak h.start h.brk0_le hm.mem (List.ne_nil_of_mem hd)
      have := H.tiled.bounds hd
      simp only [Bool.and_eq_true, decide_eq_true_eq] at hda
      omega
    rw [Arena.release, Heap.arena, if_neg (by rw [hany]; exact Bool.false_ne_true)]

theorem Stores.does {A : Arena} {e : Event} (h : Stores w A) (hd : Does w e w') :
    ∃ A', A.perform e = some A' ∧ Stores w' A' := by
  obtain ⟨H, hinv, rfl⟩ := h
  cases hd with
  | malloc n hsys hret hspace =>
      obtain ⟨hp, hst⟩ := hinv.malloc_request hsys hret hspace
      exact ⟨_, if_pos hp, hst⟩
  | free a ha hret => exact ⟨_, rfl, hinv.free_release ha hret⟩
  | freeNull hret =>
      rw [muslFree, if_pos rfl] at hret
      cases hret
      have hany : (H.chunks.any fun d => !d.free && decide (d.addr + 16 = 0)) = false := by simp
      refine ⟨_, rfl, H, hinv, ?_⟩
      rw [Arena.release, Heap.arena, if_neg (by rw [hany]; exact Bool.false_ne_true)]

theorem Stores.trace {A : Arena} {es : List Event} (h : Trace w es w') (hA : Stores w A) :
    ∃ A', es.foldlM Arena.perform A = some A' ∧ Stores w' A' := by
  induction h generalizing A with
  | nil => exact ⟨A, rfl, hA⟩
  | call hd _ ih =>
      obtain ⟨A₁, h₁, hst⟩ := hA.does hd
      obtain ⟨A', h₂, hst'⟩ := ih hst
      refine ⟨A', ?_, hst'⟩
      rw [List.foldlM_cons, h₁]
      exact h₂
  | write mem hw _ ih => exact ih (hA.write hw)

theorem Stores.iff_eq {A B : Arena} (h : Stores w A) : Stores w B ↔ B = A := by
  refine ⟨fun hB => hB.unique h, ?_⟩
  rintro rfl
  exact h

/-- The next call returns: a request has an answer, which is that of the arena if the kernel keeps its
grants apart. -/
theorem Stores.returns {A : Arena} (h : Stores w A) :
    (∀ (sys : Sys) (fuel : Nat) (n : Word), sys.sbrk = true →
      ∃ p s', muslMalloc sys (fuel + 1) n w.state = .ret p s' ∧
        (AddressSpace w.brk0 s' → (A.request n sys.mmap).1 = p)) ∧
    ∀ a ∈ w.live, ∃ s', muslFree a.ptr w.state = .ret () s' := by
  obtain ⟨H, hinv, rfl⟩ := h
  refine ⟨fun sys fuel n hsys => ?_, fun a ha => ?_⟩
  · obtain ⟨p, s', hret⟩ := hinv.malloc_returns hsys fuel n
    exact ⟨p, s', hret, fun hspace => (hinv.malloc_request hsys hret hspace).1⟩
  · obtain ⟨s', -, hret, -⟩ := hinv.free ha
    exact ⟨s', hret⟩

/-- **The allocator refines the arena.** In every run every request is answered as the arena answers it,
and at its end the memory holds the arena's chunks and queues and no others, and the next call returns. -/
theorem arena_refines {w₀ : World} {es : List Event} (h₀ : Initial w₀) (h : Trace w₀ es w) :
    ∃ A, es.foldlM Arena.perform (Arena.nothing w₀.brk0) = some A ∧ (∀ B, Stores w B ↔ B = A) ∧
      (∀ (sys : Sys) (fuel : Nat) (n : Word), sys.sbrk = true →
        ∃ p s', muslMalloc sys (fuel + 1) n w.state = .ret p s' ∧
          (AddressSpace w.brk0 s' → (A.request n sys.mmap).1 = p)) ∧
      ∀ a ∈ w.live, ∃ s', muslFree a.ptr w.state = .ret () s' := by
  obtain ⟨A, hA, hst⟩ := h₀.stores.trace h
  exact ⟨A, hA, fun _ => hst.iff_eq, hst.returns⟩

def Event.asked : Event → Event
  | .malloc n mapping _ => .malloc n mapping 0
  | .free p => .free p

def Op.asked : Op → Event
  | .malloc n => .malloc n none 0
  | .free p => .free p

/-- A call that can be executed is made. -/
theorem World.exec_does {op : Op} (h : w.exec op = some w') : ∃ e, Does w e w' ∧ e.asked = op.asked := by
  obtain ⟨n, p, s', rfl, hret, hspace, rfl⟩ | ⟨a, s', rfl, ha, hret, rfl⟩ := World.exec_cases h
  · exact ⟨.malloc n none p, .malloc n rfl hret hspace, rfl⟩
  · exact ⟨.free a.ptr, .free a ha hret, rfl⟩

/-- Calls that can be executed are a trace. -/
theorem World.run_trace {ops : List Op} (h : w.run ops = some w') :
    ∃ es, Trace w es w' ∧ es.map Event.asked = ops.map Op.asked := by
  induction ops generalizing w with
  | nil =>
      cases h
      exact ⟨[], .nil _, rfl⟩
  | cons op ops ih =>
      rw [World.run, List.foldlM_cons] at h
      obtain ⟨w₁, h₁, h₂⟩ := Option.bind_eq_some_iff.mp h
      obtain ⟨e, hd, he⟩ := World.exec_does h₁
      obtain ⟨es, hes, hasked⟩ := ih h₂
      exact ⟨e :: es, .call hd hes, by rw [List.map_cons, List.map_cons, he, hasked]⟩

theorem start_initial : Initial start := by
  refine ⟨rfl, rfl, ?_, ?_, rfl, ?_, fun _ _ => rfl, rfl, rfl, rfl, rfl, rfl⟩
  · decide
  · decide
  · decide

/-- A chunk between two others is given back, cut and joined again. -/
theorem arena_refines_run :
    ∃ es w A, Trace start es w ∧ es.map Event.asked = [.malloc 24 none 0, .malloc 5000 none 0,
        .malloc 24 none 0, .free 0x21000, .malloc 1000 none 0, .free 0x20020] ∧
      es.foldlM Arena.perform (Arena.nothing 0x20000) = some A ∧ (∀ B, Stores w B ↔ B = A) ∧
      ∃ p s', muslMalloc ⟨true, none⟩ 1 100 w.state = .ret p s' := by
  obtain ⟨w, hw, -, -⟩ := start_run [.malloc 24, .malloc 5000, .malloc 24, .free 0x21000, .malloc 1000,
    .free 0x20020] (fun _ => true) (by decide +kernel)
  obtain ⟨es, hes, hasked⟩ := World.run_trace hw
  obtain ⟨A, hA, hst, hret, -⟩ := arena_refines start_initial hes
  obtain ⟨p, s', hp, -⟩ := hret ⟨true, none⟩ 0 100 rfl
  exact ⟨es, w, A, hes, hasked, hA, hst, p, s', hp⟩

end MmExper.Musl
