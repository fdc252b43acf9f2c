import MmExper.Musl.Refines
import MmExper.Musl.SizeClass

/-!
# The shape of the heap

What follows for runs of the allocator from its being a program on chunks and queues: the client's writes
have no influence on it, the break moves only for a request that nothing waiting fits for sure, and after
a number of chunks were given back it does not matter in which order.
-/

namespace MmExper.Musl

open Bitwise Lib

variable {w w' w₁ w₂ w₁' w₂' : World} {A A₁ A₂ : Arena} {H : Heap} {c : Chunk} {n v : Word} {p x y : Nat}
  {e e₁ e₂ : Event} {es es₁ es₂ : List Event} {ps : List Nat} {mapping : Option Nat}

/-! ## What the client writes

Both worlds refine the same arena, and the arena is a function of the calls. Equal calls get equal
answers, whatever the memory holds. -/

/-- The arena's answer depends on what is asked only. -/
theorem perform_asked (h : e₁.asked = e₂.asked) (h₁ : A.perform e₁ = some A₁)
    (h₂ : A.perform e₂ = some A₂) : e₁ = e₂ ∧ A₁ = A₂ := by
  cases e₁ with
  | malloc n mapping p =>
      cases e₂ with
      | malloc n' mapping' p' =>
          simp only [Event.asked, Event.malloc.injEq, and_true] at h
          obtain ⟨rfl, rfl⟩ := h
          simp only [Arena.perform] at h₁ h₂
          split at h₁
          · next hp =>
            split at h₂
            · next hp' =>
              cases h₁
              cases h₂
              exact ⟨by rw [← hp, ← hp'], rfl⟩
            · cases h₂
          · cases h₁
      | free p' => cases h
  | free p =>
      cases e₂ with
      | malloc n' mapping' p' => cases h
      | free p' =>
          cases h
          cases h₁
          cases h₂
          exact ⟨rfl, rfl⟩

theorem foldlM_asked (h : es₁.map Event.asked = es₂.map Event.asked)
    (h₁ : es₁.foldlM Arena.perform A = some A₁) (h₂ : es₂.foldlM Arena.perform A = some A₂) :
    es₁ = es₂ ∧ A₁ = A₂ := by
  induction es₁ generalizing A es₂ with
  | nil =>
      have hnil : es₂ = [] := by simpa using h.symm
      subst hnil
      cases h₁
      cases h₂
      exact ⟨rfl, rfl⟩
  | cons e₁ es₁ ih =>
      cases es₂ with
      | nil => cases h
      | cons e₂ es₂ =>
          rw [List.map_cons, List.map_cons, List.cons.injEq] at h
          rw [List.foldlM_cons] at h₁ h₂
          obtain ⟨B₁, hb₁, h₁⟩ := Option.bind_eq_some_iff.mp h₁
          obtain ⟨B₂, hb₂, h₂⟩ := Option.bind_eq_some_iff.mp h₂
          obtain ⟨rfl, rfl⟩ := perform_asked h.1 hb₁ hb₂
          obtain ⟨rfl, rfl⟩ := ih h.2 h₁ h₂
          exact ⟨rfl, rfl⟩

/-- **The client's writes do not show.** Two programs that start with the break in the same page and ask
for the same get the same pointers, whatever was in memory and whatever they write into their payloads
between the calls, and their heaps are cut up and queued alike. -/
theorem writes_unseen (h₁ : Initial w₁) (h₂ : Initial w₂) (hbrk : pageUp w₁.brk0 = pageUp w₂.brk0)
    (t₁ : Trace w₁ es₁ w₁') (t₂ : Trace w₂ es₂ w₂') (h : es₁.map Event.asked = es₂.map Event.asked) :
    es₁ = es₂ ∧ ∀ A, Stores w₁' A ↔ Stores w₂' A := by
  obtain ⟨A₁, ha₁, hst₁⟩ := h₁.stores.trace t₁
  obtain ⟨A₂, ha₂, hst₂⟩ := h₂.stores.trace t₂
  have hstart : Arena.nothing w₁.brk0 = Arena.nothing w₂.brk0 := by
    rw [Arena.nothing, Arena.nothing, hbrk]
  rw [hstart] at ha₁
  obtain ⟨rfl, rfl⟩ := foldlM_asked h ha₁ ha₂
  exact ⟨rfl, fun A => hst₁.iff_eq.trans hst₂.iff_eq.symm⟩

/-- The program that has just started, with all ones in its memory outside `mal`. -/
def dirtyStart : World :=
  { start with
    state := { start.state with
      mem := fun x => if 0x10000 ≤ x ∧ x < 0x10000 + State.malSize then 0#64 else -1#64 } }

theorem dirtyStart_initial : Initial dirtyStart := by
  refine ⟨rfl, rfl, by decide, by decide, rfl, by decide, ?_, rfl, rfl, rfl, rfl, rfl⟩
  intro x hx
  exact if_pos hx

/-- Two programs in different memory. -/
theorem writes_unseen_runs :
    ∃ es₁ es₂ w₁ w₂, Trace start es₁ w₁ ∧ Trace dirtyStart es₂ w₂ ∧
      es₁.map Event.asked = [.malloc 24 none 0, .malloc 500 none 0, .free 0x20020, .malloc 24 none 0] ∧
      es₁ = es₂ ∧ ∀ A, Stores w₁ A ↔ Stores w₂ A := by
  have hrun : ((start.run [.malloc 24, .malloc 500, .free 0x20020, .malloc 24]).isSome &&
      (dirtyStart.run [.malloc 24, .malloc 500, .free 0x20020, .malloc 24]).isSome) = true := by
    decide +kernel
  obtain ⟨hr₁, hr₂⟩ := Bool.and_eq_true_iff.mp hrun
  obtain ⟨w₁, hw₁⟩ := Option.isSome_iff_exists.mp hr₁
  obtain ⟨w₂, hw₂⟩ := Option.isSome_iff_exists.mp hr₂
  obtain ⟨es₁, ht₁, ha₁⟩ := World.run_trace hw₁
  obtain ⟨es₂, ht₂, ha₂⟩ := World.run_trace hw₂
  obtain ⟨he, hst⟩ := writes_unseen start_initial dirtyStart_initial rfl ht₁ ht₂ (ha₁.trans ha₂.symm)
  exact ⟨es₁, es₂, w₁, w₂, ht₁, ht₂, ha₁, he, hst⟩

/-! ## When the heap grows

The break moves when no queue from the request's class on has a chunk. A chunk of a lower class is
smaller than 5/4 of the request: of the large sizes there are four classes to a power of two. -/

/-- The sizes of a class are within a quarter of each other. -/
theorem binOf_le_quarter (h : binOf y ≤ binOf x) (hx : x ≤ 7167) : 4 * y ≤ 5 * x := by
  have htab : ∀ a < 60, ∀ b < 60, binTab.getD b 0 ≤ binTab.getD a 0 → 4 * (b + 5) ≤ 5 * (a + 4) := by
    decide +kernel
  have hrange : ∀ a < 60, 32 ≤ binTab.getD a 0 ∧ binTab.getD a 0 ≤ 47 := by decide +kernel
  have hlast : ∀ a < 52, binTab.getD a 0 ≤ 46 := by decide +kernel
  rcases binOf_cases x with ⟨hx₁, ex⟩ | ⟨hx₁, hxt, ex⟩ | ⟨hx₁, hxt, ex⟩ | ⟨hx₁, ex⟩ <;>
    rcases binOf_cases y with ⟨hy₁, ey⟩ | ⟨hy₁, hyt, ey⟩ | ⟨hy₁, hyt, ey⟩ | ⟨hy₁, ey⟩ <;>
    rw [ex, ey] at h
  · omega
  · -- Only the first entry of the table is as small as 32.
    have h₀ := hrange _ hyt
    have := htab 0 (by decide) _ hyt (by change _ ≤ 32; omega)
    omega
  · have := hrange _ hyt
    omega
  · omega
  · omega
  · have := htab _ hxt _ hyt h
    omega
  · have := hrange _ hxt
    have := hrange _ hyt
    omega
  · have := hrange _ hxt
    omega
  · omega
  · omega
  · have := htab _ hxt _ hyt (by omega)
    omega
  · have := hlast (x / 128 - 4) (by omega)
    omega
  · omega
  · omega
  · omega
  · omega

/-- A chunk of a class below the request's is less than a quarter larger than the request. -/
theorem size_lt_of_class {s : Word} (hs : 32 ≤ s.toNat) (hs' : s.toNat % 32 = 0) (hpos : 32 ≤ v.toNat)
    (hv : v.toNat % 32 = 0) (hmax : v.toNat ≤ 229376) (h : binIndex s < binIndexUp v) :
    4 * s.toNat < 5 * v.toNat := by
  rw [binIndex_eq hs, binIndexUp_eq hpos hmax] at h
  split at h
  · omega
  · have := binOf_le_quarter (Nat.le_of_lt_succ h) (by omega)
    omega

namespace Arena

@[simp] theorem cut_hi (A : Arena) (a m : Nat) : (A.cut a m).hi = A.hi := by
  rw [cut]
  split
  · rfl
  · split <;> rfl

@[simp] theorem take_hi (A : Arena) (a : Nat) : (A.take a).hi = A.hi := rfl

/-- The end moves when nothing is waiting. -/
theorem malloc_hi (A : Arena) (v : Word) : (A.malloc v).2.hi =
    if A.serve (binIndexUp v) = none then
      A.hi + if A.chunks = [] then pageUp (v.toNat + 32) - 32 else pageUp (v.toNat + 32)
    else A.hi := by
  rw [malloc]
  cases A.serve (binIndexUp v) with
  | some a =>
      rw [if_neg (by simp)]
      simp only [cut_hi, take_hi]
  | none =>
      rw [if_pos rfl]
      simp only [cut_hi]
      rfl

end Arena

/-- Nothing waits from a class on exactly if all free chunks are of lower ones. -/
theorem Heap.serve_eq_none_iff {i : Nat} :
    H.arena.serve i = none ↔ ∀ c ∈ H.chunks, c.free = true → c.bin < i := by
  rw [Arena.serve_eq_none_iff]
  constructor
  · intro h c hc hf
    by_contra hi
    have hnil : H.bins c.bin = [] := h c.bin (H.bin_lt hc) (by omega)
    have hmem := (H.mem_bins_addr hc c.bin).mpr ⟨hf, rfl⟩
    rw [hnil] at hmem
    cases hmem
  · intro h j hj hij
    apply List.eq_nil_iff_forall_not_mem.mpr
    intro a ha
    obtain ⟨c, hc, -, hf, hb⟩ := (H.mem_bins j a).mp ha
    have := h c hc hf
    omega

/-- Where the heap ends, with or without chunks. -/
theorem Inv.end_brk (h : Inv w H) :
    H.hi + 16 = pageUp w.state.brk + if H.chunks = [] then 32 else 0 := by
  split
  · next hnil =>
    have hlo := h.atBreak.empty hnil
    have ht := H.tiled
    rw [hnil] at ht
    have hlh : H.lo = H.hi := ht
    omega
  · next hne =>
    rw [h.atBreak.grown hne, Nat.add_zero]

/-- What a request below the threshold is answered with. -/
theorem Arena.request_chunk {A : Arena} (had : adjustSize n = some v) (hthr : ¬v > mmapThreshold) :
    A.request n mapping = ((A.malloc v).1 + 16, (A.malloc v).2) := by
  simp only [Arena.request, had, if_neg hthr]

/-- A request below the threshold that is answered leaves a chunk, and the break where it was or behind the
growth. -/
theorem Inv.malloc_brk {sys : Sys} {fuel : Nat} {s' : State} {H' : Heap} {live : List Alloc} (h : Inv w H)
    (had : adjustSize n = some v) (hthr : ¬v > mmapThreshold) (hsys : sys.sbrk = true)
    (hret : muslMalloc sys fuel n w.state = .ret p s') (hspace : AddressSpace w.brk0 s') (hp : p ≠ 0)
    (h' : Inv ⟨s', live, w.brk0⟩ H') :
    H'.chunks ≠ [] ∧ (s'.brk = w.state.brk ∨ s'.brk = w.state.brk + growth v) := by
  cases h.mallocEnds hsys hret hspace with
  | nothing cs hp' => exact absurd hp' hp
  | mapped v' base had' hthr' =>
      rw [had] at had'
      cases had'
      exact absurd hthr' hthr
  | chunk v' H'' c u had' hthr' hp' hs k =>
      rw [had] at had'
      cases had'
      have hb := k.brk
      rw [BitVec.ofNat_toNat, BitVec.setWidth_eq] at hb
      subst hs
      refine ⟨fun hnil => ?_, hb⟩
      have he : (u.addAllocated (BitVec.ofNat 64 c.size)).heapEnd = 0 :=
        h'.repr.chunks_eq_nil_iff.mp hnil
      have hu : u.heapEnd = 0 := he
      have hne := (k.repr.grown (List.ne_nil_of_mem k.mem)).1
      omega

/-- The break moves as the end of the arena does. -/
theorem Inv.brk_ne_iff {H' : Heap} (h : Inv w H) (h' : Inv w' H') (hmax : v.toNat ≤ 229376)
    (harena : H'.arena = (H.arena.malloc v).2) (hne : H'.chunks ≠ [])
    (hbrk : w'.state.brk = w.state.brk ∨ w'.state.brk = w.state.brk + growth v) :
    w'.state.brk ≠ w.state.brk ↔ H.arena.serve (binIndexUp v) = none := by
  obtain ⟨hg, hg', -⟩ := growth_spec hmax
  have hgrowth : growth v = pageUp (v.toNat + 32) := rfl
  have hpage : pageUp (w.state.brk + growth v) = pageUp w.state.brk + growth v := pageUp_add hg
  have hhi : H.arena.hi = H.hi := rfl
  have hch : H.arena.chunks = [] ↔ H.chunks = [] := Iff.rfl
  have hend : H'.hi = (H.arena.malloc v).2.hi := congrArg Arena.hi harena
  rw [Arena.malloc_hi] at hend
  have hbefore := h.end_brk
  have hafter := h'.end_brk
  rw [if_neg hne] at hafter
  constructor
  · intro hmoved
    by_contra hs
    rw [if_neg hs] at hend
    rw [hbrk.resolve_left hmoved, hpage] at hafter
    split at hbefore <;> omega
  · intro hs hsame
    rw [if_pos hs] at hend
    rw [hsame] at hafter
    simp only [hch] at hend
    split at hbefore
    · next hnil =>
      rw [if_pos hnil] at hend
      omega
    · next hne =>
      rw [if_neg hne] at hend
      omega

/-- **When the heap grows.** A request below the threshold moves the break exactly if every free chunk is of
a class below the request's. Such a chunk may be large enough all the same, but is never a quarter larger
than the request. -/
theorem heap_grows_iff (hA : Stores w A) (hd : Does w (.malloc n mapping p) w')
    (had : adjustSize n = some v) (hthr : v ≤ mmapThreshold) :
    (w'.state.brk ≠ w.state.brk ↔ ∀ c ∈ A.chunks, c.free = true → c.bin < binIndexUp v) ∧
    (w'.state.brk ≠ w.state.brk → w'.state.brk = w.state.brk + pageUp (v.toNat + 32) ∧
      ∀ c ∈ A.chunks, c.free = true → 4 * c.size < 5 * v.toNat) := by
  obtain ⟨hv₁, hv₂, -, -⟩ := adjustSize_spec had
  have hlt : ¬v > mmapThreshold := BitVec.not_lt.mpr hthr
  have hmax : v.toNat ≤ 229376 := not_gt_mmapThreshold.mp hlt
  obtain ⟨A', hperf, H', hinv', rfl⟩ := hA.does hd
  obtain ⟨H, hinv, rfl⟩ := hA
  simp only [Arena.perform, Arena.request_chunk had hlt, Option.ite_none_right_eq_some, Option.some.injEq] at hperf
  -- The arena of the new world is the one that the arena's own operation makes, and the answer is a chunk.
  obtain ⟨hp, harena⟩ := hperf
  cases hd with
  | malloc n hsys hret hspace =>
      obtain ⟨hne, hbrk⟩ := hinv.malloc_brk had hlt hsys hret hspace (by omega) hinv'
      have hiff := hinv.brk_ne_iff hinv' hmax harena.symm hne hbrk
      refine ⟨hiff.trans Heap.serve_eq_none_iff, fun hmoved => ⟨hbrk.resolve_left hmoved, ?_⟩⟩
      intro c hc hf
      have hc : c ∈ H.chunks := hc
      have hclass := Heap.serve_eq_none_iff.mp (hiff.mp hmoved) c hc hf
      have hcn := H.toNat_size hc
      rw [← hcn]
      refine size_lt_of_class ?_ ?_ hv₂ hv₁ hmax hclass
      · rw [hcn]
        exact H.size_ge hc
      · rw [hcn]
        exact H.granular c hc

/-- A heap of one page is asked for 24 bytes more, and for 5000. -/
theorem heap_grows_iff_run :
    ∃ w A w₁ w₂ p₁ p₂, start.run [.malloc 24] = some w ∧ Stores w A ∧
      Does w (.malloc 24 none p₁) w₁ ∧ Does w (.malloc 5000 none p₂) w₂ ∧
      (w₁.state.brk ≠ w.state.brk ↔ ∀ c ∈ A.chunks, c.free = true → c.bin < binIndexUp 64) ∧
      (w₂.state.brk ≠ w.state.brk → w₂.state.brk = w.state.brk + pageUp 5056 ∧
        ∀ c ∈ A.chunks, c.free = true → 4 * c.size < 5 * 5024) := by
  obtain ⟨w, hw, hr, hc⟩ := start_run [.malloc 24]
    (fun w => (w.exec (.malloc 24)).isSome && (w.exec (.malloc 5000)).isSome) (by decide +kernel)
  obtain ⟨hc₁, hc₂⟩ := Bool.and_eq_true_iff.mp hc
  obtain ⟨w₁, hw₁⟩ := Option.isSome_iff_exists.mp hc₁
  obtain ⟨w₂, hw₂⟩ := Option.isSome_iff_exists.mp hc₂
  obtain ⟨H, hinv⟩ := reachable_inv hr
  have hmade : ∀ {n w'}, w.exec (.malloc n) = some w' → ∃ p, Does w (.malloc n none p) w' := by
    intro n w' hx
    obtain ⟨e, hd, he⟩ := World.exec_does hx
    cases e with
    | malloc n' mapping p =>
        simp only [Event.asked, Op.asked, Event.malloc.injEq, and_true] at he
        obtain ⟨rfl, rfl⟩ := he
        exact ⟨p, hd⟩
    | free p => cases he
  obtain ⟨p₁, hd₁⟩ := hmade hw₁
  obtain ⟨p₂, hd₂⟩ := hmade hw₂
  have hst : Stores w H.arena := ⟨H, hinv, rfl⟩
  exact ⟨w, H.arena, w₁, w₂, p₁, p₂, hw, hst, hd₁, hd₂,
    (heap_grows_iff hst hd₁ (v := 64) (by decide) (by decide)).1,
    (heap_grows_iff hst hd₂ (v := 5024) (by decide) (by decide)).2⟩

/-! ## The order of frees

Freeing marks a chunk and joins runs of free ones. Joining after every mark is the same as marking
all and joining once (`Lib.joinRuns`), so the order does not show. -/

def freeAt (p : Nat) (c : Chunk) : Chunk := if c.addr + 16 = p then c.freed else c

theorem freeAt_free (hf : c.free = true) : freeAt p c = c := by
  rw [freeAt]
  split
  · rw [Chunk.freed, ← hf]
  · rfl

/-- Marking several chunks. -/
theorem foldl_freeAt (ps : List Nat) (c : Chunk) :
    ps.foldl (fun c p => freeAt p c) c = if c.addr + 16 ∈ ps then c.freed else c := by
  induction ps generalizing c with
  | nil => simp
  | cons p ps ih =>
      rw [List.foldl_cons, ih, freeAt]
      by_cases hp : c.addr + 16 = p
      · rw [if_pos hp, if_pos (List.mem_cons.mpr (Or.inl hp))]
        split <;> rfl
      · rw [if_neg hp]
        simp only [List.mem_cons, hp, false_or]

/-- One chunk given back. -/
theorem Inv.release_chunks (h : Inv w H) (hd : Does w (.free p) w') :
    (H.arena.release p).chunks = joinRuns Chunk.free Chunk.join (H.chunks.map (freeAt p)) := by
  by_cases hused : ∃ c ∈ H.chunks, c.free = false ∧ c.addr + 16 = p
  · obtain ⟨c, hc, hf, rfl⟩ := hused
    obtain ⟨l, pre, post, r, H', u, hch, har, k, hb, -⟩ := h.repr.muslFree_bins h.coalesced hc hf
    have hrel : H.arena.release (c.addr + 16) = H.arena.free c.addr := by
      have hany : (H.chunks.any fun d => !d.free && decide (d.addr + 16 = c.addr + 16)) = true :=
        List.any_eq_true.mpr ⟨c, hc, by simp [hf]⟩
      rw [Arena.release, Heap.arena, if_pos hany, Nat.add_sub_cancel]
    have hmark : H.chunks.map (freeAt (c.addr + 16)) =
        H.chunks.map fun d => if d.addr = c.addr then d.freed else d := by
      apply List.map_congr_left
      intro d _
      simp only [freeAt, Nat.add_right_cancel_iff]
    rw [hrel, ← Heap.arena_free hch har h.coalesced hf k.lo k.hi k.chunks hb, hmark]
    exact k.chunks.trans (Heap.join_around hch har h.coalesced).symm
  · have hany : (H.chunks.any fun d => !d.free && decide (d.addr + 16 = p)) = false := by
      apply List.any_eq_false.mpr
      intro d hd hda
      simp only [Bool.and_eq_true, Bool.not_eq_true', decide_eq_true_eq] at hda
      exact hused ⟨d, hd, hda⟩
    have hmark : H.chunks.map (freeAt p) = H.chunks := by
      refine (List.map_congr_left fun d hd => ?_).trans (List.map_id _)
      rw [freeAt]
      split
      · next hp =>
        cases hf : d.free with
        | true => rw [Chunk.freed, ← hf]; rfl
        | false => exact absurd ⟨d, hd, hf, hp⟩ hused
      · rfl
    rw [hmark, joinRuns_of_alternating (show Alternating Chunk.free H.chunks from h.coalesced),
      Arena.release, Heap.arena, if_neg (by rw [hany]; exact Bool.false_ne_true)]

/-- Several chunks given back. -/
theorem Stores.free_chunks (hA : Stores w A) (h : Trace w es w') (hes : es = ps.map .free) :
    ∃ A', Stores w' A' ∧ A'.chunks =
      ps.foldl (fun cs p => joinRuns Chunk.free Chunk.join (cs.map (freeAt p))) A.chunks := by
  induction h generalizing A ps with
  | nil =>
      obtain rfl : ps = [] := by simpa using hes.symm
      exact ⟨A, hA, rfl⟩
  | call hd _ ih =>
      cases ps with
      | nil => cases hes
      | cons p ps =>
          obtain ⟨rfl, rfl⟩ := List.cons.inj hes
          obtain ⟨A₁, hperf, hst⟩ := hA.does hd
          obtain ⟨H, hinv, rfl⟩ := hA
          cases hperf
          obtain ⟨A', hst', hch⟩ := ih hst rfl
          refine ⟨A', hst', ?_⟩
          rw [hch, List.foldl_cons, hinv.release_chunks hd]
          rfl
  | write mem hw _ ih => exact ih (hA.write hw) hes

theorem Stores.alternating (hA : Stores w A) : Alternating Chunk.free A.chunks := by
  obtain ⟨H, hinv, rfl⟩ := hA
  exact hinv.coalesced

/-- The waiting chunks of a class, whatever their order. -/
theorem Heap.bins_perm {H' : Heap} (h : H.chunks = H'.chunks) (i : Nat) : (H.bins i).Perm (H'.bins i) := by
  refine (List.perm_ext_iff_of_nodup (H.nodup i) (H'.nodup i)).mpr fun a => ?_
  rw [H.mem_bins, H'.mem_bins, h]

/-- **The order of frees does not matter.** After a number of pointers were given back, in whatever order,
the chunks are those of before with the given ones free and all free neighbours joined, and the same
chunks wait in each class. -/
theorem free_order {qs : List Nat} (hA : Stores w A) (h₁ : Trace w (ps.map .free) w₁)
    (h₂ : Trace w (qs.map .free) w₂) (hperm : ps.Perm qs) :
    ∃ A₁ A₂, Stores w₁ A₁ ∧ Stores w₂ A₂ ∧
      A₁.chunks = joinRuns Chunk.free Chunk.join
        (A.chunks.map fun c => if c.addr + 16 ∈ ps then c.freed else c) ∧
      A₂.chunks = A₁.chunks ∧ ∀ i, (A₂.queues i).Perm (A₁.queues i) := by
  have hjoin : ∀ {rs : List Nat} {w' : World}, Trace w (rs.map .free) w' → ∃ A', Stores w' A' ∧
      A'.chunks = joinRuns Chunk.free Chunk.join
        (A.chunks.map fun c => if c.addr + 16 ∈ rs then c.freed else c) := by
    intro rs w' h
    obtain ⟨A', hst, hch⟩ := hA.free_chunks h rfl
    refine ⟨A', hst, ?_⟩
    rw [hch, joins_chunk.foldl_joinRuns (fun p c hf => freeAt_free hf) rs hA.alternating]
    simp only [foldl_freeAt]
  obtain ⟨A₁, hs₁, hc₁⟩ := hjoin h₁
  obtain ⟨A₂, hs₂, hc₂⟩ := hjoin h₂
  have hsame : A₂.chunks = A₁.chunks := by
    rw [hc₁, hc₂]
    congr 1
    apply List.map_congr_left
    intro c _
    simp only [hperm.mem_iff]
  refine ⟨A₁, A₂, hs₁, hs₂, hc₁, hsame, ?_⟩
  obtain ⟨H₁, -, rfl⟩ := hs₁
  obtain ⟨H₂, -, rfl⟩ := hs₂
  exact Heap.bins_perm hsame

/-- Frees that can be executed are a trace. -/
theorem World.free_trace (ps : List Nat) (h : w.run (ps.map .free) = some w') : Trace w (ps.map .free) w' := by
  obtain ⟨es, hes, hasked⟩ := World.run_trace h
  have hsame : ∀ (es : List Event) (ps : List Nat),
      es.map Event.asked = (ps.map Op.free).map Op.asked → es = ps.map Event.free := by
    intro es
    induction es with
    | nil =>
        intro ps hps
        cases ps with
        | nil => rfl
        | cons p ps => cases hps
    | cons e es ih =>
        intro ps hps
        cases ps with
        | nil => cases hps
        | cons p ps =>
            simp only [List.map_cons, List.cons.injEq] at hps
            cases e with
            | malloc n mapping q => cases hps.1
            | free q =>
                cases hps.1
                rw [ih ps hps.2, List.map_cons]
  exact hsame es ps hasked ▸ hes

/-- Three chunks in a row, given back from the left and from the right. -/
theorem free_order_run :
    ∃ w w₁ w₂ A A₁ A₂, start.run [.malloc 24, .malloc 24, .malloc 24] = some w ∧ Stores w A ∧
      w.run [.free 0x20020, .free 0x20060, .free 0x200a0] = some w₁ ∧
      w.run [.free 0x200a0, .free 0x20060, .free 0x20020] = some w₂ ∧ Stores w₁ A₁ ∧ Stores w₂ A₂ ∧
      A₁.chunks = joinRuns Chunk.free Chunk.join
        (A.chunks.map fun c => if c.addr + 16 ∈ [0x20020, 0x20060, 0x200a0] then c.freed else c) ∧
      A₂.chunks = A₁.chunks ∧ ∀ i, (A₂.queues i).Perm (A₁.queues i) := by
  obtain ⟨w, hw, hr, hc⟩ := start_run [.malloc 24, .malloc 24, .malloc 24]
    (fun w => (w.run [.free 0x20020, .free 0x20060, .free 0x200a0]).isSome &&
      (w.run [.free 0x200a0, .free 0x20060, .free 0x20020]).isSome) (by decide +kernel)
  obtain ⟨hc₁, hc₂⟩ := Bool.and_eq_true_iff.mp hc
  obtain ⟨w₁, hw₁⟩ := Option.isSome_iff_exists.mp hc₁
  obtain ⟨w₂, hw₂⟩ := Option.isSome_iff_exists.mp hc₂
  obtain ⟨H, hinv⟩ := reachable_inv hr
  have hst : Stores w H.arena := ⟨H, hinv, rfl⟩
  obtain ⟨A₁, A₂, hs₁, hs₂, hrest⟩ := free_order hst
    (World.free_trace [0x20020, 0x20060, 0x200a0] hw₁)
    (World.free_trace [0x200a0, 0x20060, 0x20020] hw₂) (by decide)
  exact ⟨w, w₁, w₂, H.arena, A₁, A₂, hw, hst, hw₁, hw₂, hs₁, hs₂, hrest⟩

end MmExper.Musl
