import MmExper.Musl.Steps

/-!
# Growing the heap

`__expand_heap` keeps its own copy of the break and takes whatever `sbrk(n)` returns for success, so
outside the two guards it always answers "from the stored break on". When nobody else moves the
break and `sbrk` does succeed, that copy is the real break rounded up to a page, and `expand_heap`
appends one chunk in use to the heap (`Repr.expandHeap`).
-/

namespace MmExper.Musl

open Bitwise Lib

def pageUp (a : Nat) : Nat := (a + 4095) / 4096 * 4096

def pageDown (a : Nat) : Nat := a / 4096 * 4096

theorem toNat_align64Up_page {v : Word} (h : pageUp v.toNat < 2 ^ 64) :
    (align64Up v pageSize).toNat = pageUp v.toNat := by
  rw [toNat_align64Up (k := 12) rfl]
  simp only [pageUp] at *
  omega

theorem pageUp_add {a b : Nat} (h : b % 4096 = 0) : pageUp (a + b) = pageUp a + b := by
  simp only [pageUp]
  omega

variable {sys : Sys} {s s' : State} {H : Heap} {c : Chunk} {w : Nat} {n : Word}

/-- The state after the break was moved, or was not. -/
def sbrkDone (sys : Sys) (n : Word) (s : State) : State :=
  { (s.sbrk sys n).2 with storedBrk := s.storedBrk + n }.addHeap n

/-- Between the two guards `__expand_heap` answers with the stored break, whatever `sbrk` says. -/
theorem _expandHeap_eq (sys : Sys) (pn : Word) (s : State) : _expandHeap sys pn s =
    if pn > sizeMax / 2#64 - pageSize then (0, pn, s)
    else if wouldOverflow (align64Up pn pageSize) (fetchBrk s) then
      _expandHeapMmap sys (align64Up pn pageSize) pn (fetchBrk s)
    else ((fetchBrk s).storedBrk.toNat, align64Up pn pageSize,
      sbrkDone sys (align64Up pn pageSize) (fetchBrk s)) := by
  unfold _expandHeap
  split
  · rfl
  simp only []
  generalize align64Up pn pageSize = n
  generalize Musl.fetchBrk s = t
  have hge : (State.sbrk t sys n).1 ≥ 0#64 := by
    simp [BitVec.le_def]
  have hst : (t.sbrk sys n).2.storedBrk = t.storedBrk := by
    unfold State.sbrk
    split <;> rfl
  cases ho : wouldOverflow n t with
  | true => simp only [Bool.not_true, Bool.false_eq_true, if_false, if_true]
  | false =>
      simp only [Bool.not_false, Bool.false_eq_true, if_true, if_false, if_pos hge]
      simp only [sbrkDone, State.addHeap, hst, BitVec.add_sub_cancel]

/-! ## In a heap that ends at the break

Nobody else moves the break and `sbrk` does not fail: then the stored break is the real one rounded
up, and the new pages follow the heap. `layChunk` is the same for the first growth, whose chunk has
a sentinel of its own below, and for the others, which use the old sentinel's place. -/

/-- The heap ends where the break is, or will begin there. -/
structure AtBreak (s : State) (H : Heap) : Prop where
  empty : H.chunks = [] → H.lo = pageUp s.brk + 16
  grown : H.chunks ≠ [] → H.hi + 16 = pageUp s.brk

def growth (n : Word) : Nat := pageUp (n.toNat + 32)

theorem AtBreak.fits (h : AtBreak s H) : pageUp s.brk + 16 ≤ 2 ^ 63 ∨ pageUp s.brk ≤ 2 ^ 63 := by
  have hb := H.bound
  have hle := H.tiled.le
  by_cases hc : H.chunks = []
  · have := h.empty hc
    omega
  · have := h.grown hc
    omega

theorem AtBreak.pageUp_le (h : AtBreak s H) : pageUp s.brk ≤ 2 ^ 63 := by
  rcases h.fits with h | h <;> omega

theorem AtBreak.toNat_pageUp (h : AtBreak s H) : (BitVec.ofNat 64 (pageUp s.brk)).toNat = pageUp s.brk :=
  Lib.toNat_ofNat_of_lt (Nat.lt_of_le_of_lt h.pageUp_le (by decide))

theorem growth_spec (hn : n.toNat ≤ 229376) :
    growth n % 4096 = 0 ∧ n.toNat + 32 ≤ growth n ∧ growth n ≤ 233472 := by
  simp only [growth, pageUp]
  omega

theorem toNat_growth (hn : n.toNat ≤ 229376) : (BitVec.ofNat 64 (growth n)).toNat = growth n :=
  Lib.toNat_ofNat_of_lt (Nat.lt_of_le_of_lt (growth_spec hn).2.2 (by decide))

/-- The stored break is the real one, rounded up. -/
theorem Repr.fetchBrk (h : Repr s H) (hb : AtBreak s H) :
    fetchBrk s = { s with storedBrk := BitVec.ofNat 64 (pageUp s.brk) } := by
  have hsize : State.malSize = 1552 := rfl
  have hle := hb.pageUp_le
  unfold Musl.fetchBrk
  by_cases hc : H.chunks = []
  · rw [if_pos (h.empty hc).2.1]
    have hbrk : s.brk ≤ pageUp s.brk := by
      simp only [pageUp]
      omega
    have hself : s.sbrk0.toNat = s.brk := by
      rw [State.sbrk0, BitVec.toNat_ofNat]
      exact Nat.mod_eq_of_lt (by omega)
    have : align64Up s.sbrk0 pageSize = BitVec.ofNat 64 (pageUp s.brk) := by
      apply BitVec.eq_of_toNat_eq
      rw [toNat_align64Up_page (by rw [hself]; omega), hself, BitVec.toNat_ofNat]
      exact (Nat.mod_eq_of_lt (by omega)).symm
    rw [this]
  · obtain ⟨-, hst, -⟩ := h.grown hc
    have hend := hb.grown hc
    rw [hend] at hst
    have hne : s.storedBrk ≠ 0#64 := by
      have := h.above
      have := h.lists.mal_pos
      rw [hst, ← BitVec.toNat_inj.ne, BitVec.toNat_ofNat, BitVec.toNat_ofNat]
      have := H.tiled.le
      omega
    rw [if_neg hne, ← hst]

/-- The aligned length of a growth. -/
theorem align64Up_growth (hmax : n.toNat ≤ 229376) :
    align64Up (n + sizeAlign) pageSize = BitVec.ofNat 64 (growth n) := by
  have hn32 : (n + sizeAlign).toNat = n.toNat + 32 := by
    rw [BitVec.toNat_add, sizeAlign, BitVec.toNat_ofNat]
    omega
  have hg : growth n < 2 ^ 64 := Nat.lt_of_le_of_lt (growth_spec hmax).2.2 (by decide)
  apply BitVec.eq_of_toNat_eq
  rw [toNat_align64Up_page (by rwa [hn32]), hn32, ← growth, toNat_growth hmax]

/-- The guard before `sbrk(n)` lets every growth through. -/
theorem Repr.wouldOverflow (h : Repr s H) (hb : AtBreak s H) (hmax : n.toNat ≤ 229376) :
    Musl.wouldOverflow (align64Up (n + sizeAlign) pageSize) (Musl.fetchBrk s) = false := by
  have hle := hb.pageUp_le
  have hg := (growth_spec hmax).2.2
  have hgn := toNat_growth hmax
  have hpn := hb.toNat_pageUp
  rw [align64Up_growth hmax, h.fetchBrk hb]
  simp only [Musl.wouldOverflow, sizeMax, ge_iff_le, decide_eq_false_iff_not, BitVec.le_def]
  rw [BitVec.toNat_sub_of_le, hgn, hpn]
  · simp only [BitVec.toNat_ofNat]
    omega
  · rw [BitVec.le_def, hpn]
    simp only [BitVec.toNat_ofNat]
    omega

/-- `__expand_heap` when the heap ends at the break. -/
theorem Repr._expandHeap (h : Repr s H) (hb : AtBreak s H) (hsys : sys.sbrk = true)
    (hmax : n.toNat ≤ 229376) : Musl._expandHeap sys (n + sizeAlign) s =
      (pageUp s.brk, BitVec.ofNat 64 (growth n),
        { s with
          storedBrk := BitVec.ofNat 64 (pageUp s.brk + growth n)
          brk := s.brk + growth n
          calls := .sbrk (BitVec.ofNat 64 (growth n)) true :: s.calls
          stats := { s.stats with
            heapBytes := s.stats.heapBytes + BitVec.ofNat 64 (growth n) } }) := by
  have hle := hb.pageUp_le
  have hover := h.wouldOverflow (n := n) hb hmax
  have hgn := toNat_growth hmax
  have hpn := hb.toNat_pageUp
  have hbig : ¬n + sizeAlign > sizeMax / 2#64 - pageSize := by
    have hmax : (sizeMax / 2#64 - pageSize).toNat = 9223372036854771711 := by decide
    rw [gt_iff_lt, BitVec.lt_def, hmax, BitVec.toNat_add, sizeAlign, BitVec.toNat_ofNat]
    omega
  rw [_expandHeap_eq, if_neg hbig, if_neg (by rw [hover]; simp), align64Up_growth hmax, h.fetchBrk hb]
  simp only [hpn, sbrkDone, State.sbrk, hsys, if_true, State.addHeap, BitVec.ofNat_add, hgn]

/-- **`layChunk` appends a used chunk** at the end of the heap, once the state counts the growth. -/
theorem Repr.layChunk {t : State} {m : Nat} (hl : Lists t H.bins)
    (hab : t.mal + State.malSize ≤ H.lo) (htags : H.chunks ≠ [] → Tags t H.lo H.hi H.chunks)
    (hfirst : t.psize H.lo = 0#64 ||| cInuse) (hm : m % 32 = 0) (hpos : 0 < m)
    (hroom : H.hi + m + 16 ≤ 2 ^ 63) (hst : t.storedBrk = BitVec.ofNat 64 (H.hi + m + 16))
    (hheap : t.stats.heapBytes = BitVec.ofNat 64 (H.hi + m - H.lo + 32))
    (hfree : t.stats.freeBytes = BitVec.ofNat 64 H.freeBytes ∧
      t.stats.freeBlockBytes = BitVec.ofNat 64 H.freeBytes) :
    ∃ H', (layChunk (H.hi + 16) (BitVec.ofNat 64 m) t).1 = H.hi ∧
      Repr (layChunk (H.hi + 16) (BitVec.ofNat 64 m) t).2 H' ∧ H'.lo = H.lo ∧ H'.hi = H.hi + m ∧
      H'.chunks = H.chunks ++ [⟨H.hi, m, false⟩] ∧
      (∀ w, Kept t.mal H' w → (layChunk (H.hi + 16) (BitVec.ofNat 64 m) t).2.mem w = t.mem w) ∧
      (layChunk (H.hi + 16) (BitVec.ofNat 64 m) t).2.toVars =
        { t.toVars with heapEnd := H.hi + m + 16 } ∧
      (layChunk (H.hi + 16) (BitVec.ofNat 64 m) t).2.stats = t.stats ∧ H'.bins = H.bins := by
  have hsize : State.malSize = 1552 := rfl
  have hal := H.align
  have hhi := H.hi_align
  have hle := H.tiled.le
  have hmn : (BitVec.ofNat 64 m).toNat = m :=
    Lib.toNat_ofNat_of_lt (by omega)
  set c : Chunk := ⟨H.hi, m, false⟩ with hc
  set u := (Musl.layChunk (H.hi + 16) (BitVec.ofNat 64 m) t).2 with hu
  have hadd : H.hi + 16 + m - 16 = H.hi + m := by omega
  have hsub : H.hi + 16 - 16 = H.hi := by omega
  -- Three words are written: the chunk's header, its footer, and the sentinel behind it.
  have hmem : u.mem = Function.update (Function.update (Function.update t.mem (H.hi + m)
      (BitVec.ofNat 64 m ||| cInuse)) (H.hi + m + 8) (0#64 ||| cInuse)) (H.hi + 8)
      (BitVec.ofNat 64 m ||| cInuse) := by
    simp only [hu, Musl.layChunk, memToChunk, hmn, hadd, hsub, State.setPsize, State.setCsize,
      State.store_mem]
  have hv : u.toVars = { t.toVars with heapEnd := H.hi + m + 16 } := by
    simp only [hu, Musl.layChunk, hmn, State.setPsize, State.setCsize, State.store_toVars]
    rw [show H.hi + 16 + m = H.hi + m + 16 by omega]
  have hne : ∀ w, w ≠ H.hi + m → w ≠ H.hi + m + 8 → w ≠ H.hi + 8 → u.mem w = t.mem w := by
    intro w h₁ h₂ h₃
    rw [hmem, Function.update_of_ne h₃, Function.update_of_ne h₂, Function.update_of_ne h₁]
  have hroom' : H.hi + c.size + 16 ≤ 2 ^ 63 := hroom
  have hbytes : (H.extend c rfl rfl hpos hm hroom').freeBytes = H.freeBytes := by
    simp [Heap.freeBytes, Heap.extend, hc]
  refine ⟨H.extend c rfl rfl hpos hm hroom', ?_, ⟨?_, ?_, ?_, ?_, ?_, ?_⟩, rfl, rfl, rfl, ?_, hv, rfl, rfl⟩
  · simp only [Musl.layChunk, memToChunk, hsub]
  · -- The bins and the links are elsewhere.
    refine hl.congr (by rw [hv]) ?_ ?_
    · intro w hw
      simp only [InMal] at hw
      exact hne w (by omega) (by omega) (by omega)
    · intro j hj a ha
      have := (hl.chunk j hj a ha).align
      exact ⟨hne _ (by omega) (by omega) (by omega), hne _ (by omega) (by omega) (by omega)⟩
  · -- The words of the old chunks are below, and the new chunk has its size on both sides.
    intro _
    have hold : ∀ d ∈ H.chunks, u.csize d.addr = d.tag ∧ u.psize (d.addr + d.size) = d.tag := by
      intro d hd
      have ht := htags (List.ne_nil_of_mem hd)
      have hdb := H.tiled.bounds hd
      have hda := H.addr_align hd
      have hdg := H.granular d hd
      rw [State.csize, State.psize, hne _ (by omega) (by omega) (by omega),
        hne _ (by omega) (by omega) (by omega)]
      exact ⟨ht.csize d hd, ht.psize d hd⟩
    have hnew : u.csize c.addr = c.tag ∧ u.psize (c.addr + c.size) = c.tag := by
      rw [State.csize, State.psize, hmem]
      simp only [hc, Chunk.tag]
      rw [Function.update_self, Function.update_of_ne (by omega), Function.update_of_ne (by omega),
        Function.update_self]
      exact ⟨rfl, rfl⟩
    refine ⟨?_, ?_, ?_, ?_⟩
    · intro d hd
      rcases List.mem_append.mp hd with hd | hd
      · exact (hold d hd).1
      · rw [List.mem_singleton.mp hd]
        exact hnew.1
    · intro d hd
      rcases List.mem_append.mp hd with hd | hd
      · exact (hold d hd).2
      · rw [List.mem_singleton.mp hd]
        exact hnew.2
    · change u.mem H.lo = _
      rw [hne _ (by omega) (by omega) (by omega)]
      exact hfirst
    · change u.mem (H.hi + m + 8) = _
      rw [hmem, Function.update_of_ne (by omega), Function.update_self]
  · rw [hv]
    exact hab
  · intro he
    simp [Heap.extend] at he
  · intro _
    rw [hv]
    exact ⟨rfl, hst, hheap⟩
  · rw [hbytes]
    exact hfree
  · -- A word that is kept is in no header, so in none of the three.
    intro w hw
    have hcm : c ∈ (H.extend c rfl rfl hpos hm hroom').chunks := by simp [Heap.extend]
    have h₁ := hw.not_header hcm
    have h₂ := hw.not_next hcm
    simp only [hc] at h₁ h₂
    exact hne w (by omega) (by omega) (by omega)

/-- What `expand_heap` achieves when the heap ends at the break and `sbrk` succeeds: a new chunk in
use at the end, large enough, with nothing else changed. -/
structure Expanded (s s' : State) (H H' : Heap) (c : Chunk) (n : Word) : Prop where
  repr : Repr s' H'
  atBreak : AtBreak s' H'
  lo : H'.lo = H.lo
  chunks : H'.chunks = H.chunks ++ [c]
  addr : c.addr = H.hi
  used : c.free = false
  large : n.toNat ≤ c.size
  brk : s'.brk = s.brk + growth n
  mal : s'.mal = s.mal
  maps : s'.maps = s.maps
  frame : ∀ w, Kept s.mal H' w → s'.mem w = s.mem w
  allocated : s'.stats.allocatedBytes = s.stats.allocatedBytes
  mmap : s'.stats.mmapBytes = s.stats.mmapBytes

theorem layChunk_brk (p : Nat) (n : Word) (s : State) : (layChunk p n s).2.brk = s.brk := rfl

/-- What `expand_heap` does on top of `__expand_heap` leaves the break alone. -/
theorem expandHeap_brk {p : Nat} {m : Word} {t : State}
    (h : Musl._expandHeap sys (n + sizeAlign) s = (p, m, t)) : (expandHeap sys n s).2.brk = t.brk := by
  rw [expandHeap, h]
  simp only []
  split
  · rfl
  split
  · rw [layChunk_brk]
    rfl
  · rw [layChunk_brk]

/-- The break moves, wherever it ends up. -/
theorem Repr.expandHeap_brk (h : Repr s H) (hb : AtBreak s H) (hsys : sys.sbrk = true)
    (hmax : n.toNat ≤ 229376) : (Musl.expandHeap sys n s).2.brk = s.brk + growth n := by
  rw [Musl.expandHeap_brk (h._expandHeap hb hsys hmax)]

section Expand

variable (h : Repr s H) (hb : AtBreak s H) (hsys : sys.sbrk = true) (hpos : 0 < n.toNat)
  (hmax : n.toNat ≤ 229376) (hroom : s.brk + growth n ≤ 2 ^ 63)
include h hb hsys hpos hmax hroom

/-- The first growth: a sentinel goes below the new chunk. -/
theorem Repr.expandHeap_first (hc : H.chunks = []) :
    ∃ H' c, (Musl.expandHeap sys n s).1 = c.addr ∧
      Expanded s (Musl.expandHeap sys n s).2 H H' c n ∧ H'.bins = H.bins := by
  have hsize : State.malSize = 1552 := rfl
  obtain ⟨hg₁, hg₂, hg₃⟩ := growth_spec hmax
  have hal := H.align
  have hab := h.above
  have hmal := h.lists.mal_pos
  obtain ⟨he, -, hh⟩ := h.empty hc
  have hlo := hb.empty hc
  have hhi : H.hi = H.lo := by
    have := H.tiled
    rw [hc] at this
    exact this.symm
  have hpage : pageUp (s.brk + growth n) = pageUp s.brk + growth n := pageUp_add hg₁
  have hroom' : pageUp (s.brk + growth n) ≤ 2 ^ 63 := by
    simp only [pageUp]
    omega
  have hgrow := h._expandHeap (n := n) hb hsys hmax
  -- Names for the two words, so that the state is not rewritten along with them.
  obtain ⟨b, hbw⟩ : ∃ b, b = BitVec.ofNat 64 (pageUp s.brk + growth n) := ⟨_, rfl⟩
  obtain ⟨g, hgw⟩ : ∃ g, g = BitVec.ofNat 64 (growth n) := ⟨_, rfl⟩
  rw [← hbw, ← hgw] at hgrow
  set t : State := { s with
    storedBrk := b
    brk := s.brk + growth n
    calls := .sbrk g true :: s.calls
    stats := { s.stats with heapBytes := s.stats.heapBytes + g } } with ht
  -- `end` is zero: room for the sentinel in front of the first chunk is taken off its size.
  have hexp : Musl.expandHeap sys n s = Musl.layChunk (H.hi + 16)
      (BitVec.ofNat 64 (growth n - 32)) (t.setPsize H.lo (0#64 ||| cInuse)) := by
    have hpne : pageUp s.brk ≠ 0 := by omega
    have hend : t.heapEnd = 0 := he
    have hsub : g - sizeAlign = BitVec.ofNat 64 (growth n - 32) := by
      rw [hgw]
      apply BitVec.eq_of_toNat_eq
      rw [BitVec.toNat_sub_of_le (by simp only [BitVec.le_def, BitVec.toNat_ofNat, sizeAlign]; omega)]
      simp only [BitVec.toNat_ofNat, sizeAlign]
      omega
    rw [Musl.expandHeap, hgrow]
    simp only [memToChunk]
    rw [if_neg hpne, hend, if_pos hpne, hsub, show pageUp s.brk + 32 - 16 = H.lo by omega,
      show pageUp s.brk + 32 = H.hi + 16 by omega]
  -- Besides, only the first sentinel is written.
  have hmem : ∀ w, w ≠ H.lo → (t.setPsize H.lo (0#64 ||| cInuse)).mem w = s.mem w := by
    intro w hw
    rw [State.setPsize, State.store_mem, Function.update_of_ne hw]
  have hl : Lists (t.setPsize H.lo (0#64 ||| cInuse)) H.bins := by
    refine h.lists.congr rfl ?_ ?_
    · intro w hw
      simp only [InMal] at hw
      exact hmem w (by omega)
    · intro j hj a ha
      have := (h.lists.chunk j hj a ha).align
      exact ⟨hmem _ (by omega), hmem _ (by omega)⟩
  have hst : pageUp s.brk + growth n = H.hi + (growth n - 32) + 16 := by omega
  have hbytes : growth n = H.hi + (growth n - 32) - H.lo + 32 := by omega
  obtain ⟨H', h₁, h₂, h₃, h₄, h₅, h₆, h₇, h₈, h₉⟩ := Repr.layChunk (H := H) (m := growth n - 32) hl hab
    (fun hne => absurd hc hne)
    (by rw [State.psize, State.setPsize, State.store_mem, Function.update_self]) (by omega)
    (by omega) (by omega) (hbw.trans (congrArg (BitVec.ofNat 64) hst))
    (by
      rw [← hbytes, ← hgw]
      change s.stats.heapBytes + g = g
      rw [hh, BitVec.zero_add])
    h.free
  rw [← hexp] at h₁ h₂ h₆ h₇ h₈
  refine ⟨H', ⟨H.hi, growth n - 32, false⟩, h₁, ⟨h₂, ⟨fun e => by simp [h₅] at e, fun _ => ?_⟩, h₃, h₅,
    rfl, rfl, ?_, ?_, ?_, ?_, ?_, ?_, ?_⟩, h₉⟩
  · rw [h₇, h₄]
    change H.hi + (growth n - 32) + 16 = pageUp (s.brk + growth n)
    omega
  · change n.toNat ≤ growth n - 32
    omega
  · rw [h₇]
    rfl
  · rw [h₇]
    rfl
  · rw [h₇]
    rfl
  · -- The sentinel's word is a header word too.
    intro w hw
    have hne : w ≠ H.lo := by
      have := hw.not_header (c := ⟨H.hi, growth n - 32, false⟩) (by simp [h₅])
      simp only at this
      omega
    rw [h₆ w hw, hmem w hne]
  · rw [h₈]
    rfl
  · rw [h₈]
    rfl

/-- Growth in place: the old sentinel becomes the header of the new chunk. -/
theorem Repr.expandHeap_more (hc : H.chunks ≠ []) :
    ∃ H' c, (Musl.expandHeap sys n s).1 = c.addr ∧
      Expanded s (Musl.expandHeap sys n s).2 H H' c n ∧ H'.bins = H.bins := by
  obtain ⟨hg₁, hg₂, hg₃⟩ := growth_spec hmax
  have hhl := H.tiled.le
  obtain ⟨he, -, hh⟩ := h.grown hc
  have hend := hb.grown hc
  have hpage : pageUp (s.brk + growth n) = pageUp s.brk + growth n := pageUp_add hg₁
  have hroom' : pageUp (s.brk + growth n) ≤ 2 ^ 63 := by
    simp only [pageUp]
    omega
  have hgrow := h._expandHeap (n := n) hb hsys hmax
  obtain ⟨b, hbw⟩ : ∃ b, b = BitVec.ofNat 64 (pageUp s.brk + growth n) := ⟨_, rfl⟩
  obtain ⟨g, hgw⟩ : ∃ g, g = BitVec.ofNat 64 (growth n) := ⟨_, rfl⟩
  rw [← hbw, ← hgw] at hgrow
  set t : State := { s with
    storedBrk := b
    brk := s.brk + growth n
    calls := .sbrk g true :: s.calls
    stats := { s.stats with heapBytes := s.stats.heapBytes + g } } with ht
  -- `end` is the old break: the chunk begins where the sentinel was.
  have hexp : Musl.expandHeap sys n s = Musl.layChunk (H.hi + 16) g t := by
    have hpne : pageUp s.brk ≠ 0 := by omega
    have hend' : pageUp s.brk = t.heapEnd := by
      rw [← hend]
      exact he.symm
    rw [Musl.expandHeap, hgrow]
    simp only []
    rw [if_neg hpne, if_neg (not_not.mpr hend'), hend]
  have hst : pageUp s.brk + growth n = H.hi + growth n + 16 := by omega
  have hbytes : H.hi - H.lo + 32 + growth n = H.hi + growth n - H.lo + 32 := by omega
  obtain ⟨H', h₁, h₂, h₃, h₄, h₅, h₆, h₇, h₈, h₉⟩ := Repr.layChunk (t := t) (H := H) (m := growth n)
    (h.lists.congr rfl (fun _ _ => rfl) (fun _ _ _ _ => ⟨rfl, rfl⟩)) h.above
    (fun hne => (h.tags hne).congr fun _ _ => rfl) (h.tags hc).first (by omega)
    (by omega) (by omega) (hbw.trans (congrArg (BitVec.ofNat 64) hst))
    (by rw [← hbytes, BitVec.ofNat_add, ← hh, ← hgw])
    h.free
  rw [← hgw, ← hexp] at h₁ h₂ h₆ h₇ h₈
  refine ⟨H', ⟨H.hi, growth n, false⟩, h₁, ⟨h₂, ⟨fun e => by simp [h₅] at e, fun _ => ?_⟩, h₃, h₅, rfl,
    rfl, ?_, ?_, ?_, ?_, h₆, ?_, ?_⟩, h₉⟩
  · rw [h₇, h₄]
    change H.hi + growth n + 16 = pageUp (s.brk + growth n)
    omega
  · change n.toNat ≤ growth n
    omega
  · rw [h₇]
  · rw [h₇]
  · rw [h₇]
  · rw [h₈]
  · rw [h₈]

/-- **`expand_heap` appends a chunk.** -/
theorem Repr.expandHeap_bins :
    ∃ H' c, (Musl.expandHeap sys n s).1 = c.addr ∧
      Expanded s (Musl.expandHeap sys n s).2 H H' c n ∧ H'.bins = H.bins := by
  by_cases hc : H.chunks = []
  · exact h.expandHeap_first hb hsys hpos hmax hroom hc
  · exact h.expandHeap_more hb hsys hpos hmax hroom hc

theorem Repr.expandHeap :
    ∃ H' c, (Musl.expandHeap sys n s).1 = c.addr ∧
      Expanded s (Musl.expandHeap sys n s).2 H H' c n := by
  obtain ⟨H', c, haddr, k, -⟩ := h.expandHeap_bins hb hsys hpos hmax hroom
  exact ⟨H', c, haddr, k⟩

end Expand

end MmExper.Musl
