import MmExper.Musl.Malloc
import MmExper.Lib.Ring

/-!
# The free lists in memory

`Lists s bins` says that the 64 bins of `mal` hold the lists `bins 0`, …, `bins 63`: every bin that
has been initialised is a ring through its sentinel, the others are empty, and a bit of `binmap` is
set exactly for the non-empty bins. The three functions that edit lists each have one lemma here:
`Lists.lockBin`, `Lists.unbin` and `Lists.binChunk`.

Chunks sit 16 bytes past a multiple of 32 and above `mal`, so that the words of two nodes, a link
and a header, or a node and `mal` are never the same; all the frame reasoning below is that
arithmetic, done by `omega`.
-/

namespace MmExper.Musl

open Bitwise Lib

namespace State

variable {s : State} {a b c : Nat} {v : Word} {i : Nat}

@[simp] theorem store_mem : (s.store a v).mem = Function.update s.mem a v := rfl
@[simp] theorem store_toVars : (s.store a v).toVars = s.toVars := rfl
@[simp] theorem store_stats : (s.store a v).stats = s.stats := rfl

@[simp] theorem addFree_mem : (s.addFree v).mem = s.mem := rfl
@[simp] theorem addFree_toVars : (s.addFree v).toVars = s.toVars := rfl
@[simp] theorem subFree_mem : (s.subFree v).mem = s.mem := rfl
@[simp] theorem subFree_toVars : (s.subFree v).toVars = s.toVars := rfl

@[simp] theorem binToChunk_eq : s.binToChunk i = s.mal + 24 * i := by
  simp [binToChunk]

theorem next_store : (s.store a v).next b = if b + 16 = a then v.toNat else s.next b := by
  simp only [next, store_mem, Function.update_apply, apply_ite BitVec.toNat]

theorem prev_store : (s.store a v).prev b = if b + 24 = a then v.toNat else s.prev b := by
  simp only [prev, store_mem, Function.update_apply, apply_ite BitVec.toNat]

theorem chunkSize_congr {s' : State} (h : s'.mem (c + 8) = s.mem (c + 8)) :
    s'.chunkSize c = s.chunkSize c := by
  rw [chunkSize, csize, h, chunkSize, csize]

theorem binmap_store : (s.store a v).binmap = if s.mal = a then v else s.binmap := by
  simp only [binmap, store_mem, Function.update_apply, store_toVars]

/-- `mal.bins[i].head` is `BIN_TO_CHUNK(i)->next`. -/
theorem head_eq_next : s.head i = s.next (s.mal + 24 * i) := rfl

/-- `mal.bins[i].tail` is `BIN_TO_CHUNK(i)->prev`. -/
theorem tail_eq_prev : s.tail i = s.prev (s.mal + 24 * i) := rfl

end State

def InMal (mal w : Nat) : Prop := mal ≤ w ∧ w < mal + State.malSize

theorem inMal_binmap (mal : Nat) : InMal mal mal := by
  simp [InMal, State.malSize]

theorem inMal_head {mal i : Nat} (hi : i < 64) : InMal mal (mal + 24 * i + 16) := by
  simp only [InMal, State.malSize]
  omega

theorem inMal_tail {mal i : Nat} (hi : i < 64) : InMal mal (mal + 24 * i + 24) := by
  simp only [InMal, State.malSize]
  omega

/-- A chunk can be here: properly aligned, above `mal`, inside the address space. -/
structure ChunkAddr (mal a : Nat) : Prop where
  align : a % 32 = 16
  above : mal + State.malSize ≤ a
  fits : a + 32 ≤ 2 ^ 64

/-- A node of a free list can be here: a chunk, or one of the sentinels. -/
def Node (mal a : Nat) : Prop := ChunkAddr mal a ∨ ∃ j < 64, a = mal + 24 * j

/-- The free lists stored in `mal` and in the free chunks are `bins`. -/
structure Lists (s : State) (bins : Nat → List Nat) : Prop where
  mal_pos : 0 < s.mal
  mal_fits : s.mal + State.malSize ≤ 2 ^ 64
  /-- A bin that `lock_bin` has seen is a ring through its sentinel. -/
  ring : ∀ i < 64, s.head i ≠ 0 → Ring s.next s.prev (s.mal + 24 * i) (bins i)
  /-- The others are empty. -/
  unset : ∀ i < 64, s.head i = 0 → bins i = []
  /-- `binmap` marks the non-empty bins. -/
  bit : ∀ i < 64, (s.binmap.getLsbD i = true ↔ bins i ≠ [])
  chunk : ∀ i < 64, ∀ a ∈ bins i, ChunkAddr s.mal a
  /-- No chunk is on two lists. -/
  apart : ∀ i < 64, ∀ j < 64, ∀ a, a ∈ bins i → a ∈ bins j → i = j

namespace Lists

variable {s s' : State} {bins : Nat → List Nat} {i j : Nat} {a c w : Nat} {v : Word}

theorem node (h : Lists s bins) (hi : i < 64) (ha : a ∈ (s.mal + 24 * i) :: bins i) : Node s.mal a := by
  rcases List.mem_cons.mp ha with rfl | ha
  · exact Or.inr ⟨i, hi, rfl⟩
  · exact Or.inl (h.chunk i hi a ha)

/-- Two lists share no node. -/
theorem node_notMem (h : Lists s bins) (hj : j < 64) (hi : i < 64) (hji : j ≠ i)
    (ha : a ∈ (s.mal + 24 * j) :: bins j) : a ∉ (s.mal + 24 * i) :: bins i := by
  have hsize : State.malSize = 1552 := rfl
  intro ha'
  rcases List.mem_cons.mp ha with rfl | ha <;> rcases List.mem_cons.mp ha' with e | ha'
  · omega
  · have := (h.chunk i hi _ ha').above
    omega
  · have := (h.chunk j hj _ ha).above
    omega
  · exact hji (h.apart j hj i hi a ha ha')

/-- The lists read `mal` and the links of their members, and nothing else. -/
theorem congr (h : Lists s bins) (hmal : s'.mal = s.mal)
    (hm : ∀ w, InMal s.mal w → s'.mem w = s.mem w)
    (hl : ∀ i < 64, ∀ a ∈ bins i, s'.mem (a + 16) = s.mem (a + 16) ∧ s'.mem (a + 24) = s.mem (a + 24)) :
    Lists s' bins := by
  have hhead : ∀ i < 64, s'.head i = s.head i := by
    intro i hi
    rw [State.head, State.head, hmal, hm _ (inMal_head hi)]
  refine ⟨by rw [hmal]; exact h.mal_pos, by rw [hmal]; exact h.mal_fits, ?_, ?_, ?_, ?_, h.apart⟩
  · intro i hi hne
    rw [hhead i hi] at hne
    rw [hmal]
    refine (h.ring i hi hne).congr fun x hx => ?_
    rcases List.mem_cons.mp hx with rfl | hx
    · rw [State.next, State.next, State.prev, State.prev, hm _ (inMal_head hi),
        hm _ (inMal_tail hi)]
      exact ⟨rfl, rfl⟩
    · rw [State.next, State.next, State.prev, State.prev, (hl i hi x hx).1, (hl i hi x hx).2]
      exact ⟨rfl, rfl⟩
  · intro i hi h0
    exact h.unset i hi (by rw [← hhead i hi]; exact h0)
  · intro i hi
    rw [State.binmap, hmal, hm _ (inMal_binmap s.mal)]
    exact h.bit i hi
  · intro i hi a ha
    rw [hmal]
    exact h.chunk i hi a ha

/-- One list changes, and the nodes of the others keep their links. -/
theorem update (h : Lists s bins) (hi : i < 64) (hmal : s'.mal = s.mal) {xs : List Nat}
    (hring : Ring s'.next s'.prev (s.mal + 24 * i) xs) (hset : s'.head i ≠ 0)
    (hother : ∀ j < 64, j ≠ i → ∀ x ∈ (s.mal + 24 * j) :: bins j,
      s'.next x = s.next x ∧ s'.prev x = s.prev x)
    (hbit : s'.binmap.getLsbD i = true ↔ xs ≠ [])
    (hbits : ∀ j < 64, j ≠ i → s'.binmap.getLsbD j = s.binmap.getLsbD j)
    (hchunk : ∀ a ∈ xs, ChunkAddr s.mal a) (hapart : ∀ a ∈ xs, ∀ j < 64, a ∈ bins j → j = i) :
    Lists s' (Function.update bins i xs) := by
  have hhead : ∀ j < 64, j ≠ i → s'.head j = s.head j := by
    intro j hj hji
    rw [State.head_eq_next, State.head_eq_next, hmal, (hother j hj hji _ List.mem_cons_self).1]
  refine ⟨by rw [hmal]; exact h.mal_pos, by rw [hmal]; exact h.mal_fits, ?_, ?_, ?_, ?_, ?_⟩
  · -- The rings of the bins that are initialised.
    intro j hj hne
    rw [hmal]
    by_cases hji : j = i
    · subst hji
      rw [Function.update_self]
      exact hring
    · rw [Function.update_of_ne hji]
      rw [hhead j hj hji] at hne
      exact (h.ring j hj hne).congr (hother j hj hji)
  · -- A bin that is not initialised is another one, and was not before.
    intro j hj hz
    by_cases hji : j = i
    · subst hji
      exact absurd hz hset
    · rw [Function.update_of_ne hji]
      rw [hhead j hj hji] at hz
      exact h.unset j hj hz
  · intro j hj
    by_cases hji : j = i
    · subst hji
      rw [Function.update_self]
      exact hbit
    · rw [Function.update_of_ne hji, hbits j hj hji]
      exact h.bit j hj
  · intro j hj a ha
    rw [hmal]
    by_cases hji : j = i
    · subst hji
      rw [Function.update_self] at ha
      exact hchunk a ha
    · rw [Function.update_of_ne hji] at ha
      exact h.chunk j hj a ha
  · -- No chunk is on two lists: the new list has only chunks that are on no other.
    intro j hj k hk a ha ha'
    by_cases hji : j = i
    · subst hji
      rw [Function.update_self] at ha
      by_cases hkj : k = j
      · exact hkj.symm
      · rw [Function.update_of_ne hkj] at ha'
        exact (hapart a ha k hk ha').symm
    · rw [Function.update_of_ne hji] at ha
      by_cases hki : k = i
      · subst hki
        rw [Function.update_self] at ha'
        exact hapart a ha' j hj ha
      · rw [Function.update_of_ne hki] at ha'
        exact h.apart j hj k hk a ha ha'

end Lists

/-! ## `lock_bin`

The stub of the lock still has one effect: a bin whose `head` is zero becomes an empty ring. Nothing
outside `mal` changes, and the lists mean what they meant. -/

section LockBin

variable {s : State} {bins : Nat → List Nat} {i w : Nat}

@[simp] theorem lockBin_toVars : (lockBin i s).toVars = s.toVars := by
  unfold lockBin
  split <;> rfl

@[simp] theorem lockBin_stats : (lockBin i s).stats = s.stats := by
  unfold lockBin
  split <;> rfl

theorem lockBin_mem (hi : i < 64) (hw : ¬InMal s.mal w) : (lockBin i s).mem w = s.mem w := by
  unfold lockBin
  split
  · have h₁ : w ≠ s.mal + 24 * i + 16 := fun e => hw (e ▸ inMal_head hi)
    have h₂ : w ≠ s.mal + 24 * i + 24 := fun e => hw (e ▸ inMal_tail hi)
    simp [State.setHead, State.setTail, Function.update_of_ne, h₁, h₂]
  · rfl

/-- The links that `lock_bin` sets in a bin it sees for the first time. -/
theorem lockBin_links (h0 : s.head i = 0) (x : Nat) :
    (lockBin i s).next x = (if x + 16 = s.mal + 24 * i + 24 then (BitVec.ofNat 64 (s.mal + 24 * i)).toNat
      else if x + 16 = s.mal + 24 * i + 16 then (BitVec.ofNat 64 (s.mal + 24 * i)).toNat else s.next x) ∧
    (lockBin i s).prev x = (if x + 24 = s.mal + 24 * i + 24 then (BitVec.ofNat 64 (s.mal + 24 * i)).toNat
      else if x + 24 = s.mal + 24 * i + 16 then (BitVec.ofNat 64 (s.mal + 24 * i)).toNat else s.prev x) := by
  rw [lockBin, if_pos h0]
  simp only [State.setHead, State.setTail, State.binToChunk_eq, State.store_toVars, State.next_store,
    State.prev_store, and_self]

theorem Lists.lockBin (h : Lists s bins) (hi : i < 64) :
    Lists (lockBin i s) bins ∧ (lockBin i s).head i ≠ 0 := by
  have hpos := h.mal_pos
  have hfits := h.mal_fits
  simp only [State.malSize] at hfits
  by_cases h0 : s.head i = 0
  · -- A list that was never used is empty, and the two links of its sentinel close the ring.
    have hnil := h.unset i hi h0
    have hsent : (BitVec.ofNat 64 (s.mal + 24 * i)).toNat = s.mal + 24 * i :=
      Lib.toNat_ofNat_of_lt (by omega)
    have hmal : (Musl.lockBin i s).mal = s.mal := congrArg Vars.mal lockBin_toVars
    have hbinmap : (Musl.lockBin i s).binmap = s.binmap := by
      rw [Musl.lockBin, if_pos h0]
      simp only [State.setHead, State.setTail, State.binmap_store, State.store_toVars]
      rw [if_neg (by omega), if_neg (by omega)]
    have hset : (Musl.lockBin i s).head i ≠ 0 := by
      rw [State.head_eq_next, hmal, (lockBin_links h0 _).1, if_neg (by omega), if_pos rfl, hsent]
      omega
    have hlists : Lists (Musl.lockBin i s) (Function.update bins i []) := by
      apply h.update hi hmal
      · apply Ring.nil
        · rw [(lockBin_links h0 _).1, if_neg (by omega), if_pos rfl, hsent]
        · rw [(lockBin_links h0 _).2, if_pos rfl, hsent]
      · exact hset
      · -- The nodes of the other rings are neither of these two words.
        intro j hj hji x hx
        have hx' : x + 16 ≠ s.mal + 24 * i + 24 ∧ x + 24 ≠ s.mal + 24 * i + 16 ∧ x ≠ s.mal + 24 * i := by
          rcases List.mem_cons.mp hx with rfl | hx
          · omega
          · have := (h.chunk j hj x hx).above
            simp only [State.malSize] at this
            omega
        rw [(lockBin_links h0 x).1, (lockBin_links h0 x).2, if_neg hx'.1, if_neg (by omega),
          if_neg (by omega), if_neg hx'.2.1]
        exact ⟨rfl, rfl⟩
      · rw [hbinmap, h.bit i hi, hnil]
      · intro j _ _
        rw [hbinmap]
      · intro a ha
        cases ha
      · intro a ha
        cases ha
    rw [← hnil, Function.update_eq_self] at hlists
    exact ⟨hlists, hset⟩
  · rw [Musl.lockBin, if_neg h0]
    exact ⟨h, h0⟩

end LockBin

/-! ## `unbin`

The stores of `unbin` hit different words (`unbin_eq`). From there on only the resulting memory
matters: the links are those of the ring without `c`, and the bit of `binmap` is cleared just
when the neighbours of `c` were the same node, the sentinel. -/

section Unbin

variable {s : State} {bins : Nat → List Nat} {i c p n w : Nat} {xs ys : List Nat}

@[simp] theorem unbin_toVars : (unbin c i s).toVars = s.toVars := by
  unfold unbin
  split <;> rfl

/-- Setting the in-use bit leaves the size alone. -/
theorem or_cInuse_and_neg_two (v : Word) : (v ||| 1#64) &&& -2#64 = v &&& -2#64 := by
  ext k hk
  rw [show -2#64 = ~~~1#64 from rfl]
  simp only [BitVec.getElem_and, BitVec.getElem_or, BitVec.getElem_not]
  grind

/-- The memory `unbin` leaves: the bit of `binmap`, the links of the two neighbours in the list, and
the two copies of the chunk's own size word are written. -/
def unbinMem (s : State) (c i p n : Nat) : Nat → Word :=
  let m := if p = n then Function.update s.mem s.mal (s.binmap &&& ~~~(1#64 <<< i)) else s.mem
  let m := Function.update m (p + 16) (BitVec.ofNat 64 n)
  let m := Function.update m (n + 24) (BitVec.ofNat 64 p)
  let m := Function.update m (c + 8) (s.csize c ||| 1#64)
  Function.update m (c + (s.chunkSize c).toNat) (s.psize (c + (s.chunkSize c).toNat) ||| 1#64)

theorem unbin_eq (hc : ChunkAddr s.mal c) (hprev : s.prev c = p) (hnext : s.next c = n)
    (hp : Node s.mal p) (hn : Node s.mal n) (hpc : p ≠ c)
    (hsz : (s.chunkSize c).toNat % 32 = 0) :
    unbin c i s = { s.subFree (s.chunkSize c) with mem := unbinMem s c i p n } := by
  obtain ⟨hal, hab, -⟩ := hc
  simp only [State.malSize] at hab
  have hp16 : p + 16 ≠ c + 16 ∧ p + 16 ≠ c + 24 ∧ p + 16 ≠ c + 8 ∧ ∀ k, p + 16 ≠ c + 32 * k := by
    rcases hp with ⟨h₁, h₂, -⟩ | ⟨j, hj, rfl⟩ <;> refine ⟨?_, ?_, ?_, ?_⟩ <;> intros <;> omega
  have hn24 : n + 24 ≠ c + 16 ∧ n + 24 ≠ c + 8 ∧ ∀ k, n + 24 ≠ c + 32 * k := by
    rcases hn with ⟨h₁, h₂, -⟩ | ⟨j, hj, rfl⟩ <;> refine ⟨?_, ?_, ?_⟩ <;> intros <;> omega
  obtain ⟨k, hk⟩ : ∃ k, (s.chunkSize c).toNat = 32 * k := ⟨(s.chunkSize c).toNat / 32, by omega⟩
  have hp16k := hp16.2.2.2 k
  have hn24k := hn24.2.2 k
  -- Whatever the first statement did to `binmap`, the links and the header of `c` are unchanged.
  have key : ∀ m : Nat → Word, m (c + 8) = s.mem (c + 8) → m (c + 16) = s.mem (c + 16) →
      m (c + 24) = s.mem (c + 24) → m (c + 32 * k) = s.mem (c + 32 * k) →
      (let s₁ := { s with mem := m }
       let s₁ := s₁.setNext (s₁.prev c) (s₁.next c)
       let s₁ := s₁.setPrev (s₁.next c) (s₁.prev c)
       let s₁ := s₁.setCsize c (s₁.csize c ||| cInuse)
       let s₁ := s₁.setPsize (s₁.nextChunk c) (s₁.psize (s₁.nextChunk c) ||| cInuse)
       s₁.subFree (s₁.chunkSize c)) =
      { s.subFree (s.chunkSize c) with
        mem :=
          let m := Function.update m (p + 16) (BitVec.ofNat 64 n)
          let m := Function.update m (n + 24) (BitVec.ofNat 64 p)
          let m := Function.update m (c + 8) (s.csize c ||| 1#64)
          Function.update m (c + 32 * k) (s.psize (c + 32 * k) ||| 1#64) } := by
    intro m h8 h16 h24 hsz'
    set s₁ : State := { s with mem := m } with hs₁
    replace h8 : s₁.mem (c + 8) = s.mem (c + 8) := h8
    replace h16 : s₁.mem (c + 16) = s.mem (c + 16) := h16
    replace h24 : s₁.mem (c + 24) = s.mem (c + 24) := h24
    replace hsz' : s₁.mem (c + 32 * k) = s.mem (c + 32 * k) := hsz'
    have e₁ : s₁.prev c = p := by rw [State.prev, h24, ← hprev, State.prev]
    have e₂ : s₁.next c = n := by rw [State.next, h16, ← hnext, State.next]
    have e₃ : (s₁.setNext p n).prev c = p := by
      rw [State.setNext, State.prev_store, if_neg (by omega), e₁]
    have e₄ : (s₁.setNext p n).next c = n := by
      rw [State.setNext, State.next_store, if_neg (by omega), e₂]
    have e₅ : ((s₁.setNext p n).setPrev n p).csize c = s.csize c := by
      simp only [State.csize, State.setNext, State.setPrev, State.store_mem]
      rw [Function.update_of_ne (by omega), Function.update_of_ne (by omega), h8]
    simp only [e₁, e₂, e₃, e₄, e₅, cInuse]
    set s₂ := ((s₁.setNext p n).setPrev n p).setCsize c (s.csize c ||| 1#64) with hs₂
    have e₆ : s₂.chunkSize c = s.chunkSize c := by
      rw [State.chunkSize, State.csize, hs₂, State.setCsize, State.store_mem,
        Function.update_self, or_cInuse_and_neg_two, State.chunkSize]
    have e₇ : s₂.nextChunk c = c + 32 * k := by rw [State.nextChunk, e₆, hk]
    have e₈ : s₂.psize (c + 32 * k) = s.psize (c + 32 * k) := by
      simp only [hs₂, State.psize, State.setNext, State.setPrev, State.setCsize, State.store_mem]
      rw [Function.update_of_ne (by omega), Function.update_of_ne (by omega),
        Function.update_of_ne (by omega), hsz']
    have e₉ : (s₂.setPsize (c + 32 * k) (s.psize (c + 32 * k) ||| 1#64)).chunkSize c
        = s.chunkSize c := by
      rw [← e₆, State.chunkSize, State.chunkSize, State.csize, State.csize, State.setPsize,
        State.store_mem, Function.update_of_ne (by omega)]
    rw [e₇, e₈, e₉]
    rfl
  rw [unbin, unbinMem, hprev, hnext, hk]
  by_cases hpn : p = n
  · simp only [if_pos hpn]
    refine key (Function.update s.mem s.mal _) ?_ ?_ ?_ ?_ <;>
      · rw [Function.update_of_ne (by omega)]
  · simp only [if_neg hpn]
    exact key s.mem rfl rfl rfl rfl

/-- Outside those words memory is as before. -/
theorem unbinMem_of_ne (h₀ : w ≠ s.mal) (h₁ : w ≠ p + 16) (h₂ : w ≠ n + 24) (h₃ : w ≠ c + 8)
    (h₄ : w ≠ c + (s.chunkSize c).toNat) : unbinMem s c i p n w = s.mem w := by
  simp only [unbinMem]
  rw [Function.update_of_ne h₄, Function.update_of_ne h₃, Function.update_of_ne h₂,
    Function.update_of_ne h₁]
  split
  · rw [Function.update_of_ne h₀]
  · rfl

theorem Node.ne_zero {mal a : Nat} (hpos : 0 < mal) (h : Node mal a) : a ≠ 0 := by
  rcases h with h | ⟨j, -, rfl⟩
  · have := h.align
    omega
  · omega

theorem Node.lt {mal a : Nat} (hfits : mal + State.malSize ≤ 2 ^ 64) (h : Node mal a) : a < 2 ^ 64 := by
  simp only [State.malSize] at hfits
  rcases h with ⟨-, -, h⟩ | ⟨j, hj, rfl⟩ <;> omega

/-- The link words of a node are neither `binmap` nor a header, and its two links are apart from
those of every other node. -/
theorem Node.links_ne {mal a b c : Nat} (ha : Node mal a) (hb : Node mal b) (hc : ChunkAddr mal c) :
    a + 16 ≠ mal ∧ a + 24 ≠ mal ∧ a + 16 ≠ b + 24 ∧ a + 16 ≠ c + 8 ∧ a + 24 ≠ c + 8 ∧
      ∀ k, a + 16 ≠ c + 32 * k ∧ a + 24 ≠ c + 32 * k := by
  have hsize : State.malSize = 1552 := rfl
  obtain ⟨h₁, h₂, -⟩ := hc
  rcases ha with ⟨h₃, h₄, -⟩ | ⟨j, hj, rfl⟩ <;> rcases hb with ⟨h₅, h₆, -⟩ | ⟨l, hl, rfl⟩ <;>
    refine ⟨?_, ?_, ?_, ?_, ?_, fun k => ⟨?_, ?_⟩⟩ <;> omega

section Lists

variable (h : Lists s bins) (hi : i < 64) (hset : s.head i ≠ 0) (hb : bins i = xs ++ c :: ys)
include h hi hset hb

/-- The neighbours of a list member are nodes, and different from it. -/
theorem Lists.neighbours : s.prev c ∈ (s.mal + 24 * i) :: xs ∧ s.next c ∈ ys ++ [s.mal + 24 * i] ∧
    Node s.mal (s.prev c) ∧ Node s.mal (s.next c) ∧ s.prev c ≠ c ∧ s.next c ≠ c := by
  have hr := h.ring i hi hset
  rw [hb] at hr
  have hp := hr.pv_mem
  have hn := hr.nx_mem
  refine ⟨hp, hn, h.node hi ?_, h.node hi ?_, hr.pv_ne, hr.nx_ne⟩
  · rw [hb]
    grind
  · rw [hb]
    grind

variable (hsz : (s.chunkSize c).toNat % 32 = 0)
include hsz

theorem Lists.unbin_eq :
    unbin c i s = { s.subFree (s.chunkSize c) with mem := unbinMem s c i (s.prev c) (s.next c) } := by
  obtain ⟨-, -, hp, hn, hpc, -⟩ := h.neighbours hi hset hb
  have hc : ChunkAddr s.mal c := h.chunk i hi c (by simp [hb])
  exact Musl.unbin_eq hc rfl rfl hp hn hpc hsz

/-- The successors of the nodes after `unbin`. -/
theorem Lists.unbin_next {x : Nat} (hx : Node s.mal x) :
    (unbin c i s).next x = if x = s.prev c then s.next c else s.next x := by
  obtain ⟨-, -, hp, hn, -, -⟩ := h.neighbours hi hset hb
  have hc : ChunkAddr s.mal c := h.chunk i hi c (by simp [hb])
  obtain ⟨k, hk⟩ : ∃ k, (s.chunkSize c).toNat = 32 * k := ⟨(s.chunkSize c).toNat / 32, by omega⟩
  obtain ⟨h₁, -, h₂, h₃, -, h₄⟩ := hx.links_ne hn hc
  rw [h.unbin_eq hi hset hb hsz, State.next]
  split
  · next e =>
    subst e
    simp only [unbinMem, hk]
    rw [Function.update_of_ne (h₄ k).1, Function.update_of_ne h₃, Function.update_of_ne h₂,
      Function.update_self, BitVec.toNat_ofNat]
    exact Nat.mod_eq_of_lt (hn.lt h.mal_fits)
  · next e =>
    change (unbinMem s c i (s.prev c) (s.next c) (x + 16)).toNat = (s.mem (x + 16)).toNat
    congr 1
    exact unbinMem_of_ne h₁ (by omega) h₂ h₃ (by rw [hk]; exact (h₄ k).1)

/-- The predecessors of the nodes after `unbin`. -/
theorem Lists.unbin_prev {x : Nat} (hx : Node s.mal x) :
    (unbin c i s).prev x = if x = s.next c then s.prev c else s.prev x := by
  obtain ⟨-, -, hp, hn, -, -⟩ := h.neighbours hi hset hb
  have hc : ChunkAddr s.mal c := h.chunk i hi c (by simp [hb])
  obtain ⟨k, hk⟩ : ∃ k, (s.chunkSize c).toNat = 32 * k := ⟨(s.chunkSize c).toNat / 32, by omega⟩
  obtain ⟨-, h₁, -, -, h₃, h₄⟩ := hx.links_ne hn hc
  have h₂ := (hp.links_ne hx hc).2.2.1
  rw [h.unbin_eq hi hset hb hsz, State.prev]
  split
  · next e =>
    subst e
    simp only [unbinMem, hk]
    rw [Function.update_of_ne (h₄ k).2, Function.update_of_ne h₃, Function.update_self,
      BitVec.toNat_ofNat]
    exact Nat.mod_eq_of_lt (hp.lt h.mal_fits)
  · next e =>
    change (unbinMem s c i (s.prev c) (s.next c) (x + 24)).toNat = (s.mem (x + 24)).toNat
    congr 1
    exact unbinMem_of_ne h₁ (by omega) (by omega) h₃ (by rw [hk]; exact (h₄ k).2)

theorem Lists.unbin_binmap : (unbin c i s).binmap =
    if s.prev c = s.next c then s.binmap &&& ~~~(1#64 <<< i) else s.binmap := by
  obtain ⟨-, -, hp, hn, -, -⟩ := h.neighbours hi hset hb
  have hc : ChunkAddr s.mal c := h.chunk i hi c (by simp [hb])
  have h₁ := (hp.links_ne hn hc).1.symm
  have h₂ := (hn.links_ne hp hc).2.1.symm
  obtain ⟨-, hab, -⟩ := hc
  simp only [State.malSize] at hab
  rw [h.unbin_eq hi hset hb hsz, State.binmap]
  simp only [unbinMem, State.subFree_toVars]
  rw [Function.update_of_ne (by omega), Function.update_of_ne (by omega), Function.update_of_ne h₂,
    Function.update_of_ne h₁]
  split
  · rw [Function.update_self]
  · rfl

/-- **`unbin` takes the chunk off its list.** -/
theorem Lists.unbin : Lists (unbin c i s) (Function.update bins i (xs ++ ys)) := by
  obtain ⟨hp, hn, hpn, hnn, hpc, hnc⟩ := h.neighbours hi hset hb
  have hr := h.ring i hi hset
  rw [hb] at hr
  have hmal : (Musl.unbin c i s).mal = s.mal := congrArg Vars.mal unbin_toVars
  have hhead : ∀ j < 64, (Musl.unbin c i s).head j =
      if s.mal + 24 * j = s.prev c then s.next c else s.head j := by
    intro j hj
    rw [State.head_eq_next, hmal, h.unbin_next hi hset hb hsz (Or.inr ⟨j, hj, rfl⟩)]
    rfl
  -- No node of another list is a neighbour of `c`.
  have hother : ∀ j < 64, j ≠ i → ∀ x ∈ (s.mal + 24 * j) :: bins j, x ≠ s.prev c ∧ x ≠ s.next c := by
    intro j hj hji x hx
    have hx' : x ∉ (s.mal + 24 * i) :: bins i := h.node_notMem hj hi hji hx
    have hpi : s.prev c ∈ (s.mal + 24 * i) :: bins i := by rw [hb]; grind
    have hni : s.next c ∈ (s.mal + 24 * i) :: bins i := by rw [hb]; grind
    exact ⟨fun e => hx' (e ▸ hpi), fun e => hx' (e ▸ hni)⟩
  have hclear : ∀ j < 64, (s.binmap &&& ~~~(1#64 <<< i)).getLsbD j = (s.binmap.getLsbD j && decide (j ≠ i)) := by
    intro j hj
    rw [BitVec.getLsbD_and, BitVec.getLsbD_not, getLsbD_one_shiftLeft]
    simp [hj]
  have hmem : ∀ a ∈ xs ++ ys, a ∈ bins i := by
    intro a ha
    rw [hb]
    grind
  apply h.update hi hmal
  · refine hr.remove ?_ ?_ ?_ ?_
    · intro x hx hxp
      rw [h.unbin_next hi hset hb hsz (h.node hi (by rw [hb]; grind)), if_neg hxp]
    · intro x hx hxn
      rw [h.unbin_prev hi hset hb hsz (h.node hi (by rw [hb]; grind)), if_neg hxn]
    · rw [h.unbin_next hi hset hb hsz hpn, if_pos rfl]
    · rw [h.unbin_prev hi hset hb hsz hnn, if_pos rfl]
  · -- An initialised bin stays initialised.
    rw [hhead i hi]
    split
    · exact Node.ne_zero h.mal_pos hnn
    · exact hset
  · intro j hj hji x hx
    obtain ⟨hxp, hxn⟩ := hother j hj hji x hx
    rw [h.unbin_next hi hset hb hsz (h.node hj hx), h.unbin_prev hi hset hb hsz (h.node hj hx),
      if_neg hxp, if_neg hxn]
    exact ⟨rfl, rfl⟩
  · rw [h.unbin_binmap hi hset hb hsz]
    have hbit : s.binmap.getLsbD i = true := (h.bit i hi).mpr (by simp [hb])
    split
    · next e =>
      obtain ⟨rfl, rfl⟩ := hr.pv_eq_nx_iff.mp e
      rw [hclear i hi]
      simp
    · next e =>
      have hne : xs ++ ys ≠ [] := by
        intro e'
        exact e (hr.pv_eq_nx_iff.mpr (List.append_eq_nil_iff.mp e'))
      exact iff_of_true hbit hne
  · intro j hj hji
    rw [h.unbin_binmap hi hset hb hsz]
    split
    · rw [hclear j hj, decide_eq_true hji, Bool.and_true]
    · rfl
  · intro a ha
    exact h.chunk i hi a (hmem a ha)
  · intro a ha j hj ha'
    exact h.apart j hj i hi a ha' (hmem a ha)

end Lists

end Unbin

/-! ## `bin_chunk`

The same for the insertion at the tail: four links, and the bit of `binmap` if the list was empty.
-/

section BinChunk

variable {s : State} {bins : Nat → List Nat} {i c t w : Nat}

@[simp] theorem binChunk_toVars : (binChunk c i s).toVars = s.toVars := by
  unfold binChunk
  simp only []
  split <;> rfl

/-- The links `bin_chunk` writes when the tail of bin `i` was `t`: those of the chunk and those of its
two new neighbours. -/
def linkMem (s : State) (c i t : Nat) : Nat → Word :=
  let m := Function.update s.mem (c + 16) (BitVec.ofNat 64 (s.mal + 24 * i))
  let m := Function.update m (c + 24) (BitVec.ofNat 64 t)
  let m := Function.update m (s.mal + 24 * i + 24) (BitVec.ofNat 64 c)
  Function.update m (t + 16) (BitVec.ofNat 64 c)

/-- The memory `bin_chunk` leaves: the links and the bit of `binmap`. -/
def binChunkMem (s : State) (c i t : Nat) : Nat → Word :=
  if t = s.mal + 24 * i then
    Function.update (linkMem s c i t) s.mal (s.binmap ||| 1#64 <<< i)
  else linkMem s c i t

theorem binChunk_eq (hfits : s.mal + State.malSize ≤ 2 ^ 64) (hi : i < 64) (hc : ChunkAddr s.mal c)
    (htail : s.tail i = t) (ht : Node s.mal t) :
    binChunk c i s = { s.addFree (s.chunkSize c) with mem := binChunkMem s c i t } := by
  have hsize : State.malSize = 1552 := rfl
  obtain ⟨-, ht24, ht16, ht8, -, -⟩ := ht.links_ne (Or.inl hc) hc
  have htmal := (ht.links_ne ht hc).1
  obtain ⟨hal, hab, hfit⟩ := hc
  have hsent : (BitVec.ofNat 64 (s.mal + 24 * i)).toNat = s.mal + 24 * i :=
    Lib.toNat_ofNat_of_lt (by omega)
  have htlt : (BitVec.ofNat 64 t).toNat = t :=
    Lib.toNat_ofNat_of_lt (ht.lt hfits)
  set s₁ := s.setNext c (s.mal + 24 * i) with hs₁
  have e₁ : s₁.tail i = t := by
    rw [hs₁, State.setNext, State.tail_eq_prev, State.store_toVars, State.prev_store,
      if_neg (by omega), ← State.tail_eq_prev, htail]
  set s₂ := s₁.setPrev c t with hs₂
  have e₂ : s₂.next c = s.mal + 24 * i := by
    rw [hs₂, hs₁, State.setPrev, State.setNext, State.next_store, if_neg (by omega),
      State.next_store, if_pos rfl, hsent]
  set s₃ := s₂.setPrev (s.mal + 24 * i) c with hs₃
  have e₃ : s₃.prev c = t := by
    rw [hs₃, hs₂, State.setPrev, State.setPrev, State.prev_store, if_neg (by omega),
      State.prev_store, if_pos rfl, htlt]
  set s₄ := s₃.setNext t c with hs₄
  have e₄ : s₄.prev c = t := by
    rw [hs₄, State.setNext, State.prev_store, if_neg (by omega), e₃]
  have e₅ : s₄.binmap = s.binmap := by
    simp only [hs₄, hs₃, hs₂, hs₁, State.setNext, State.setPrev, State.binmap_store,
      State.store_toVars]
    rw [if_neg (by omega), if_neg (by omega), if_neg (by omega), if_neg (by omega)]
  have e₆ : s₄.mem (c + 8) = s.mem (c + 8) := by
    simp only [hs₄, hs₃, hs₂, hs₁, State.setNext, State.setPrev, State.store_mem]
    rw [Function.update_of_ne (by omega), Function.update_of_ne (by omega),
      Function.update_of_ne (by omega), Function.update_of_ne (by omega)]
  -- The header of the chunk is not touched.
  have e₇ : (s₄.setBinmap (s.binmap ||| 1#64 <<< i)).chunkSize c = s.chunkSize c := by
    refine State.chunkSize_congr ?_
    have hne : c + 8 ≠ s₄.mal := by
      change c + 8 ≠ s.mal
      omega
    rw [State.setBinmap, State.store_mem, Function.update_of_ne hne, e₆]
  simp only [binChunk, State.binToChunk_eq]
  rw [← hs₁, e₁, ← hs₂, e₂, show s₂.setPrev (s.mal + 24 * i) c = s₃ from rfl, e₃,
    show s₃.setNext t c = s₄ from rfl, e₄, e₅]
  by_cases htsent : t = s.mal + 24 * i
  · rw [if_pos (show t = s₄.mal + 24 * i from htsent), e₇, binChunkMem, if_pos htsent]
    rfl
  · rw [if_neg (show t ≠ s₄.mal + 24 * i from htsent), State.chunkSize_congr e₆, binChunkMem,
      if_neg htsent]
    rfl

theorem binChunkMem_of_ne_mal (h₀ : w ≠ s.mal) : binChunkMem s c i t w = linkMem s c i t w := by
  rw [binChunkMem]
  split
  · rw [Function.update_of_ne h₀]
  · rfl

/-- Outside those words memory is as before. -/
theorem binChunkMem_of_ne (h₀ : w ≠ s.mal) (h₁ : w ≠ c + 16) (h₂ : w ≠ c + 24)
    (h₃ : w ≠ s.mal + 24 * i + 24) (h₄ : w ≠ t + 16) : binChunkMem s c i t w = s.mem w := by
  rw [binChunkMem_of_ne_mal h₀, linkMem, Function.update_of_ne h₄, Function.update_of_ne h₃,
    Function.update_of_ne h₂, Function.update_of_ne h₁]

section Lists

variable (h : Lists s bins) (hi : i < 64) (hset : s.head i ≠ 0) (hc : ChunkAddr s.mal c)
  (hfresh : ∀ j < 64, c ∉ bins j)
include h hi hset hc hfresh

theorem Lists.tail_spec : s.tail i ∈ (s.mal + 24 * i) :: bins i ∧ Node s.mal (s.tail i) ∧ s.tail i ≠ c := by
  have hsize : State.malSize = 1552 := rfl
  have hmem : s.tail i ∈ (s.mal + 24 * i) :: bins i := (h.ring i hi hset).path.pv_mem
  refine ⟨hmem, h.node hi hmem, ?_⟩
  rintro e
  rcases List.mem_cons.mp hmem with e' | hm
  · have := hc.above
    omega
  · exact hfresh i hi (e ▸ hm)

theorem Lists.binChunk_eq :
    binChunk c i s = { s.addFree (s.chunkSize c) with mem := binChunkMem s c i (s.tail i) } := by
  obtain ⟨-, ht, -⟩ := h.tail_spec hi hset hc hfresh
  exact Musl.binChunk_eq h.mal_fits hi hc rfl ht

/-- The successors of the nodes after `bin_chunk`. -/
theorem Lists.binChunk_next {x : Nat} (hx : Node s.mal x) : (binChunk c i s).next x =
    if x = s.tail i then c else if x = c then s.mal + 24 * i else s.next x := by
  have hsize : State.malSize = 1552 := rfl
  have hfits := h.mal_fits
  have hclt := hc.fits
  obtain ⟨h₀, -, h₂, -, -, -⟩ := hx.links_ne (Or.inl hc) hc
  have h₃ := (hx.links_ne (Or.inr ⟨i, hi, rfl⟩) hc).2.2.1
  rw [h.binChunk_eq hi hset hc hfresh]
  change (binChunkMem s c i (s.tail i) (x + 16)).toNat = _
  rw [binChunkMem_of_ne_mal h₀, linkMem]
  by_cases e : x = s.tail i
  · rw [if_pos e, ← e, Function.update_self, BitVec.toNat_ofNat]
    exact Nat.mod_eq_of_lt (by omega)
  rw [if_neg e, Function.update_of_ne (by omega), Function.update_of_ne h₃,
    Function.update_of_ne h₂]
  by_cases e' : x = c
  · rw [if_pos e', e', Function.update_self, BitVec.toNat_ofNat]
    exact Nat.mod_eq_of_lt (by omega)
  · rw [if_neg e', Function.update_of_ne (by omega)]
    rfl

/-- The predecessors of the nodes after `bin_chunk`. -/
theorem Lists.binChunk_prev {x : Nat} (hx : Node s.mal x) : (binChunk c i s).prev x =
    if x = s.mal + 24 * i then c else if x = c then s.tail i else s.prev x := by
  have hclt := hc.fits
  obtain ⟨-, ht, htc⟩ := h.tail_spec hi hset hc hfresh
  have h₀ := (hx.links_ne hx hc).2.1
  have h₁ := (ht.links_ne hx hc).2.2.1
  have h₂ := (Node.links_ne (Or.inl hc) hx hc).2.2.1
  rw [h.binChunk_eq hi hset hc hfresh]
  change (binChunkMem s c i (s.tail i) (x + 24)).toNat = _
  rw [binChunkMem_of_ne_mal h₀, linkMem, Function.update_of_ne (by omega)]
  by_cases e : x = s.mal + 24 * i
  · rw [if_pos e, e, Function.update_self, BitVec.toNat_ofNat]
    exact Nat.mod_eq_of_lt (by omega)
  rw [if_neg e, Function.update_of_ne (by omega)]
  by_cases e' : x = c
  · rw [if_pos e', e', Function.update_self, BitVec.toNat_ofNat]
    exact Nat.mod_eq_of_lt (ht.lt h.mal_fits)
  · rw [if_neg e', Function.update_of_ne (by omega), Function.update_of_ne (by omega)]
    rfl

theorem Lists.binChunk_binmap : (binChunk c i s).binmap =
    if s.tail i = s.mal + 24 * i then s.binmap ||| 1#64 <<< i else s.binmap := by
  have hsize : State.malSize = 1552 := rfl
  obtain ⟨-, ht, -⟩ := h.tail_spec hi hset hc hfresh
  have h₁ := (ht.links_ne ht hc).1
  have hab := hc.above
  rw [h.binChunk_eq hi hset hc hfresh, State.binmap]
  simp only [State.addFree_toVars, binChunkMem]
  split
  · rw [Function.update_self]
  · rw [linkMem, Function.update_of_ne (by omega), Function.update_of_ne (by omega),
      Function.update_of_ne (by omega), Function.update_of_ne (by omega)]
    rfl

/-- **`bin_chunk` puts the chunk at the tail of its list.** -/
theorem Lists.binChunk : Lists (binChunk c i s) (Function.update bins i (bins i ++ [c])) := by
  have hsize : State.malSize = 1552 := rfl
  obtain ⟨htm, ht, htc⟩ := h.tail_spec hi hset hc hfresh
  have hr := h.ring i hi hset
  have hmal : (Musl.binChunk c i s).mal = s.mal := congrArg Vars.mal binChunk_toVars
  have hab := hc.above
  have hcsent : ∀ j < 64, s.mal + 24 * j ≠ c := by
    intro j hj
    omega
  have hcmem : ∀ j < 64, c ∉ (s.mal + 24 * j) :: bins j := by
    intro j hj hm
    rcases List.mem_cons.mp hm with e | hm
    · exact hcsent j hj e.symm
    · exact hfresh j hj hm
  have hhead : ∀ j < 64, (Musl.binChunk c i s).head j =
      if s.mal + 24 * j = s.tail i then c else s.head j := by
    intro j hj
    rw [State.head_eq_next, hmal, h.binChunk_next hi hset hc hfresh (Or.inr ⟨j, hj, rfl⟩),
      if_neg (hcsent j hj)]
    rfl
  -- The nodes of another list are neither the chunk nor its neighbours.
  have hother : ∀ j < 64, j ≠ i → ∀ x ∈ (s.mal + 24 * j) :: bins j,
      x ≠ s.tail i ∧ x ≠ c ∧ x ≠ s.mal + 24 * i := by
    intro j hj hji x hx
    have hx' := h.node_notMem hj hi hji hx
    refine ⟨fun e => hx' (e ▸ htm), fun e => hcmem j hj (e ▸ hx), fun e => hx' (by simp [e])⟩
  have hor : ∀ j < 64, (s.binmap ||| 1#64 <<< i).getLsbD j = (s.binmap.getLsbD j || decide (j = i)) := by
    intro j hj
    rw [BitVec.getLsbD_or, getLsbD_one_shiftLeft]
    simp [hj]
  apply h.update hi hmal
  · have hxc : ∀ x ∈ (s.mal + 24 * i) :: bins i, x ≠ c := fun x hx e => hcmem i hi (e ▸ hx)
    refine hr.append (hcmem i hi) ?_ ?_ ?_ ?_ ?_ ?_
    · intro x hx hxt
      have hxt' : x ≠ s.tail i := hxt
      rw [h.binChunk_next hi hset hc hfresh (h.node hi hx), if_neg hxt', if_neg (hxc x hx)]
    · intro x hx
      have hxs : x ≠ s.mal + 24 * i := fun e => (List.nodup_cons.mp hr.nodup).1 (e ▸ hx)
      rw [h.binChunk_prev hi hset hc hfresh (h.node hi (by simp [hx])), if_neg hxs,
        if_neg (hxc x (by simp [hx]))]
    · exact (h.binChunk_next hi hset hc hfresh ht).trans (if_pos rfl)
    · rw [h.binChunk_prev hi hset hc hfresh (Or.inl hc), if_neg (hcsent i hi).symm, if_pos rfl]
      rfl
    · rw [h.binChunk_next hi hset hc hfresh (Or.inl hc), if_neg htc.symm, if_pos rfl]
    · rw [h.binChunk_prev hi hset hc hfresh (Or.inr ⟨i, hi, rfl⟩), if_pos rfl]
  · rw [hhead i hi]
    split
    · have := hc.align
      omega
    · exact hset
  · intro j hj hji x hx
    obtain ⟨hxt, hxc, hxs⟩ := hother j hj hji x hx
    rw [h.binChunk_next hi hset hc hfresh (h.node hj hx),
      h.binChunk_prev hi hset hc hfresh (h.node hj hx), if_neg hxt, if_neg hxc, if_neg hxs,
      if_neg hxc]
    exact ⟨rfl, rfl⟩
  · have hne : bins i ++ [c] ≠ [] := List.append_ne_nil_of_right_ne_nil _ (List.cons_ne_nil _ _)
    rw [h.binChunk_binmap hi hset hc hfresh]
    split
    · rw [hor i hi, decide_eq_true rfl, Bool.or_true]
      exact iff_of_true rfl hne
    · next e =>
      have hne' : bins i ≠ [] := fun e' => e (hr.pv_eq_sentinel_iff.mpr e')
      exact iff_of_true ((h.bit i hi).mpr hne') hne
  · intro j hj hji
    rw [h.binChunk_binmap hi hset hc hfresh]
    split
    · rw [hor j hj, decide_eq_false hji, Bool.or_false]
    · rfl
  · intro a ha
    rcases List.mem_append.mp ha with ha | ha
    · exact h.chunk i hi a ha
    · rw [List.mem_singleton.mp ha]
      exact hc
  · intro a ha j hj ha'
    rcases List.mem_append.mp ha with ha | ha
    · exact h.apart j hj i hi a ha' ha
    · rw [List.mem_singleton.mp ha] at ha'
      exact absurd ha' (hfresh j hj)

end Lists

end BinChunk

end MmExper.Musl
