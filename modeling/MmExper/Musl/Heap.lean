import MmExper.Musl.Bins
import MmExper.Lib.Tiling

/-!
# The heap without its memory

What the allocator is for, apart from where its words are: an interval cut into chunks, each free or
in use, and 64 lists on which exactly the free ones stand, by size class. A `Heap` carries these
facts as fields, so the three ways the allocator changes it (`take` a free chunk into use, `put` one
free chunk in the place of used ones, `extend` the interval) are the only obligations.
-/

namespace MmExper.Musl

open Lib

structure Chunk where
  addr : Nat
  size : Nat
  free : Bool
  deriving DecidableEq

namespace Chunk

def tag (c : Chunk) : Word :=
  if c.free then BitVec.ofNat 64 c.size else BitVec.ofNat 64 c.size ||| 1#64

def bin (c : Chunk) : Nat := binIndex (BitVec.ofNat 64 c.size)

def used (c : Chunk) : Chunk := { c with free := false }

@[simp] theorem used_addr (c : Chunk) : c.used.addr = c.addr := rfl
@[simp] theorem used_size (c : Chunk) : c.used.size = c.size := rfl
@[simp] theorem used_free (c : Chunk) : c.used.free = false := rfl

end Chunk

/-- A tiled interval of chunks and its free lists. -/
structure Heap where
  /-- The first chunk. -/
  lo : Nat
  /-- The sentinel behind the last chunk. -/
  hi : Nat
  chunks : List Chunk
  /-- The members of each free list, from head to tail. -/
  bins : Nat → List Nat
  tiled : Tiled Chunk.addr Chunk.size lo hi chunks
  align : lo % 32 = 16
  granular : ∀ c ∈ chunks, c.size % 32 = 0
  bound : hi + 16 ≤ 2 ^ 63
  mem_bins : ∀ i a, a ∈ bins i ↔ ∃ c ∈ chunks, c.addr = a ∧ c.free = true ∧ c.bin = i
  nodup : ∀ i, (bins i).Nodup

namespace Heap

variable {H : Heap} {l r old new : List Chunk} {c d f : Chunk} {xs ys : List Nat}

theorem toNat_size (H : Heap) (hc : c ∈ H.chunks) : (BitVec.ofNat 64 c.size).toNat = c.size := by
  have := H.tiled.bounds hc
  have := H.bound
  rw [BitVec.toNat_ofNat]
  exact Nat.mod_eq_of_lt (by omega)

theorem size_ge (H : Heap) (hc : c ∈ H.chunks) : 32 ≤ c.size := by
  have := (H.tiled.bounds hc).2.1
  have := H.granular c hc
  omega

theorem bin_lt (H : Heap) (hc : c ∈ H.chunks) : c.bin < 64 :=
  binIndex_lt (by rw [H.toNat_size hc]; exact H.size_ge hc)

/-- Every chunk address is 16 past a multiple of 32. -/
theorem addr_align (H : Heap) (hc : c ∈ H.chunks) : c.addr % 32 = 16 := by
  have key : ∀ (cs : List Chunk) (lo hi : Nat), Tiled Chunk.addr Chunk.size lo hi cs →
      lo % 32 = 16 → (∀ d ∈ cs, d.size % 32 = 0) → ∀ d ∈ cs, d.addr % 32 = 16 := by
    intro cs
    induction cs with
    | nil => simp
    | cons e cs ih =>
        rintro lo hi ⟨h₁, -, h₃⟩ hal hg d hd
        rcases List.mem_cons.mp hd with rfl | hd
        · omega
        · have := hg e (by simp)
          exact ih _ hi h₃ (by omega) (fun x hx => hg x (by simp [hx])) d hd
  exact key _ _ _ H.tiled H.align H.granular c hc

/-- The sentinel too. -/
theorem hi_align (H : Heap) : H.hi % 32 = 16 := by
  rcases List.eq_nil_or_concat H.chunks with h | ⟨l, c, h⟩
  · have := H.tiled
    rw [h] at this
    rw [← show H.lo = H.hi from this]
    exact H.align
  · have hc : c ∈ H.chunks := by simp [h]
    have ht := H.tiled
    rw [h, List.concat_eq_append] at ht
    have := (tiled_split.mp ht).2.2
    rw [← show c.addr + c.size = H.hi from this]
    have := H.addr_align hc
    have := H.granular c hc
    omega

/-- A list member is the free chunk of its class at that address. -/
theorem mem_bins_addr (H : Heap) (hc : c ∈ H.chunks) (i : Nat) :
    c.addr ∈ H.bins i ↔ c.free = true ∧ c.bin = i := by
  rw [H.mem_bins]
  constructor
  · rintro ⟨d, hd, he, hf, hb⟩
    rw [← H.tiled.start_inj hd hc he]
    exact ⟨hf, hb⟩
  · rintro ⟨hf, hb⟩
    exact ⟨c, hc, rfl, hf, hb⟩

/-- Taking a free chunk into use. -/
def take (H : Heap) (c : Chunk) (l r : List Chunk) (xs ys : List Nat) (hch : H.chunks = l ++ c :: r)
    (hb : H.bins c.bin = xs ++ c.addr :: ys) : Heap where
  lo := H.lo
  hi := H.hi
  chunks := l ++ c.used :: r
  bins := Function.update H.bins c.bin (xs ++ ys)
  tiled := by
    have ht := H.tiled
    rw [hch, tiled_split] at ht
    exact tiled_split.mpr ht
  align := H.align
  granular := by
    have hg := H.granular
    rw [hch] at hg
    intro d hd
    rcases List.mem_append.mp hd with hd | hd
    · exact hg d (by simp [hd])
    · rcases List.mem_cons.mp hd with rfl | hd
      · exact hg c (by simp)
      · exact hg d (by simp [hd])
  bound := H.bound
  mem_bins := by
    intro i a
    have hmem := H.mem_bins i a
    have hnd := H.nodup c.bin
    have hc : c ∈ H.chunks := by simp [hch]
    -- No other chunk starts where `c` does.
    have hinj : ∀ d ∈ l ++ r, d.addr ≠ c.addr := by
      intro d hd e
      have hd' : d ∈ H.chunks := by rw [hch]; grind
      have hcd := H.tiled.start_inj hd' hc e
      have := H.tiled.nodup
      rw [hch] at this
      grind
    by_cases hi : i = c.bin
    · subst hi
      rw [Function.update_self]
      rw [hb] at hmem hnd
      have : a ∈ xs ++ ys ↔ a ∈ xs ++ c.addr :: ys ∧ a ≠ c.addr := by grind
      rw [this, hmem, hch]
      constructor
      · rintro ⟨⟨d, hd, hda, hdf, hdb⟩, hne⟩
        refine ⟨d, ?_, hda, hdf, hdb⟩
        grind
      · rintro ⟨d, hd, hda, hdf, hdb⟩
        have hd' : d ∈ l ++ r := by
          rcases List.mem_append.mp hd with hd | hd
          · simp [hd]
          · rcases List.mem_cons.mp hd with rfl | hd
            · simp at hdf
            · simp [hd]
        exact ⟨⟨d, by grind, hda, hdf, hdb⟩, hda ▸ hinj d hd'⟩
    · rw [Function.update_of_ne hi, hmem, hch]
      constructor
      · rintro ⟨d, hd, hda, hdf, hdb⟩
        have hdc : d ≠ c := fun e => hi (e ▸ hdb.symm)
        exact ⟨d, by grind, hda, hdf, hdb⟩
      · rintro ⟨d, hd, hda, hdf, hdb⟩
        have hdc : d ≠ c.used := by
          rintro rfl
          simp at hdf
        exact ⟨d, by grind, hda, hdf, hdb⟩
  nodup := by
    intro i
    by_cases hi : i = c.bin
    · subst hi
      have := H.nodup c.bin
      rw [hb] at this
      rw [Function.update_self]
      grind
    · rw [Function.update_of_ne hi]
      exact H.nodup i

/-- The pieces `old`, all in use, can give way to the pieces `new`, still in use, and the free chunk
`f` behind them. -/
structure Puts (H : Heap) (l old new r : List Chunk) (f : Chunk) : Prop where
  chunks : H.chunks = l ++ (old ++ r)
  old_used : ∀ d ∈ old, d.free = false
  new_used : ∀ d ∈ new, d.free = false
  free : f.free = true
  seg : ∀ a b, Tiled Chunk.addr Chunk.size a b old → Tiled Chunk.addr Chunk.size a b (new ++ [f])
  granular : ∀ d ∈ new ++ [f], d.size % 32 = 0

namespace Puts

variable (p : Puts H l old new r f)
include p

/-- The segment that changes, between what is before and what is after. -/
theorem segment : ∃ a b, Tiled Chunk.addr Chunk.size H.lo a l ∧
    Tiled Chunk.addr Chunk.size a b (new ++ [f]) ∧ Tiled Chunk.addr Chunk.size b H.hi r := by
  have ht := H.tiled
  rw [p.chunks] at ht
  obtain ⟨a, h₁, h₂⟩ := tiled_append.mp ht
  obtain ⟨b, h₃, h₄⟩ := tiled_append.mp h₂
  exact ⟨a, b, h₁, p.seg a b h₃, h₄⟩

theorem tiled : Tiled Chunk.addr Chunk.size H.lo H.hi (l ++ (new ++ f :: r)) := by
  obtain ⟨a, b, h₁, h₂, h₃⟩ := p.segment
  refine tiled_append.mpr ⟨a, h₁, ?_⟩
  rw [show new ++ f :: r = (new ++ [f]) ++ r by simp]
  exact tiled_append.mpr ⟨b, h₂, h₃⟩

/-- The new free chunk is on no list yet: a free chunk of the old heap at its address would overlap
the used pieces. -/
theorem fresh (i : Nat) : f.addr ∉ H.bins i := by
  intro ha
  obtain ⟨d, hd, hda, hdf, -⟩ := (H.mem_bins _ _).mp ha
  obtain ⟨a, b, h₁, h₂, h₃⟩ := p.segment
  have hfb := h₂.bounds (c := f) (by simp)
  rw [p.chunks] at hd
  rcases List.mem_append.mp hd with hd | hd
  · have := h₁.bounds hd
    omega
  rcases List.mem_append.mp hd with hd | hd
  · simp [p.old_used d hd] at hdf
  · have := h₃.bounds hd
    omega

end Puts

/-- Putting a free chunk in the place of used ones; it goes to the tail of its list. -/
def put (H : Heap) {l old new r : List Chunk} {f : Chunk} (p : Puts H l old new r f) : Heap where
  lo := H.lo
  hi := H.hi
  chunks := l ++ (new ++ f :: r)
  bins := Function.update H.bins f.bin (H.bins f.bin ++ [f.addr])
  tiled := p.tiled
  align := H.align
  granular := by
    have hg := H.granular
    have hgr := p.granular
    rw [p.chunks] at hg
    intro d hd
    simp only [List.mem_append, List.mem_cons] at hd hg hgr
    grind
  bound := H.bound
  mem_bins := by
    intro i a
    have hmem := H.mem_bins i a
    have hsame : a ∈ H.bins i ↔ ∃ d ∈ l ++ r, d.addr = a ∧ d.free = true ∧ d.bin = i := by
      rw [hmem, p.chunks]
      constructor
      · rintro ⟨d, hd, hda, hdf, hdb⟩
        have : d ∉ old := fun hm => by simp [p.old_used d hm] at hdf
        exact ⟨d, by grind, hda, hdf, hdb⟩
      · rintro ⟨d, hd, hrest⟩
        exact ⟨d, by grind, hrest⟩
    have hall : (∃ d ∈ l ++ (new ++ f :: r), d.addr = a ∧ d.free = true ∧ d.bin = i) ↔
        (∃ d ∈ l ++ r, d.addr = a ∧ d.free = true ∧ d.bin = i) ∨ f.addr = a ∧ f.bin = i := by
      constructor
      · rintro ⟨d, hd, hda, hdf, hdb⟩
        have : d ∉ new := fun hm => by simp [p.new_used d hm] at hdf
        by_cases e : d = f
        · subst e
          exact Or.inr ⟨hda, hdb⟩
        · exact Or.inl ⟨d, by grind, hda, hdf, hdb⟩
      · rintro (⟨d, hd, hrest⟩ | ⟨hfa, hfb⟩)
        · exact ⟨d, by grind, hrest⟩
        · exact ⟨f, by grind, hfa, p.free, hfb⟩
    rw [hall, ← hsame]
    by_cases hi : i = f.bin
    · subst hi
      rw [Function.update_self]
      grind
    · rw [Function.update_of_ne hi]
      grind
  nodup := by
    intro i
    by_cases hi : i = f.bin
    · subst hi
      rw [Function.update_self, List.nodup_append]
      refine ⟨H.nodup _, by simp, ?_⟩
      intro a ha b hb
      rw [List.mem_singleton] at hb
      subst hb
      rintro rfl
      exact p.fresh _ ha
    · rw [Function.update_of_ne hi]
      exact H.nodup i

def extend (H : Heap) (c : Chunk) (haddr : c.addr = H.hi) (hfree : c.free = false) (hpos : 0 < c.size)
    (hgr : c.size % 32 = 0) (hbound : H.hi + c.size + 16 ≤ 2 ^ 63) : Heap where
  lo := H.lo
  hi := H.hi + c.size
  chunks := H.chunks ++ [c]
  bins := H.bins
  tiled := tiled_append.mpr ⟨H.hi, H.tiled, haddr, hpos, rfl⟩
  align := H.align
  granular := by
    intro d hd
    rcases List.mem_append.mp hd with hd | hd
    · exact H.granular d hd
    · rw [List.mem_singleton.mp hd]
      exact hgr
  bound := hbound
  mem_bins := by
    intro i a
    rw [H.mem_bins i a]
    constructor
    · rintro ⟨d, hd, hrest⟩
      exact ⟨d, by simp [hd], hrest⟩
    · rintro ⟨d, hd, hda, hdf, hdb⟩
      rcases List.mem_append.mp hd with hd | hd
      · exact ⟨d, hd, hda, hdf, hdb⟩
      · rw [List.mem_singleton.mp hd, hfree] at hdf
        simp at hdf
  nodup := H.nodup

end Heap

/-! ## The lists as queues

Taking chunks off the lists removes their addresses and moves nothing else, so several of them can
be taken in any order. -/

def without (bins : Nat → List Nat) (as : List Nat) : Nat → List Nat :=
  fun i => (bins i).filter (· ∉ as)

@[simp] theorem without_nil (bins : Nat → List Nat) : without bins [] = bins := by
  funext i
  simp [without]

theorem without_without (bins : Nat → List Nat) (as bs : List Nat) :
    without (without bins as) bs = without bins (as ++ bs) := by
  funext i
  simp only [without, List.filter_filter]
  congr 1
  funext a
  simp [Bool.and_comm]

namespace Heap

variable {H : Heap} {l r : List Chunk} {c : Chunk} {xs ys : List Nat}

/-- A chunk taken into use is off the lists, and nothing else is. -/
theorem take_bins (hch : H.chunks = l ++ c :: r) (hb : H.bins c.bin = xs ++ c.addr :: ys) :
    (H.take c l r xs ys hch hb).bins = without H.bins [c.addr] := by
  have hc : c ∈ H.chunks := by simp [hch]
  funext i
  show Function.update H.bins c.bin (xs ++ ys) i = (H.bins i).filter (· ∉ [c.addr])
  by_cases hi : i = c.bin
  · subst hi
    have hnd := H.nodup c.bin
    rw [hb] at hnd
    have hxs : c.addr ∉ xs ∧ c.addr ∉ ys := by grind
    have hkeep : ∀ zs : List Nat, c.addr ∉ zs → zs.filter (· ∉ [c.addr]) = zs := by
      intro zs hz
      apply List.filter_eq_self.mpr
      intro a ha
      have hne : a ≠ c.addr := fun e => hz (e ▸ ha)
      simpa using hne
    rw [Function.update_self, hb, List.filter_append, List.filter_cons, hkeep xs hxs.1,
      hkeep ys hxs.2]
    simp
  · have hnot : c.addr ∉ H.bins i := fun ha => hi ((H.mem_bins_addr hc i).mp ha).2.symm
    rw [Function.update_of_ne hi, List.filter_eq_self.mpr]
    intro a ha
    have hne : a ≠ c.addr := fun e => hnot (e ▸ ha)
    simpa using hne

end Heap

end MmExper.Musl
