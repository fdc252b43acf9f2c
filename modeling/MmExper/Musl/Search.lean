import MmExper.Lib.BitScan
import MmExper.Musl.Steps

/-!
# The bin search

The loop over `mask` looks at the lowest set bit only: its step expression has no effect, so it ends
exactly when there is no bit to look at or the first bin it looks at is not empty. In a state that
stores a heap every set bit stands for a non-empty bin, and the search takes one iteration.
-/

namespace MmExper.Musl

open Bitwise Lib

variable {s : State} {H : Heap} {c : Chunk} {i j : Nat} {mask : Word} {fuel : Nat}

/-! ## Bits

The rounds of the loop go through the set bits of `binmap` in ascending order. -/

theorem firstSet_spec (h : mask ≠ 0#64) :
    firstSet mask < 64 ∧ mask.getLsbD (firstSet mask) = true ∧
      ∀ j < firstSet mask, mask.getLsbD j = false :=
  ctz_spec h

def setBits (v : Word) (i : Nat) : List Nat :=
  (List.range 64).filter fun j => v.getLsbD j && decide (i ≤ j)

/-- They are the bits that `mask_high_bits` keeps. -/
theorem setBits_eq_bitPositions (v : Word) (i : Nat) : setBits v i = bitPositions (maskHighBits v i) := by
  apply List.filter_congr
  intro j _
  rw [getLsbD_maskHighBits]

theorem setBits_eq_nil (h : maskHighBits mask i = 0#64) : setBits mask i = [] := by
  rw [setBits_eq_bitPositions, h, bitPositions_zero]

/-- `first_set` of the mask is the first of them. -/
theorem setBits_eq_cons (h : maskHighBits mask i ≠ 0#64) :
    ∃ js, setBits mask i = firstSet (maskHighBits mask i) :: js := by
  rw [setBits_eq_bitPositions, bitPositions_eq_cons h]
  exact ⟨_, rfl⟩

/-! ## The loop

As `clear_lowest_bit` returns the new mask and the loop drops it, the second round looks at the same
bin as the first. It ends only if there is no bit, or the first bin it looks at has a chunk. -/

/-- The bin has no chunk, be it initialised or not. -/
def BinEmpty (s : State) (i : Nat) : Prop := s.head i = 0 ∨ s.head i = s.binToChunk i

instance (s : State) (i : Nat) : Decidable (BinEmpty s i) := inferInstanceAs (Decidable (_ ∨ _))

/-- What the search is for: it visits the set bits in ascending order, each at most once, and ends
with the first chunk of the first bin that is not empty, or having visited all of them. -/
structure Finds (s : State) (i : Nat) (r : Search) : Prop where
  order : r.visited <+: setBits s.binmap i
  found : ∀ c, r.found = some c →
    ∃ l j, r.visited = l ++ [j] ∧ (∀ k ∈ l, BinEmpty s k) ∧ ¬BinEmpty s j ∧ c = s.head j
  exhausted : r.found = none →
    r.visited = setBits s.binmap i ∧ ∀ k ∈ setBits s.binmap i, BinEmpty s k

/-- The search ends, and with the right result. -/
def SearchEnds (s : State) (i : Nat) : Prop :=
  ∃ fuel r, searchBins fuel (maskHighBits s.binmap i) s = some r ∧ Finds s i r

/-- `lock_bin` leaves the head of an initialised bin alone. -/
theorem lockBin_head (h : s.head i ≠ 0) : lockBin i s = s := by
  rw [lockBin, if_neg h]

theorem lockBin_empty (hfits : s.mal + State.malSize ≤ 2 ^ 64) (hj : j < 64) (h : BinEmpty s j) :
    (lockBin j s).head j = (lockBin j s).binToChunk j ∧ BinEmpty (lockBin j s) j := by
  have hsize : State.malSize = 1552 := rfl
  have hsent : (lockBin j s).head j = (lockBin j s).binToChunk j := by
    by_cases h0 : s.head j = 0
    · have hhead : (lockBin j s).mem (s.mal + 24 * j + 16) = BitVec.ofNat 64 (s.mal + 24 * j) := by
        rw [lockBin, if_pos h0, State.setTail, State.store_mem, Function.update_of_ne (by simp [State.setHead]),
          State.setHead, State.store_mem, Function.update_self, State.binToChunk_eq]
      have hmal : (lockBin j s).mal = s.mal := congrArg Vars.mal lockBin_toVars
      rw [State.head, State.binToChunk_eq, hmal, hhead, BitVec.toNat_ofNat]
      exact Nat.mod_eq_of_lt (by omega)
    · rw [lockBin_head h0]
      exact h.resolve_left h0
  exact ⟨hsent, Or.inr hsent⟩

/-- With an empty bin at the lowest set bit the loop never ends: locking the bin keeps it empty, and
the mask is the same in the next iteration. -/
theorem searchBins_spins (fuel : Nat) (hfits : s.mal + State.malSize ≤ 2 ^ 64) (hmask : mask ≠ 0#64)
    (h : BinEmpty s (firstSet mask)) : searchBins fuel mask s = none := by
  induction fuel generalizing s with
  | zero => rfl
  | succ fuel ih =>
      obtain ⟨hsent, hempty⟩ := lockBin_empty hfits (firstSet_spec hmask).1 h
      have hmal : (lockBin (firstSet mask) s).mal = s.mal := congrArg Vars.mal lockBin_toVars
      simp only [searchBins, if_neg hmask]
      rw [if_neg (not_not.mpr hsent), ih (by rwa [hmal]) hempty]
      rfl

/-- With a chunk there, the first iteration takes it. -/
theorem searchBins_takes (fuel : Nat) (hmask : mask ≠ 0#64) (h : ¬BinEmpty s (firstSet mask)) :
    searchBins (fuel + 1) mask s =
      some ⟨[firstSet mask], some (s.head (firstSet mask)), unbin (s.head (firstSet mask)) (firstSet mask) s⟩ := by
  have h0 : s.head (firstSet mask) ≠ 0 := fun e => h (Or.inl e)
  have hne : s.head (firstSet mask) ≠ s.binToChunk (firstSet mask) := fun e => h (Or.inr e)
  simp only [searchBins, if_neg hmask, lockBin_head h0]
  rw [if_pos hne]

/-- **When the search ends.** Exactly when no bit from `i` on is set, or the bin of the lowest one is
not empty. -/
theorem searchEnds_iff (s : State) (i : Nat) (hfits : s.mal + State.malSize ≤ 2 ^ 64) :
    SearchEnds s i ↔ maskHighBits s.binmap i = 0#64 ∨
      ¬BinEmpty s (firstSet (maskHighBits s.binmap i)) := by
  constructor
  · rintro ⟨fuel, r, hr, -⟩
    by_contra hcon
    push Not at hcon
    rw [searchBins_spins fuel hfits hcon.1 hcon.2] at hr
    simp at hr
  · intro h
    by_cases hmask : maskHighBits s.binmap i = 0#64
    · refine ⟨1, ⟨[], none, s⟩, by rw [searchBins, if_pos hmask], ?_, by simp, ?_⟩
      · simp
      · simp [setBits_eq_nil hmask]
    · have hbin := h.resolve_left hmask
      obtain ⟨js, hjs⟩ := setBits_eq_cons hmask
      refine ⟨1, _, searchBins_takes 0 hmask hbin, ⟨js, hjs.symm⟩, ?_, by simp⟩
      rintro c ⟨⟩
      exact ⟨[], _, rfl, by simp, hbin, rfl⟩

/-- A state whose bin 0 is initialised and empty, with or without its bit. -/
def emptyBin (binmap : Word) : State :=
  (lockBin 0
    { mal := 0x10000, storedBrk := 0, mmapStep := 0, heapEnd := 0, brk := 0x20000, maps := []
      calls := [], mem := fun _ => 0, stats := ⟨0, 0, 0, 0, 0, 0⟩ }).setBinmap binmap

/-- A state with a chunk in bin 3 and the bit of that bin. -/
def filledBin : State := binChunk 0x20010 3 (lockBin 3 (emptyBin 0#64))

/-- No bit is set, or the one that is set stands for a chunk. -/
theorem searchEnds_iff_clear : SearchEnds (emptyBin 0#64) 0 ∧ SearchEnds filledBin 0 :=
  ⟨(searchEnds_iff (emptyBin 0#64) 0 (by decide)).mpr (.inl (by decide)),
    (searchEnds_iff filledBin 0 (by decide)).mpr (.inr (by decide +kernel))⟩

theorem searchEnds_missed :
    ¬∀ (s : State) (i : Nat), s.mal + State.malSize ≤ 2 ^ 64 → SearchEnds s i := by
  intro h
  obtain ⟨fuel, r, hr, -⟩ := h (emptyBin 1#64) 0 (by decide)
  rw [searchBins_spins fuel (by decide) (by decide) (.inr (by decide +kernel))] at hr
  cases hr

/-! ## In a state that stores a heap

There a set bit means a chunk, so the first round is always the last one. -/

/-- The first chunk of the bin of a set bit. -/
theorem Repr.head_of_bit (h : Repr s H) (hi : i < 64) (hbit : s.binmap.getLsbD i = true) :
    ¬BinEmpty s i ∧ ∃ l c r, H.chunks = l ++ c :: r ∧ c.free = true ∧ c.bin = i ∧ s.head i = c.addr := by
  have hne := (h.lists.bit i hi).mp hbit
  have h0 : s.head i ≠ 0 := fun e => hne (h.lists.unset i hi e)
  have hring := h.lists.ring i hi h0
  obtain ⟨a, as, has⟩ := List.exists_cons_of_ne_nil hne
  rw [has] at hring
  have hhead : s.head i = a := hring.nx_sentinel
  have hmem : a ∈ H.bins i := by simp [has]
  obtain ⟨c, hc, rfl, hf, hb⟩ := (H.mem_bins i a).mp hmem
  obtain ⟨l, r, hch⟩ := List.append_of_mem hc
  refine ⟨?_, l, c, r, hch, hf, hb, hhead⟩
  rintro (e | e)
  · exact h0 e
  · have hsize : State.malSize = 1552 := rfl
    have hab := (h.lists.chunk i hi _ hmem).above
    rw [State.binToChunk_eq] at e
    omega

/-- The search takes a free chunk of a bin from `i` on, or finds every such bit clear. -/
theorem Repr.searchBins (h : Repr s H) (fuel i : Nat) :
    maskHighBits s.binmap i = 0#64 ∧
        Musl.searchBins (fuel + 1) (maskHighBits s.binmap i) s = some ⟨[], none, s⟩ ∨
      ∃ l c r, H.chunks = l ++ c :: r ∧ c.free = true ∧ i ≤ c.bin ∧
        Musl.searchBins (fuel + 1) (maskHighBits s.binmap i) s =
          some ⟨[c.bin], some c.addr, Musl.unbin c.addr c.bin (Musl.lockBin c.bin s)⟩ := by
  by_cases hmask : maskHighBits s.binmap i = 0#64
  · exact Or.inl ⟨hmask, by rw [Musl.searchBins, if_pos hmask]⟩
  · right
    obtain ⟨hlt, hset, -⟩ := firstSet_spec hmask
    rw [getLsbD_maskHighBits, Bool.and_eq_true, decide_eq_true_eq] at hset
    obtain ⟨hne, l, c, r, hch, hf, hb, hhead⟩ := h.head_of_bit hlt hset.1
    refine ⟨l, c, r, hch, hf, by rw [hb]; exact hset.2, ?_⟩
    have h0 : s.head c.bin ≠ 0 := fun e => hne (Or.inl (hb ▸ e))
    rw [searchBins_takes fuel hmask hne, hhead, lockBin_head h0, hb]

end MmExper.Musl
