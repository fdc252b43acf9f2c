import MmExper.Lib.Numerals
import MmExper.Musl.Shape

/-!
# `musl_dump_bins`

The listing of the free lists that `test-musl-malloc` prints after every call. Its inner loop follows the
links of a list until it is back at the bin, and skips chunks in use without asking how they got there.
-/

namespace MmExper.Musl

open Bitwise Lib

/-- The inner loop: `curr` and what is left of the list. -/
def dumpBin (s : State) (last : Nat) : Nat → Nat → Option (List Char)
  | 0, _ => none
  | fuel + 1, curr =>
    if curr = last then some []
    else if s.csize curr &&& cInuse ≠ 0#64 then dumpBin s last fuel (s.next curr)
    else (dumpBin s last fuel (s.next curr)).map (decimal (s.csize curr / sizeAlign) ++ ' ' :: ·)

def dumpBins (s : State) (fuel : Nat) : List Nat → Option (List Char)
  | [] => some []
  | i :: is =>
    if !isBitSet s.binmap i || decide (s.head i = s.binToChunk i) then dumpBins s fuel is
    else
      (dumpBin s (s.binToChunk i) fuel (s.head i)).bind fun line =>
        (dumpBins s fuel is).map fun rest =>
          (Nat.toDigits 10 i).leftpad 2 '0' ++ ": ".toList ++ line ++ "\n".toList ++ rest

def dumpStats (t : Stats) : List Char :=
  "allocated = ".toList ++ decimal t.allocatedBytes ++ ", free = ".toList ++ decimal t.freeBytes ++
    ", heap size = ".toList ++ decimal t.heapBytes ++ ", free blocks = ".toList ++
    decimal t.freeBlockBytes ++ ", mmaps = ".toList ++ decimal t.mmapBytes ++ ", reclaimed = ".toList ++
    decimal t.reclaimedBytes ++ "\n".toList

/-- `musl_dump_bins()`: what it prints, if it returns. -/
def muslDumpBins (fuel : Nat) (s : State) : Option (List Char) :=
  (dumpBins s fuel (List.range 64)).map fun lines =>
    "\n=== STATS ===\n\n".toList ++ dumpStats s.stats ++ lines ++ "\n=============\n\n".toList

variable {w : World} {s : State} {H : Heap} {i fuel : Nat} {cs : List Chunk} {as : List Nat}

/-! ## One list

`dumpBin` follows `next` until it is back at the sentinel: along a ring that is the list. -/

def dumpChunk (s : State) (c : Nat) : List Char :=
  if s.csize c &&& cInuse ≠ 0#64 then [] else decimal (s.csize c / sizeAlign) ++ [' ']

/-- The loop is a walk along the list. -/
theorem dumpBin_eq (s : State) (last fuel curr : Nat) :
    dumpBin s last fuel curr = (follow s.next last fuel curr).map (·.flatMap (dumpChunk s)) := by
  induction fuel generalizing curr with
  | zero => rfl
  | succ fuel ih =>
      rw [dumpBin, follow]
      split
      · rfl
      · rw [ih]
        cases hrest : follow s.next last fuel (s.next curr) with
        | none => split <;> rfl
        | some xs =>
            simp only [Option.map_some, List.flatMap_cons, dumpChunk]
            split
            · rfl
            · simp

def Chunk.units (c : Chunk) : Nat := c.size / 32

def binLine (i : Nat) (cs : List Chunk) : List Char :=
  (Nat.toDigits 10 i).leftpad 2 '0' ++ ": ".toList ++
    cs.flatMap (fun c => Nat.toDigits 10 c.units ++ [' ']) ++ "\n".toList

/-- A free chunk is printed with its size. -/
theorem Repr.dumpChunk {c : Chunk} (h : Repr s H) (hc : c ∈ H.chunks) (hf : c.free = true) :
    Musl.dumpChunk s c.addr = Nat.toDigits 10 c.units ++ [' '] := by
  have htag := (h.tags (List.ne_nil_of_mem hc)).csize c hc
  have heven : c.tag &&& cInuse = 0#64 := (Chunk.tag_and_one (H.granular c hc)).mpr hf
  have hunits : (c.tag / sizeAlign).toNat = c.units := by
    rw [Chunk.tag, if_pos hf, BitVec.toNat_udiv, H.toNat_size hc]
    rfl
  rw [Musl.dumpChunk, htag, if_neg (not_not.mpr heven), decimal, hunits]

/-- The chunks of a list, in its order. -/
theorem Heap.exists_listed (H : Heap) (i : Nat) : ∃ cs : List Chunk, cs.map Chunk.addr = H.bins i ∧
    ∀ c ∈ cs, c ∈ H.chunks ∧ c.free = true := by
  have key : ∀ as : List Nat, (∀ a ∈ as, a ∈ H.bins i) →
      ∃ cs : List Chunk, cs.map Chunk.addr = as ∧ ∀ c ∈ cs, c ∈ H.chunks ∧ c.free = true := by
    intro as
    induction as with
    | nil =>
        intro _
        exact ⟨[], rfl, by simp⟩
    | cons a as ih =>
        intro h
        obtain ⟨c, hc, hca, hcf, -⟩ := (H.mem_bins i a).mp (h a (by simp))
        obtain ⟨cs, hcs, hall⟩ := ih fun b hb => h b (by simp [hb])
        refine ⟨c :: cs, by rw [List.map_cons, hca, hcs], ?_⟩
        intro d hd
        rcases List.mem_cons.mp hd with rfl | hd
        · exact ⟨hc, hcf⟩
        · exact hall d hd
  exact key (H.bins i) fun a ha => ha

/-- The loop over one bin ends and prints its chunks in the order of the list. -/
theorem Repr.dumpBin (h : Repr s H) (hi : i < 64) (hset : s.head i ≠ 0)
    (hcs : cs.map Chunk.addr = H.bins i) (hall : ∀ c ∈ cs, c ∈ H.chunks ∧ c.free = true)
    (hfuel : (H.bins i).length < fuel) :
    Musl.dumpBin s (s.binToChunk i) fuel (s.head i) =
      some (cs.flatMap fun c => Nat.toDigits 10 c.units ++ [' ']) := by
  have hring := h.lists.ring i hi hset
  rw [dumpBin_eq, State.binToChunk_eq, State.head_eq_next, hring.follow_eq hfuel, ← hcs, Option.map_some,
    List.flatMap_map]
  congr 1
  apply List.flatMap_congr
  intro c hc
  exact h.dumpChunk (hall c hc).1 (hall c hc).2

/-! ## All lists

Every free chunk is on exactly one list, so the lists together are the free chunks. -/

section Lines

variable (h : Repr s H) (listed : Nat → List Chunk) (hcs : ∀ i, (listed i).map Chunk.addr = H.bins i)
  (hall : ∀ i, ∀ c ∈ listed i, c ∈ H.chunks ∧ c.free = true)
include h hcs hall

/-- The lines of the bins that are not empty. -/
theorem Repr.dumpBins {is : List Nat} (his : ∀ i ∈ is, i < 64) (hfuel : ∀ i ∈ is, (H.bins i).length < fuel) :
    Musl.dumpBins s fuel is =
      some ((is.filter fun i => !(listed i).isEmpty).flatMap fun i => binLine i (listed i)) := by
  induction is with
  | nil => rfl
  | cons i is ih =>
      have hi := his i (by simp)
      have hrest := ih (fun j hj => his j (by simp [hj])) fun j hj => hfuel j (by simp [hj])
      have hbit := h.lists.bit i hi
      have hnil : (listed i).isEmpty = true ↔ H.bins i = [] := by
        rw [List.isEmpty_iff, ← hcs i, List.map_eq_nil_iff]
      rw [Musl.dumpBins, List.filter_cons]
      by_cases hempty : H.bins i = []
      · have hclear : isBitSet s.binmap i = false := by
          rw [isBitSet_eq_getLsbD, ← Bool.not_eq_true, hbit]
          exact not_not.mpr hempty
        rw [if_pos (by simp [hclear]), hrest, hnil.mpr hempty]
        rfl
      · have hset : isBitSet s.binmap i = true := by
          rw [isBitSet_eq_getLsbD]
          exact hbit.mpr hempty
        obtain ⟨hne, -⟩ := h.head_of_bit hi (by rw [← isBitSet_eq_getLsbD]; exact hset)
        have hhead : s.head i ≠ s.binToChunk i := fun e => hne (Or.inr e)
        have hline := h.dumpBin hi (fun e => hne (Or.inl e)) (hcs i) (hall i) (hfuel i (by simp))
        have hshown : (listed i).isEmpty = false := by
          rw [← Bool.not_eq_true, hnil]
          exact hempty
        rw [if_neg (by simpa [hset] using hhead), hline, hrest, hshown]
        rfl

end Lines

/-- Everything that is free stands in the listing, once. -/
theorem Heap.listed_perm (H : Heap) {listed : Nat → List Chunk}
    (hcs : ∀ i, (listed i).map Chunk.addr = H.bins i)
    (hall : ∀ i, ∀ c ∈ listed i, c ∈ H.chunks ∧ c.free = true) :
    ((List.range 64).flatMap listed).Perm (H.chunks.filter (·.free)) := by
  have hsub : ∀ c ∈ (List.range 64).flatMap listed, c ∈ H.chunks ∧ c.free = true := by
    intro c hc
    obtain ⟨i, -, hi⟩ := List.mem_flatMap.mp hc
    exact hall i c hi
  have haddr : ((List.range 64).flatMap listed).map Chunk.addr = (List.range 64).flatMap H.bins := by
    rw [List.map_flatMap]
    apply List.flatMap_congr
    intro i _
    exact hcs i
  have hnd : ((List.range 64).flatMap listed).Nodup := by
    apply List.Nodup.of_map Chunk.addr
    rw [haddr]
    refine (H.lists_perm.nodup_iff).mpr ?_
    refine List.Nodup.map_on ?_ (H.tiled.nodup.filter _)
    intro c hc d hd e
    exact H.tiled.start_inj (List.mem_filter.mp hc).1 (List.mem_filter.mp hd).1 e
  refine (List.perm_ext_iff_of_nodup hnd (H.tiled.nodup.filter _)).mpr fun c => ?_
  rw [List.mem_filter]
  refine ⟨hsub c, fun ⟨hc, hf⟩ => ?_⟩
  have hmem : c.addr ∈ ((List.range 64).flatMap listed).map Chunk.addr := by
    rw [haddr, H.lists_perm.mem_iff]
    exact List.mem_map_of_mem (List.mem_filter.mpr ⟨hc, hf⟩)
  obtain ⟨d, hd, hda⟩ := List.mem_map.mp hmem
  rw [← H.tiled.start_inj (hsub d hd).1 hc hda]
  exact hd

/-- Units are what the counter of free bytes counts. -/
theorem Heap.sum_units (H : Heap) : 32 * ((H.chunks.filter (·.free)).map Chunk.units).sum = H.freeBytes := by
  have hunits : ∀ cs : List Chunk, (∀ c ∈ cs, c.size % 32 = 0) →
      32 * (cs.map Chunk.units).sum = (cs.map Chunk.size).sum := by
    intro cs
    induction cs with
    | nil => simp
    | cons c cs ih =>
        intro hg
        have hc := hg c (by simp)
        have hrest := ih fun d hd => hg d (by simp [hd])
        simp only [List.map_cons, List.sum_cons, Chunk.units] at hrest ⊢
        omega
  exact hunits _ fun c hc => H.granular c (List.mem_filter.mp hc).1

/-- **The dump shows the free chunks.** In every reachable world `musl_dump_bins` returns, and prints the
counters and a line for every class with chunks waiting, in which they stand with their sizes in the order
in which they will be handed out; every free chunk is printed once, and the sizes add up to the counter of
free bytes. -/
theorem dump_shows (hw : Reachable w) :
    ∃ A listed, Stores w A ∧ (∀ i, (listed i).map Chunk.addr = A.queues i) ∧
      ((List.range 64).flatMap listed).Perm (A.chunks.filter (·.free)) ∧
      32 * (((List.range 64).flatMap listed).map Chunk.units).sum = w.state.stats.freeBytes.toNat ∧
      ∃ most, ∀ fuel, most < fuel → muslDumpBins fuel w.state = some
        ("\n=== STATS ===\n\n".toList ++ dumpStats w.state.stats ++
          (((List.range 64).filter fun i => !(listed i).isEmpty).flatMap fun i => binLine i (listed i)) ++
          "\n=============\n\n".toList) := by
  obtain ⟨H, hinv⟩ := reachable_inv hw
  choose listed hcs hall using H.exists_listed
  have hperm := H.listed_perm hcs hall
  refine ⟨H.arena, listed, ⟨H, hinv, rfl⟩, hcs, hperm, ?_, ((List.range 64).flatMap H.bins).length, ?_⟩
  · have hfree : H.freeBytes ≤ 2 ^ 63 := H.sum_filter_le _
    rw [(hperm.map Chunk.units).sum_eq, H.sum_units, hinv.repr.free.1, BitVec.toNat_ofNat,
      Nat.mod_eq_of_lt (by omega)]
  · intro fuel hfuel
    have hbound : ∀ i ∈ List.range 64, (H.bins i).length < fuel := by
      intro i hi
      have hsub : (H.bins i).Sublist ((List.range 64).flatMap H.bins) := by
        rw [List.flatMap_def]
        exact List.sublist_flatten_of_mem (List.mem_map_of_mem hi)
      have hlen := hsub.length_le
      omega
    have hlines := hinv.repr.dumpBins listed hcs hall (fun i hi => List.mem_range.mp hi) hbound
    rw [muslDumpBins, hlines]
    rfl

/-- After a chunk between two others was given back. -/
theorem dump_shows_run :
    ∃ w, start.run [.malloc 24, .malloc 24, .malloc 24, .free 0x20060] = some w ∧
      ∃ A listed, Stores w A ∧ (∀ i, (listed i).map Chunk.addr = A.queues i) ∧
        ((List.range 64).flatMap listed).Perm (A.chunks.filter (·.free)) ∧
        32 * (((List.range 64).flatMap listed).map Chunk.units).sum = w.state.stats.freeBytes.toNat ∧
        ∃ most, ∀ fuel, most < fuel → muslDumpBins fuel w.state = some
          ("\n=== STATS ===\n\n".toList ++ dumpStats w.state.stats ++
            (((List.range 64).filter fun i => !(listed i).isEmpty).flatMap fun i => binLine i (listed i)) ++
            "\n=============\n\n".toList) := by
  obtain ⟨w, hw, hr, -⟩ := start_run [.malloc 24, .malloc 24, .malloc 24, .free 0x20060]
    (fun _ => true) (by decide +kernel)
  exact ⟨w, hw, dump_shows hr⟩

end MmExper.Musl
