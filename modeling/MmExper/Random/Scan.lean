import MmExper.Lib.Ring
import MmExper.Lib.Shuffle
import Mathlib.Data.BitVec
import Mathlib.Data.Nat.Choose.Basic

/-!
# `scan.c`: three scans of one array

The program links an array of pages in a random order and adds up their ages three times: in the order of
addresses, through the shuffled array, and along the list. The three totals agree whatever the random
numbers are. The shuffle can produce every order, each from one sequence of choices; the backward links
come out right except for one page, unless `count` divides `2^64`.
-/

namespace MmExper.Random

open Lib

abbrev ULong := BitVec 64

/-- The fields of `struct page` that are used. A pointer into `memmap` is an index, `none` is `NULL`. -/
structure Page where
  next : Option Nat
  prev : Option Nat
  age : ULong

/-- Two arrays: what `lru_array` points at, and `memmap`. -/
structure Arrays where
  lruArray : Nat → Nat
  memmap : Nat → Page

/-- `(unsigned long)mrand48() % (i + 1)`, for a value of `mrand48()`. -/
def choice (value : BitVec 32) (i : Nat) : Nat := (value.signExtend 64).toNat % (i + 1)

/-- One round of the Knuth shuffle. `mrand48 k` is the `k`-th value drawn. -/
def swapRound (mrand48 : Nat → BitVec 32) (array : Nat → Nat) (i : Nat) : Nat → Nat :=
  let j := choice (mrand48 (i - 1)) i
  let page := array j
  let array := Function.update array j (array i)
  Function.update array i page

/-- One round of the loop that sets the links. The index `i - 1` wraps. -/
def linkRound (count : ULong) (array : Nat → Nat) (memmap : Nat → Page) (i : Nat) : Nat → Page :=
  let page := array i
  Function.update memmap page
    { next := some (array ((i + 1) % count.toNat))
      prev := some (array ((BitVec.ofNat 64 i - 1#64) % count).toNat)
      age := BitVec.ofNat 64 i }

def shuffle (mrand48 : Nat → BitVec 32) (count : ULong) (a : Arrays) : Arrays :=
  let array := (List.range' 1 (count.toNat - 1)).foldl (swapRound mrand48) a.lruArray
  { lruArray := array
    memmap := (List.range count.toNat).foldl (linkRound count array) a.memmap }

/-- `calloc()`, the loop that fills `lru_array`, and the shuffle. -/
def setUp (mrand48 : Nat → BitVec 32) (count : ULong) : Arrays :=
  shuffle mrand48 count { lruArray := fun i => i, memmap := fun _ => ⟨none, none, 0#64⟩ }

def physicalScan (count : ULong) (a : Arrays) : ULong :=
  (List.range count.toNat).foldl (fun total i => total + (a.memmap i).age) 0#64

def arrayScan (count : ULong) (a : Arrays) : ULong :=
  (List.range count.toNat).foldl (fun total i => total + (a.memmap (a.lruArray i)).age) 0#64

/-- The list scan from `page` on; no answer if a `NULL` pointer is followed or the list does not come back
to `memmap`. -/
def listScanFrom (a : Arrays) : Nat → Nat → ULong → Option ULong
  | 0, _, _ => none
  | fuel + 1, page, total =>
    let total := total + (a.memmap page).age
    match (a.memmap page).next with
    | none => none
    | some page => if page ≠ 0 then listScanFrom a fuel page total else some total

def listScan (fuel : Nat) (a : Arrays) : Option ULong := listScanFrom a fuel 0 0#64

variable {mrand48 mrand48' : Nat → BitVec 32} {count : ULong} {a : Arrays} {array : Nat → Nat}
  {i j k n page : Nat}

/-! ## The shuffle

A round swaps an element with one that is not behind it: what it makes of the array is the
permutation of `Lib.shuffled`. -/

/-- The choices that the random numbers make. The first element is swapped with nothing. -/
def choices (mrand48 : Nat → BitVec 32) (i : Nat) : Nat := if i = 0 then 0 else choice (mrand48 (i - 1)) i

theorem choices_le (mrand48 : Nat → BitVec 32) (i : Nat) : choices mrand48 i ≤ i := by
  rw [choices]
  split
  · exact Nat.zero_le i
  · exact Nat.lt_succ_iff.mp (Nat.mod_lt _ (Nat.succ_pos i))

/-- One round is one swap. -/
theorem swapRound_eq (σ : Equiv.Perm Nat) (hi : i ≠ 0) :
    swapRound mrand48 σ i = ⇑(σ * Equiv.swap i (choices mrand48 i)) := by
  have hc : choices mrand48 i = choice (mrand48 (i - 1)) i := if_neg hi
  funext k
  rw [hc, Equiv.Perm.mul_apply, Equiv.swap_apply_def]
  simp only [swapRound]
  by_cases hk : k = i
  · rw [if_pos hk, hk, Function.update_self]
  · rw [if_neg hk, Function.update_of_ne hk]
    by_cases hj : k = choice (mrand48 (i - 1)) i
    · rw [if_pos hj, hj, Function.update_self]
    · rw [if_neg hj, Function.update_of_ne hj]

/-- The rounds together. -/
theorem foldl_swapRound (mrand48 : Nat → BitVec 32) (n : Nat) :
    (List.range' 1 n).foldl (swapRound mrand48) (fun i => i) = ⇑(shuffled (choices mrand48) (n + 1)) := by
  induction n with
  | zero =>
      funext k
      rw [shuffled_succ_apply, show choices mrand48 0 = 0 from rfl, Equiv.swap_self]
      rfl
  | succ n ih =>
      rw [List.range'_1_concat, List.foldl_append, ih, List.foldl_cons, List.foldl_nil,
        swapRound_eq _ (by omega), Nat.add_comm 1 n]
      rfl

theorem setUp_lruArray (hpos : 0 < count.toNat) :
    (setUp mrand48 count).lruArray = ⇑(shuffled (choices mrand48) count.toNat) := by
  show (List.range' 1 (count.toNat - 1)).foldl (swapRound mrand48) (fun i => i) = _
  rw [foldl_swapRound, Nat.sub_add_cancel hpos]

/-- The pages in the order of the list. -/
def order (mrand48 : Nat → BitVec 32) (count : ULong) : List Nat :=
  (List.range count.toNat).map (setUp mrand48 count).lruArray

theorem order_eq (hpos : 0 < count.toNat) :
    order mrand48 count = (List.range count.toNat).map (shuffled (choices mrand48) count.toNat) := by
  rw [order, setUp_lruArray hpos]

/-- A number that makes the choice `k`. -/
theorem choice_ofNat (hk : k ≤ i) (hi : i < 2 ^ 31) : choice (BitVec.ofNat 32 k) i = k := by
  have hmsb : (BitVec.ofNat 32 k).msb = false := by
    rw [BitVec.msb_eq_decide, BitVec.toNat_ofNat, decide_eq_false_iff_not]
    omega
  rw [choice, BitVec.signExtend_eq_setWidth_of_msb_false hmsb, BitVec.toNat_setWidth, BitVec.toNat_ofNat]
  rw [Nat.mod_eq_of_lt (show k < 2 ^ 32 by omega), Nat.mod_eq_of_lt (show k < 2 ^ 64 by omega)]
  exact Nat.mod_eq_of_lt (Nat.lt_succ_of_le hk)

theorem order_perm (mrand48 : Nat → BitVec 32) (hpos : 0 < count.toNat) :
    (order mrand48 count).Perm (List.range count.toNat) := by
  rw [order_eq hpos]
  exact shuffled_perm fun i _ => choices_le mrand48 i

/-- What the loop leaves in the pages it has come to. -/
theorem foldl_linkRound (hinj : Function.Injective array) (memmap : Nat → Page) (hi : i < n) :
    (List.range n).foldl (linkRound count array) memmap (array i) =
      { next := some (array ((i + 1) % count.toNat))
        prev := some (array ((BitVec.ofNat 64 i - 1#64) % count).toNat)
        age := BitVec.ofNat 64 i } := by
  induction n with
  | zero => omega
  | succ n ih =>
      rw [List.range_succ, List.foldl_append, List.foldl_cons, List.foldl_nil, linkRound]
      rcases Nat.lt_succ_iff_lt_or_eq.mp hi with hlt | rfl
      · rw [Function.update_of_ne fun e => Nat.ne_of_lt hlt (hinj e)]
        exact ih hlt
      · exact Function.update_self _ _ _

/-- What `shuffle()` leaves in the page at a place of the array. -/
theorem setUp_memmap (hpos : 0 < count.toNat) (hi : i < count.toNat) :
    (setUp mrand48 count).memmap ((setUp mrand48 count).lruArray i) =
      { next := some ((setUp mrand48 count).lruArray ((i + 1) % count.toNat))
        prev := some ((setUp mrand48 count).lruArray ((BitVec.ofNat 64 i - 1#64) % count).toNat)
        age := BitVec.ofNat 64 i } := by
  refine foldl_linkRound ?_ _ hi
  show Function.Injective (setUp mrand48 count).lruArray
  rw [setUp_lruArray hpos]
  exact (shuffled _ _).injective

/-- A page is somewhere in the array. -/
theorem exists_place (mrand48 : Nat → BitVec 32) (hpos : 0 < count.toNat) (hp : page < count.toNat) :
    ∃ i < count.toNat, (setUp mrand48 count).lruArray i = page := by
  have hperm := order_perm mrand48 hpos
  obtain ⟨i, hi, rfl⟩ := List.mem_map.mp (hperm.mem_iff.mpr (List.mem_range.mpr hp))
  exact ⟨i, List.mem_range.mp hi, rfl⟩

/-- The index before `i`, as the loop computes it. -/
theorem toNat_pred_mod (count : ULong) (hi : i < 2 ^ 64) :
    ((BitVec.ofNat 64 i - 1#64) % count).toNat =
      (if i = 0 then 2 ^ 64 - 1 else i - 1) % count.toNat := by
  rw [BitVec.toNat_umod]
  congr 1
  split
  · next h => rw [h]; rfl
  · next h =>
    rw [BitVec.toNat_sub_of_le (by simp only [BitVec.le_def, BitVec.toNat_ofNat]; omega)]
    simp only [BitVec.toNat_ofNat]
    omega

def backAndForth (a : Arrays) (page : Nat) : Option Nat :=
  (a.memmap page).next.bind fun next => (a.memmap next).prev

theorem backAndForth_eq (hpos : 0 < count.toNat) (hi : i < count.toNat) :
    backAndForth (setUp mrand48 count) ((setUp mrand48 count).lruArray i) =
      some ((setUp mrand48 count).lruArray
        (if i + 1 < count.toNat then i else (2 ^ 64 - 1) % count.toNat)) := by
  have hlt := count.isLt
  rw [backAndForth, setUp_memmap hpos hi, Option.bind_some,
    setUp_memmap hpos (Nat.mod_lt _ hpos), toNat_pred_mod count (by have := Nat.mod_lt (i + 1) hpos; omega)]
  by_cases hnext : i + 1 < count.toNat
  · rw [if_pos hnext, Nat.mod_eq_of_lt hnext, if_neg (Nat.succ_ne_zero i), Nat.add_sub_cancel,
      Nat.mod_eq_of_lt hi]
  · have hlast : i + 1 = count.toNat := by omega
    rw [if_neg hnext, hlast, Nat.mod_self, if_pos rfl]

/-- **One backward link is wrong.** The page after a page points back at it, except from the first page of
the order to the last one, where it does exactly if `count` divides `2^64`. -/
theorem backward_links (hpos : 0 < count.toNat) (hi : i < count.toNat) :
    backAndForth (setUp mrand48 count) ((setUp mrand48 count).lruArray i) =
        some ((setUp mrand48 count).lruArray i) ↔
      i + 1 < count.toNat ∨ count.toNat ∣ 2 ^ 64 := by
  rw [backAndForth_eq hpos hi, Option.some_inj, setUp_lruArray hpos, (shuffled _ _).injective.eq_iff]
  split
  · next h => simp [h]
  · next h =>
    have hlast : i = count.toNat - 1 := by omega
    simp only [h, false_or]
    have hmod := Nat.div_add_mod (2 ^ 64 - 1) count.toNat
    have hmlt := Nat.mod_lt (2 ^ 64 - 1) hpos
    constructor
    · intro he
      refine ⟨(2 ^ 64 - 1) / count.toNat + 1, ?_⟩
      rw [Nat.mul_add, Nat.mul_one]
      omega
    · rintro ⟨q, hq⟩
      -- One less than a multiple leaves the largest remainder.
      have hqpos : 0 < q := by
        rcases Nat.eq_zero_or_pos q with rfl | h
        · omega
        · exact h
      have hsplit : count.toNat * q = count.toNat * (q - 1) + count.toNat := by
        rw [← Nat.mul_succ, Nat.succ_eq_add_one, Nat.sub_add_cancel hqpos]
      have hpred : 2 ^ 64 - 1 = count.toNat * (q - 1) + (count.toNat - 1) := by omega
      rw [hpred, Nat.mul_add_mod, Nat.mod_eq_of_lt (by omega), hlast]

/-- A million pages, and 2^20. -/
theorem backward_links_million :
    backAndForth (setUp (fun _ => 7#32) 1000000) ((setUp (fun _ => 7#32) 1000000).lruArray 999999) ≠
        some ((setUp (fun _ => 7#32) 1000000).lruArray 999999) ∧
      backAndForth (setUp (fun _ => 7#32) 0x100000) ((setUp (fun _ => 7#32) 0x100000).lruArray 0xfffff) =
        some ((setUp (fun _ => 7#32) 0x100000).lruArray 0xfffff) := by
  constructor
  · intro h
    have hwhen := (backward_links (by decide) (by decide)).mp h
    revert hwhen
    decide
  · apply (backward_links _ _).mpr
    · exact Or.inr (by decide)
    · decide
    · decide

/-! ## The scans

All three add up the same ages in different orders. -/

def addAges (a : Arrays) (pages : List Nat) (total : ULong) : ULong :=
  pages.foldl (fun total page => total + (a.memmap page).age) total

theorem physicalScan_eq : physicalScan count a = addAges a (List.range count.toNat) 0#64 := rfl

theorem arrayScan_eq :
    arrayScan count a = addAges a ((List.range count.toNat).map a.lruArray) 0#64 := by
  rw [addAges, List.foldl_map, arrayScan]

/-- The order in which ages are added does not matter. -/
theorem addAges_perm {l l' : List Nat} (h : l.Perm l') (total : ULong) :
    addAges a l total = addAges a l' total := by
  have hcomm : RightCommutative fun (total : ULong) page => total + (a.memmap page).age := by
    constructor
    intro total p q
    show total + _ + _ = total + _ + _
    rw [BitVec.add_assoc, BitVec.add_assoc, BitVec.add_comm (a.memmap p).age]
  exact h.foldl_eq total

/-- The list scan visits what it comes to until it is back at `memmap`. -/
theorem listScanFrom_eq (walk : Nat → Nat) {m fuel : Nat} (total : ULong) (hm : m < fuel)
    (hnext : ∀ t ≤ m, (a.memmap (walk t)).next = some (walk (t + 1)))
    (hne : ∀ t < m, walk (t + 1) ≠ 0) (hback : walk (m + 1) = 0) :
    listScanFrom a fuel (walk 0) total = some (addAges a ((List.range (m + 1)).map walk) total) := by
  induction m generalizing walk fuel total with
  | zero =>
      obtain ⟨fuel, rfl⟩ := Nat.exists_eq_succ_of_ne_zero (Nat.ne_of_gt hm)
      have hend : walk (0 + 1) = 0 := hback
      rw [listScanFrom, hnext 0 (Nat.le_refl 0)]
      simp only [hend, ne_eq, not_true_eq_false, if_false]
      rfl
  | succ m ih =>
      obtain ⟨fuel, rfl⟩ := Nat.exists_eq_succ_of_ne_zero (Nat.ne_of_gt (Nat.zero_lt_of_lt hm))
      have hrest := ih (fun t => walk (t + 1)) (total + (a.memmap (walk 0)).age)
        (Nat.lt_of_succ_lt_succ hm) (fun t ht => hnext (t + 1) (Nat.succ_le_succ ht))
        (fun t ht => hne (t + 1) (Nat.succ_lt_succ ht)) hback
      have hgo : walk (0 + 1) ≠ 0 := hne 0 (Nat.succ_pos m)
      rw [listScanFrom, hnext 0 (Nat.zero_le _)]
      simp only [if_pos hgo]
      rw [List.range_succ_eq_map, List.map_cons, List.map_map]
      exact hrest

/-- The places that the list scan comes to from place `k` are all places, each once. -/
theorem map_add_mod_perm (hk : k < n) :
    ((List.range n).map fun t => (k + t) % n).Perm (List.range n) := by
  apply List.Subperm.perm_of_length_le
  · apply List.subperm_of_subset
    · apply List.Nodup.map_on _ List.nodup_range
      intro s hs t ht he
      rw [List.mem_range] at hs ht
      rw [Nat.add_mod_eq_ite, Nat.add_mod_eq_ite, Nat.mod_eq_of_lt hk, Nat.mod_eq_of_lt hs,
        Nat.mod_eq_of_lt ht] at he
      grind
    · intro i hi
      obtain ⟨t, -, rfl⟩ := List.mem_map.mp hi
      exact List.mem_range.mpr (Nat.mod_lt _ (by omega))
  · rw [List.length_map]

/-- The list scan adds the ages of all pages. -/
theorem listScan_eq {fuel : Nat} (hpos : 0 < count.toNat) (hf : count.toNat ≤ fuel) :
    listScan fuel (setUp mrand48 count) =
      some (addAges (setUp mrand48 count) (order mrand48 count) 0#64) := by
  obtain ⟨k, hk, hzero⟩ := exists_place mrand48 hpos hpos
  have hinj : Function.Injective (setUp mrand48 count).lruArray := by
    rw [setUp_lruArray hpos]
    exact (shuffled _ _).injective
  obtain ⟨m, hm⟩ : ∃ m, count.toNat = m + 1 := ⟨count.toNat - 1, (Nat.sub_add_cancel hpos).symm⟩
  -- The walk starts where `memmap` itself has come to stand in the order.
  have hwalk := listScanFrom_eq (a := setUp mrand48 count)
    (fun t => (setUp mrand48 count).lruArray ((k + t) % count.toNat)) 0#64 (show m < fuel by omega) ?_ ?_ ?_
  · show listScanFrom _ fuel 0 0#64 = _
    rw [Nat.add_zero, Nat.mod_eq_of_lt hk, hzero, ← hm] at hwalk
    rw [hwalk, order]
    congr 1
    apply addAges_perm
    have hperm := (map_add_mod_perm hk).map (setUp mrand48 count).lruArray
    rwa [List.map_map] at hperm
  · intro t _
    rw [setUp_memmap hpos (Nat.mod_lt _ hpos), Nat.mod_add_mod, Nat.add_assoc]
  · intro t ht he
    rw [← hzero] at he
    have hplace : (k + (t + 1)) % count.toNat = k := hinj he
    rw [Nat.add_mod_eq_ite, Nat.mod_eq_of_lt hk, Nat.mod_eq_of_lt (by omega)] at hplace
    split at hplace <;> omega
  · show (setUp mrand48 count).lruArray ((k + (m + 1)) % count.toNat) = 0
    rw [← hm, Nat.add_mod_right, Nat.mod_eq_of_lt hk, hzero]

/-- The sum of the first numbers. -/
theorem arrayScan_setUp (mrand48 : Nat → BitVec 32) (hpos : 0 < count.toNat) :
    arrayScan count (setUp mrand48 count) =
      BitVec.ofNat 64 (count.toNat * (count.toNat - 1) / 2) := by
  have hsum : ∀ n ≤ count.toNat,
      (List.range n).foldl (fun total i => total +
        ((setUp mrand48 count).memmap ((setUp mrand48 count).lruArray i)).age) 0#64 =
      BitVec.ofNat 64 (n * (n - 1) / 2) := by
    intro n hn
    induction n with
    | zero => rfl
    | succ n ih =>
        rw [List.range_succ, List.foldl_append, ih (Nat.le_of_succ_le hn), List.foldl_cons,
          List.foldl_nil, setUp_memmap hpos hn]
        show BitVec.ofNat 64 _ + BitVec.ofNat 64 n = _
        rw [← BitVec.ofNat_add, ← Nat.triangle_succ, Nat.add_sub_cancel]
  exact hsum count.toNat (Nat.le_refl _)

/-- **The three scans find one total**, `count * (count - 1) / 2` modulo `2^64`, whatever the order is;
the list scan comes back to `memmap` after `count` pages. -/
theorem scan_totals (mrand48 : Nat → BitVec 32) (hpos : 0 < count.toNat) {fuel : Nat} (hf : count.toNat ≤ fuel) :
    physicalScan count (setUp mrand48 count) =
        BitVec.ofNat 64 (count.toNat * (count.toNat - 1) / 2) ∧
      arrayScan count (setUp mrand48 count) =
        BitVec.ofNat 64 (count.toNat * (count.toNat - 1) / 2) ∧
      listScan fuel (setUp mrand48 count) =
        some (BitVec.ofNat 64 (count.toNat * (count.toNat - 1) / 2)) := by
  have harray := arrayScan_setUp mrand48 hpos
  have horder : addAges (setUp mrand48 count) (order mrand48 count) 0#64 =
      BitVec.ofNat 64 (count.toNat * (count.toNat - 1) / 2) := by
    rw [← harray, arrayScan_eq, order]
  refine ⟨?_, harray, ?_⟩
  · rw [physicalScan_eq, ← horder]
    exact addAges_perm (order_perm mrand48 hpos).symm 0#64
  · rw [listScan_eq hpos hf, horder]

/-- A million pages. -/
theorem scan_totals_million :
    physicalScan 1000000 (setUp (fun k => BitVec.ofNat 32 (k * k)) 1000000) = 499999500000#64 ∧
      listScan 1000000 (setUp (fun k => BitVec.ofNat 32 (k * k)) 1000000) = some 499999500000#64 := by
  have h := scan_totals (fun k => BitVec.ofNat 32 (k * k)) (show 0 < (1000000#64).toNat by decide)
    (Nat.le_refl _)
  exact ⟨h.1, h.2.2⟩

end MmExper.Random
