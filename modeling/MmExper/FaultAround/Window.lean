import MmExper.FaultAround.Compute

/-!
# The window of a fault

What all four versions compute, in page numbers: the window begins at the fault's aligned block of
`fault_around_bytes`, cut off at the start of the VMA, and has as many pages as that allows, cut off
at the end of the VMA and of the page table. Page numbers do not wrap, and the file's pages are the
VMA's pages shifted, so each version is compared with the window and not with the others.
-/

namespace MmExper.FaultAround

variable {vmf : VmFault} {bytes : Word}

/-! ## Valid faults

A fault as the kernel takes it, and as the fuzzer makes it. -/

/-- The fault is in the VMA, and the file has room for another page table's worth of pages. -/
structure Valid (vmf : VmFault) : Prop where
  start_aligned : vmf.vma.vmStart.toNat % 4096 = 0
  end_aligned : vmf.vma.vmEnd.toNat % 4096 = 0
  nonempty : vmf.vma.vmStart < vmf.vma.vmEnd
  start_le : vmf.vma.vmStart ≤ vmf.address
  lt_end : vmf.address < vmf.vma.vmEnd
  pgoff : vmf.pgoff = vmf.vma.vmPgoff + ((vmf.address - vmf.vma.vmStart) >>> pageShift)
  fits : vmf.vma.vmPgoff.toNat + (vmaPages vmf.vma).toNat + ptrsPerPte.toNat ≤ 2 ^ 64

/-- A power of two from `PAGE_SIZE` to `PTRS_PER_PTE * PAGE_SIZE`. -/
def AroundBytes (bytes : Word) : Prop := ∃ k, 12 ≤ k ∧ k ≤ 21 ∧ bytes.toNat = 2 ^ k

/-! ## Page numbers

The window without words: the block of `n` pages around the fault, cut to the VMA and to the page
table. -/

def VmFault.page (vmf : VmFault) : Nat := vmf.address.toNat / 4096
def VmFault.vmaFirst (vmf : VmFault) : Nat := vmf.vma.vmStart.toNat / 4096
def VmFault.vmaEnd (vmf : VmFault) : Nat := vmf.vma.vmEnd.toNat / 4096
def VmFault.table (vmf : VmFault) : Nat := vmf.page / 512 * 512

/-- The first page of its aligned block of `n` pages. -/
def VmFault.block (vmf : VmFault) (n : Nat) : Nat := vmf.page / n * n

def VmFault.windowFirst (vmf : VmFault) (n : Nat) : Nat := max (vmf.block n) vmf.vmaFirst
def VmFault.windowLast (vmf : VmFault) (n : Nat) : Nat :=
  min (min (vmf.table + 511) (vmf.vmaEnd - 1)) (vmf.windowFirst n + n - 1)

/-- The page of the file that a page of the VMA maps. -/
def VmFault.filePage (vmf : VmFault) (page : Nat) : Nat :=
  vmf.vma.vmPgoff.toNat + (page - vmf.vmaFirst)

theorem VmFault.filePage_min (vmf : VmFault) (p q : Nat) :
    vmf.filePage (min p q) = min (vmf.filePage p) (vmf.filePage q) := by
  simp only [VmFault.filePage]
  omega

/-- The first page of the window, counted from the start of the page table. -/
theorem VmFault.windowFirst_slot {n : Nat} (hvma : vmf.vmaFirst ≤ vmf.page)
    (htable : vmf.table ≤ vmf.page) :
    max (vmf.block n - vmf.table) (vmf.page - vmf.table -
      min (vmf.page - vmf.table) (vmf.page - vmf.vmaFirst)) = vmf.windowFirst n - vmf.table := by
  have hslot : vmf.page - vmf.table - min (vmf.page - vmf.table) (vmf.page - vmf.vmaFirst) =
      vmf.vmaFirst - vmf.table := by
    omega
  rw [hslot, VmFault.windowFirst, Nat.sub_max_sub_right]

/-- The last page of the window, counted from the start of the page table. -/
theorem VmFault.windowLast_slot {n : Nat} (hfirst : vmf.table ≤ vmf.windowFirst n) (hn : 1 ≤ n)
    (hend : vmf.table < vmf.vmaEnd) :
    min (min (vmf.windowFirst n - vmf.table + n) 512) (vmf.vmaEnd - vmf.table) =
      vmf.windowLast n - vmf.table + 1 := by
  -- One limit after the other, as a number of pages.
  have htable : vmf.table + 511 - vmf.table + 1 = 512 := by omega
  have hvma : vmf.vmaEnd - 1 - vmf.table + 1 = vmf.vmaEnd - vmf.table := by omega
  have hwindow : vmf.windowFirst n + n - 1 - vmf.table + 1 = vmf.windowFirst n - vmf.table + n := by omega
  rw [VmFault.windowLast, ← Nat.sub_min_sub_right, ← Nat.sub_min_sub_right, ← Nat.add_min_add_right,
    ← Nat.add_min_add_right, htable, hvma, hwindow, Nat.min_assoc, Nat.min_comm]

/-- The result is the window of the fault, in pages of the file. -/
structure IsWindow (vmf : VmFault) (n : Nat) (r : Word × Word) : Prop where
  fst : r.1.toNat = vmf.filePage (vmf.windowFirst n)
  snd : r.2.toNat = vmf.filePage (vmf.windowLast n)

/-- There is only one window. -/
theorem IsWindow.eq {n : Nat} {r r' : Word × Word} (h : IsWindow vmf n r) (h' : IsWindow vmf n r') :
    r = r' :=
  Prod.ext (BitVec.eq_of_toNat_eq (h.fst.trans h'.fst.symm))
    (BitVec.eq_of_toNat_eq (h.snd.trans h'.snd.symm))

/-! ## Where a valid fault is

The bounds from which each difference and sum of the four versions is seen not to wrap. -/

theorem Valid.page_bounds (h : Valid vmf) :
    vmf.vmaFirst ≤ vmf.page ∧ vmf.page < vmf.vmaEnd ∧ vmf.vmaEnd < 2 ^ 52 := by
  have hend : 4096 * vmf.vmaEnd = vmf.vma.vmEnd.toNat := Nat.mul_div_cancel' (Nat.dvd_of_mod_eq_zero h.end_aligned)
  refine ⟨Nat.div_le_div_right h.start_le, ?_, ?_⟩
  · apply Nat.div_lt_of_lt_mul
    rw [hend]
    exact h.lt_end
  · apply Nat.div_lt_of_lt_mul
    exact vmf.vma.vmEnd.isLt

theorem Valid.toNat_vmaPages (h : Valid vmf) :
    (vmaPages vmf.vma).toNat = vmf.vmaEnd - vmf.vmaFirst := by
  have h₁ := h.nonempty
  have h₂ := h.start_aligned
  have h₃ := h.end_aligned
  rw [BitVec.lt_def] at h₁
  rw [vmaPages, toNat_shift, BitVec.toNat_sub_of_le (BitVec.le_def.mpr (by omega))]
  simp only [VmFault.vmaFirst, VmFault.vmaEnd]
  omega

theorem Valid.room (h : Valid vmf) :
    vmf.vma.vmPgoff.toNat + (vmf.vmaEnd - vmf.vmaFirst) + 512 ≤ 2 ^ 64 := by
  have := h.fits
  rwa [h.toNat_vmaPages] at this

/-- The page offset of the fault in its VMA. -/
theorem Valid.toNat_vmaOff (h : Valid vmf) :
    (vmf.pgoff - vmf.vma.vmPgoff).toNat = vmf.page - vmf.vmaFirst := by
  have h₁ := h.start_le
  have h₂ := h.start_aligned
  rw [h.pgoff, BitVec.add_comm, BitVec.add_sub_cancel, toNat_shift, BitVec.toNat_sub_of_le h₁]
  rw [BitVec.le_def] at h₁
  simp only [VmFault.vmaFirst, VmFault.page]
  omega

theorem Valid.toNat_pgoff (h : Valid vmf) : vmf.pgoff.toNat = vmf.filePage vmf.page := by
  have hoff := h.toNat_vmaOff
  have hroom := h.room
  obtain ⟨h₁, h₂, -⟩ := h.page_bounds
  have hsum : vmf.pgoff = vmf.vma.vmPgoff + (vmf.pgoff - vmf.vma.vmPgoff) := by
    rw [BitVec.add_comm, BitVec.sub_add_cancel]
  rw [hsum, BitVec.toNat_add, hoff, VmFault.filePage]
  exact Nat.mod_eq_of_lt (by omega)

/-- Where the fault is: in its VMA, in its block of `n` pages, and that in its page table. -/
structure Bounds (vmf : VmFault) (n : Nat) : Prop where
  vma_le : vmf.vmaFirst ≤ vmf.page
  lt_vma : vmf.page < vmf.vmaEnd
  top : vmf.vmaEnd < 2 ^ 52
  room : vmf.vma.vmPgoff.toNat + (vmf.vmaEnd - vmf.vmaFirst) + 512 ≤ 2 ^ 64
  pos : 1 ≤ n
  le : n ≤ 512
  block_le : vmf.block n ≤ vmf.page
  lt_block : vmf.page < vmf.block n + n
  table_le : vmf.table ≤ vmf.block n
  slot : vmf.page % 512 = vmf.page - vmf.table
  lt_table : vmf.page < vmf.table + 512
  slot_block : vmf.page % 512 / n * n = vmf.block n - vmf.table

theorem Valid.bounds {j : Nat} (h : Valid vmf) (hj : j ≤ 9) : Bounds vmf (2 ^ j) := by
  obtain ⟨h₁, h₂, h₃⟩ := h.page_bounds
  have hdvd : 2 ^ j ∣ 512 := Nat.pow_dvd_pow 2 hj
  have hlt := Nat.mod_lt vmf.page (Nat.two_pow_pos j)
  have hdiv := Nat.div_add_mod' vmf.page (2 ^ j)
  have hslot := Nat.div_add_mod' (vmf.page % 512) (2 ^ j)
  have htable := Nat.div_add_mod' vmf.page 512
  rw [Nat.mod_mod_of_dvd _ hdvd] at hslot
  have hmod : vmf.page % 2 ^ j ≤ vmf.page % 512 := by
    rw [← Nat.mod_mod_of_dvd _ hdvd]
    exact Nat.mod_le _ _
  refine ⟨h₁, h₂, h₃, h.room, Nat.two_pow_pos j, Nat.le_of_dvd (by omega) hdvd, ?_, ?_, ?_, ?_, ?_, ?_⟩
  all_goals
    simp only [VmFault.block, VmFault.table]
    omega

/-- `fault_around_bytes` in pages. -/
theorem AroundBytes.pages (h : AroundBytes bytes) :
    ∃ j ≤ 9, bytes.toNat = 2 ^ (j + 12) ∧ (bytes >>> pageShift).toNat = 2 ^ j := by
  obtain ⟨k, h₁, h₂, hk⟩ := h
  obtain ⟨j, rfl⟩ : ∃ j, k = j + 12 := ⟨k - 12, by omega⟩
  refine ⟨j, by omega, hk, ?_⟩
  rw [toNat_shift, hk, Nat.pow_add]
  exact Nat.mul_div_cancel _ (by decide)

/-- The window holds the fault and lies in its page table and its VMA. -/
theorem Bounds.window {n : Nat} (k : Bounds vmf n) :
    vmf.vmaFirst ≤ vmf.windowFirst n ∧ vmf.block n ≤ vmf.windowFirst n ∧
      vmf.windowFirst n ≤ vmf.page ∧ vmf.page ≤ vmf.windowLast n ∧
      vmf.windowLast n ≤ vmf.table + 511 ∧ vmf.windowLast n < vmf.vmaEnd ∧
      vmf.windowLast n < vmf.windowFirst n + n := by
  have := k.vma_le
  have := k.lt_vma
  have := k.pos
  have := k.block_le
  have := k.lt_block
  have := k.lt_table
  simp only [VmFault.windowFirst, VmFault.windowLast]
  omega

/-- A page of the window as a page of the file, computed from the fault's own page and counted from
any page `c` before both. -/
theorem Valid.toNat_shifted {c q : Nat} {x y : Word} (h : Valid vmf)
    (hx : x.toNat = q - c) (hy : y.toNat = vmf.page - c) (hc : c ≤ vmf.page ∧ c ≤ q)
    (hfirst : vmf.vmaFirst ≤ q) (hlast : q < vmf.vmaEnd) :
    (vmf.pgoff + x - y).toNat = vmf.filePage q := by
  obtain ⟨h₁, h₂, h₃⟩ := h.page_bounds
  have hroom := h.room
  have hpgoff := h.toNat_pgoff
  have hsum : vmf.pgoff.toNat + x.toNat - y.toNat = vmf.filePage q := by
    rw [hpgoff, hx, hy]
    simp only [VmFault.filePage]
    omega
  have hlt : vmf.filePage q < 2 ^ 64 := by
    rw [VmFault.filePage]
    omega
  rw [Lib.toNat_add_sub _ (hsum ▸ hlt), hsum]
  rw [hpgoff, hx, hy]
  simp only [VmFault.filePage]
  omega

/-! ## What the versions compute on the way

Variables of the source by name, each with the page number it stands for. -/

def fromPte (vmf : VmFault) (faultAroundBytes : Word) : Word :=
  FaultAround.max (alignDown (pteIndex vmf.address) (faultAroundBytes >>> pageShift))
    (pteIndex vmf.address - FaultAround.min (pteIndex vmf.address) (vmf.pgoff - vmf.vma.vmPgoff))

def toPte (vmf : VmFault) (faultAroundBytes : Word) : Word :=
  min3 (fromPte vmf faultAroundBytes + (faultAroundBytes >>> pageShift)) ptrsPerPte
    (pteIndex vmf.address + vmaPages vmf.vma - (vmf.pgoff - vmf.vma.vmPgoff)) - 1#64

theorem doFaultAroundTake2_eq (vmf : VmFault) (bytes : Word) : doFaultAroundTake2 vmf bytes =
    (vmf.pgoff + fromPte vmf bytes - pteIndex vmf.address,
      vmf.pgoff + toPte vmf bytes - pteIndex vmf.address) := rfl

/-- `first` of `take1`, clamped to the page table only. -/
def tableFirst (vmf : VmFault) : Word := (vmf.address >>> pageShift) - pteIndex vmf.address

/-- `first` of `take1`, in the end. -/
def take1First (vmf : VmFault) (faultAroundBytes : Word) : Word :=
  FaultAround.max (FaultAround.max (tableFirst vmf) (vmf.vma.vmStart >>> pageShift))
    (alignDown (vmf.address >>> pageShift) (faultAroundBytes >>> pageShift))

/-- `last` of `take1`, in the end. -/
def take1Last (vmf : VmFault) (faultAroundBytes : Word) : Word :=
  FaultAround.min (FaultAround.min (tableFirst vmf + ptrsPerPte - 1#64)
      ((vmf.vma.vmEnd >>> pageShift) - 1#64))
    (take1First vmf faultAroundBytes + (faultAroundBytes >>> pageShift) - 1#64)

theorem doFaultAroundTake1_eq (vmf : VmFault) (bytes : Word) : doFaultAroundTake1 vmf bytes =
    (vmf.pgoff + take1First vmf bytes - (vmf.address >>> pageShift),
      vmf.pgoff + take1Last vmf bytes - (vmf.address >>> pageShift)) := rfl

/-- `address` of the kernel's version. -/
def windowAddress (vmf : VmFault) (faultAroundBytes : Word) : Word :=
  FaultAround.max (vmf.address &&&
    (~~~((faultAroundBytes >>> pageShift) * pageSize - 1#64) &&& pageMask)) vmf.vma.vmStart

def startPgoff (vmf : VmFault) (faultAroundBytes : Word) : Word :=
  vmf.pgoff - (((vmf.address - windowAddress vmf faultAroundBytes) >>> pageShift) &&&
    (ptrsPerPte - 1#64))

theorem originalFaultAround_eq (vmf : VmFault) (bytes : Word) : originalFaultAround vmf bytes =
    (startPgoff vmf bytes,
      min3 (startPgoff vmf bytes - pteIndex (windowAddress vmf bytes) + ptrsPerPte - 1#64)
        (vmaPages vmf.vma + vmf.vma.vmPgoff - 1#64)
        (startPgoff vmf bytes + (bytes >>> pageShift) - 1#64)) := rfl

theorem toNat_tableFirst : (tableFirst vmf).toNat = vmf.table := by
  have hdiv := Nat.div_add_mod' vmf.page 512
  have hle : vmf.page % 512 ≤ vmf.page := Nat.mod_le _ _
  have hpte : (pteIndex vmf.address).toNat = vmf.page % 512 := toNat_pteIndex
  have hvirt : (vmf.address >>> pageShift).toNat = vmf.page := toNat_shift
  rw [tableFirst, Lib.toNat_sub_of_toNat_le (by rwa [hpte, hvirt]), hpte, hvirt, VmFault.table]
  omega

/-! ## The versions

Each of the four computes the window of the fault, so they agree. -/

section Versions

variable (h : Valid vmf) (hb : AroundBytes bytes)
include h hb

/-- The slot of the fault in its page table. -/
theorem toNat_pteOff : (pteIndex vmf.address).toNat = vmf.page - vmf.table := by
  obtain ⟨j, hj, -, -⟩ := hb.pages
  exact toNat_pteIndex.trans (h.bounds hj).slot

/-- The slot where the window begins. -/
theorem toNat_fromPte :
    (fromPte vmf bytes).toNat = vmf.windowFirst (bytes >>> pageShift).toNat - vmf.table := by
  have hpte := toNat_pteOff h hb
  obtain ⟨j, hj, -, hn⟩ := hb.pages
  have k := h.bounds hj
  have hmin : (FaultAround.min (pteIndex vmf.address) (vmf.pgoff - vmf.vma.vmPgoff)).toNat ≤
      (pteIndex vmf.address).toNat := by
    rw [toNat_min]
    exact Nat.min_le_left _ _
  have halign : (alignDown (pteIndex vmf.address) (bytes >>> pageShift)).toNat =
      vmf.block (2 ^ j) - vmf.table := by
    rw [toNat_alignDown hn, toNat_pteIndex]
    exact k.slot_block
  rw [fromPte, toNat_max, halign, Lib.toNat_sub_of_toNat_le hmin, toNat_min, hpte, h.toNat_vmaOff, hn]
  exact VmFault.windowFirst_slot k.vma_le (Nat.le_trans k.table_le k.block_le)

/-- The slots from the start of the page table to the end of the VMA. -/
theorem toNat_slotsLeft :
    (pteIndex vmf.address + vmaPages vmf.vma - (vmf.pgoff - vmf.vma.vmPgoff)).toNat =
      vmf.vmaEnd - vmf.table := by
  have hpte := toNat_pteOff h hb
  have hoff := h.toNat_vmaOff
  have hpages := h.toNat_vmaPages
  obtain ⟨h₁, h₂, h₃⟩ := h.page_bounds
  have htable : vmf.table ≤ vmf.page := Nat.div_mul_le_self _ _
  have hsum : (pteIndex vmf.address + vmaPages vmf.vma).toNat =
      vmf.page - vmf.table + (vmf.vmaEnd - vmf.vmaFirst) := by
    rw [BitVec.toNat_add_of_lt (by omega), hpte, hpages]
  rw [Lib.toNat_sub_of_toNat_le (by omega), hsum, hoff]
  omega

/-- The slot after the one where the window ends. -/
theorem toNat_pteEnd :
    (min3 (fromPte vmf bytes + (bytes >>> pageShift)) ptrsPerPte
      (pteIndex vmf.address + vmaPages vmf.vma - (vmf.pgoff - vmf.vma.vmPgoff))).toNat =
      vmf.windowLast (bytes >>> pageShift).toNat - vmf.table + 1 := by
  have hfrom := toNat_fromPte h hb
  have hleft := toNat_slotsLeft h hb
  obtain ⟨j, hj, -, hn⟩ := hb.pages
  rw [hn] at hfrom ⊢
  have k := h.bounds hj
  obtain ⟨-, hblock, hpage, -, -, -, -⟩ := k.window
  have hle := k.le
  have hlt := k.lt_vma
  have htop := k.top
  have hsum : (fromPte vmf bytes + (bytes >>> pageShift)).toNat =
      vmf.windowFirst (2 ^ j) - vmf.table + 2 ^ j := by
    rw [BitVec.toNat_add_of_lt (by omega), hfrom, hn]
  rw [toNat_min3, hsum, hleft]
  exact VmFault.windowLast_slot (Nat.le_trans k.table_le hblock) k.pos
    (Nat.lt_of_le_of_lt (Nat.le_trans k.table_le k.block_le) hlt)

/-- The slot where the window ends. -/
theorem toNat_toPte :
    (toPte vmf bytes).toNat = vmf.windowLast (bytes >>> pageShift).toNat - vmf.table :=
  Lib.toNat_pred (toNat_pteEnd h hb)

/-- `take2` works in slots of the page table. -/
theorem doFaultAroundTake2_isWindow :
    IsWindow vmf (bytes >>> pageShift).toNat (doFaultAroundTake2 vmf bytes) := by
  have hpte := toNat_pteOff h hb
  have hfrom := toNat_fromPte h hb
  have hto := toNat_toPte h hb
  obtain ⟨j, hj, -, hn⟩ := hb.pages
  rw [hn] at hfrom hto ⊢
  have k := h.bounds hj
  obtain ⟨w₁, w₂, w₃, w₄, w₅, w₆, -⟩ := k.window
  have htable := k.table_le
  have hlt := k.lt_vma
  rw [doFaultAroundTake2_eq]
  refine ⟨h.toNat_shifted hfrom hpte ?_ ?_ ?_, h.toNat_shifted hto hpte ?_ ?_ ?_⟩ <;> omega

/-- The final version is `take2`. -/
theorem doFaultAround_isWindow :
    IsWindow vmf (bytes >>> pageShift).toNat (doFaultAround vmf bytes) :=
  doFaultAroundTake2_isWindow h hb

/-- The window begins at the later of its block and its VMA; the page table begins before both. -/
theorem toNat_take1First :
    (take1First vmf bytes).toNat = vmf.windowFirst (bytes >>> pageShift).toNat := by
  obtain ⟨j, hj, -, hn⟩ := hb.pages
  have htable := (h.bounds hj).table_le
  have halign : (alignDown (vmf.address >>> pageShift) (bytes >>> pageShift)).toNat =
      vmf.block (2 ^ j) := by
    rw [toNat_alignDown hn, toNat_shift]
    rfl
  rw [take1First, toNat_max, toNat_max, toNat_tableFirst, toNat_shift, halign, hn]
  rw [VmFault.windowFirst, VmFault.vmaFirst]
  omega

theorem toNat_take1Last :
    (take1Last vmf bytes).toNat = vmf.windowLast (bytes >>> pageShift).toNat := by
  have hfirst := toNat_take1First h hb
  obtain ⟨j, hj, -, hn⟩ := hb.pages
  have k := h.bounds hj
  have hpos := k.pos
  have hle := k.le
  have hvma := k.lt_vma
  have htop := k.top
  have hpage : vmf.table ≤ vmf.page := Nat.div_mul_le_self _ _
  obtain ⟨-, -, hwindow, -⟩ := k.window
  rw [hn] at hfirst ⊢
  have htable : (tableFirst vmf + ptrsPerPte - 1#64).toNat = vmf.table + 511 := by
    have hptrs : ptrsPerPte.toNat = 511 + 1 := rfl
    apply Lib.toNat_add_pred
    · rw [toNat_tableFirst, hptrs, Nat.add_assoc]
    · omega
  have hend : ((vmf.vma.vmEnd >>> pageShift) - 1#64).toNat = vmf.vmaEnd - 1 := by
    apply Lib.toNat_pred
    rw [toNat_shift]
    exact (Nat.sub_add_cancel (Nat.lt_of_le_of_lt (Nat.zero_le _) hvma)).symm
  have hbytes : (take1First vmf bytes + (bytes >>> pageShift) - 1#64).toNat =
      vmf.windowFirst (2 ^ j) + 2 ^ j - 1 := by
    apply Lib.toNat_add_pred
    · rw [hfirst, hn]
      omega
    · omega
  rw [take1Last, toNat_min, toNat_min, htable, hend, hbytes, VmFault.windowLast]

/-- `take1` works in pages of the address space. -/
theorem doFaultAroundTake1_isWindow :
    IsWindow vmf (bytes >>> pageShift).toNat (doFaultAroundTake1 vmf bytes) := by
  have hfirst := toNat_take1First h hb
  have hlast := toNat_take1Last h hb
  have hvirt : (vmf.address >>> pageShift).toNat = vmf.page := toNat_shift
  obtain ⟨j, hj, -, hn⟩ := hb.pages
  rw [hn] at hfirst hlast ⊢
  have k := h.bounds hj
  obtain ⟨w₁, -, w₃, w₄, -, w₆, -⟩ := k.window
  have hlt := k.lt_vma
  rw [doFaultAroundTake1_eq]
  refine ⟨h.toNat_shifted (c := 0) hfirst hvirt ?_ ?_ ?_,
    h.toNat_shifted (c := 0) hlast hvirt ?_ ?_ ?_⟩ <;> omega

/-- The address the kernel's version starts from: the first page of the window. -/
theorem toNat_windowAddress :
    (windowAddress vmf bytes).toNat = vmf.windowFirst (bytes >>> pageShift).toNat * 4096 := by
  obtain ⟨j, hj, hk, hn⟩ := hb.pages
  have hstart := h.start_aligned
  have hbytes : ((bytes >>> pageShift) * pageSize).toNat = 2 ^ (j + 12) := by
    have hlt := bytes.isLt
    have hsize : pageSize.toNat = 2 ^ 12 := rfl
    rw [BitVec.toNat_mul, hn, hsize, ← Nat.pow_add]
    rw [hk] at hlt
    exact Nat.mod_eq_of_lt hlt
  -- Two masks one after the other; the second, a coarser block, decides.
  rw [windowAddress, toNat_max, ← BitVec.and_assoc, pageMask,
    Lib.toNat_and_not_sub_one (k := 12) rfl, Lib.toNat_and_not_sub_one hbytes, hn]
  have hdiv := Nat.div_add_mod' vmf.address.toNat (2 ^ (j + 12))
  have hblock : vmf.address.toNat - vmf.address.toNat % 2 ^ (j + 12) = vmf.block (2 ^ j) * 4096 := by
    have hpow : 2 ^ (j + 12) = 4096 * 2 ^ j := by
      rw [Nat.pow_add, Nat.mul_comm]
    rw [VmFault.block, VmFault.page, Nat.div_div_eq_div_mul, ← hpow, Nat.mul_assoc,
      Nat.mul_comm (2 ^ j), ← hpow]
    omega
  rw [hblock]
  simp only [VmFault.windowFirst, VmFault.vmaFirst]
  omega

/-- The slot where the window begins, from its address. -/
theorem toNat_windowSlot :
    (pteIndex (windowAddress vmf bytes)).toNat =
      vmf.windowFirst (bytes >>> pageShift).toNat - vmf.table := by
  have haddr := toNat_windowAddress h hb
  obtain ⟨j, hj, -, hn⟩ := hb.pages
  have k := h.bounds hj
  have hslot := k.slot
  have hblock := k.table_le
  obtain ⟨-, w₂, w₃, -⟩ := k.window
  rw [toNat_pteIndex, haddr, Nat.mul_div_cancel _ (by decide), hn]
  simp only [VmFault.table] at *
  omega

/-- The kernel's version counts the pages between the start of the window and the fault. -/
theorem toNat_startPgoff :
    (startPgoff vmf bytes).toNat = vmf.filePage (vmf.windowFirst (bytes >>> pageShift).toNat) := by
  have haddr := toNat_windowAddress h hb
  have hpgoff := h.toNat_pgoff
  have hroom := h.room
  obtain ⟨j, hj, -, hn⟩ := hb.pages
  rw [hn] at haddr ⊢
  have k := h.bounds hj
  have hle := k.le
  have hlt := k.lt_block
  obtain ⟨w₁, w₂, w₃, -⟩ := k.window
  have hpage : vmf.address.toNat / 4096 = vmf.page := rfl
  have hoff : (((vmf.address - windowAddress vmf bytes) >>> pageShift) &&&
      (ptrsPerPte - 1#64)).toNat = vmf.page - vmf.windowFirst (2 ^ j) := by
    rw [toNat_and_ptrs, toNat_shift, Lib.toNat_sub_of_toNat_le (by omega), haddr]
    omega
  rw [VmFault.filePage] at hpgoff ⊢
  rw [startPgoff, Lib.toNat_sub_of_toNat_le (by omega), hpgoff, hoff]
  omega

/-- The kernel's version works with addresses and pages of the file. -/
theorem originalFaultAround_isWindow :
    IsWindow vmf (bytes >>> pageShift).toNat (originalFaultAround vmf bytes) := by
  have hfirst := toNat_startPgoff h hb
  have hslot := toNat_windowSlot h hb
  have hroom := h.room
  have hptrs : ptrsPerPte.toNat = 512 := rfl
  obtain ⟨j, hj, -, hn⟩ := hb.pages
  rw [hn] at hfirst hslot ⊢
  have k := h.bounds hj
  have hpos := k.pos
  have hle := k.le
  have hlt := k.lt_vma
  have hblock := k.table_le
  have htop := k.lt_table
  obtain ⟨w₁, w₂, w₃, -⟩ := k.window
  have hfile : vmf.filePage (vmf.windowFirst (2 ^ j)) =
      vmf.vma.vmPgoff.toNat + (vmf.windowFirst (2 ^ j) - vmf.vmaFirst) := rfl
  -- Going back to the start of the page table may wrap, but not with the page table added.
  have htable : (startPgoff vmf bytes - pteIndex (windowAddress vmf bytes) + ptrsPerPte - 1#64).toNat =
      vmf.filePage (vmf.table + 511) := by
    apply Lib.toNat_pred
    rw [VmFault.filePage, Lib.toNat_sub_add, hfirst, hslot, hptrs, hfile] <;> omega
  have hvma : (vmaPages vmf.vma + vmf.vma.vmPgoff - 1#64).toNat = vmf.filePage (vmf.vmaEnd - 1) := by
    rw [VmFault.filePage]
    apply Lib.toNat_add_pred
    · rw [h.toNat_vmaPages]
      omega
    · omega
  have hwindow : (startPgoff vmf bytes + (bytes >>> pageShift) - 1#64).toNat =
      vmf.filePage (vmf.windowFirst (2 ^ j) + 2 ^ j - 1) := by
    rw [VmFault.filePage]
    apply Lib.toNat_add_pred
    · rw [hfirst, hn, hfile]
      omega
    · omega
  rw [originalFaultAround_eq]
  refine ⟨hfirst, ?_⟩
  rw [toNat_min3, htable, hvma, hwindow, VmFault.windowLast, VmFault.filePage_min, VmFault.filePage_min]

end Versions

/-- **The versions agree**: on every valid fault, all four return the same two pages. -/
theorem fault_around_agree (h : Valid vmf) (hb : AroundBytes bytes) :
    originalFaultAround vmf bytes = doFaultAround vmf bytes ∧
      doFaultAroundTake1 vmf bytes = doFaultAround vmf bytes ∧
      doFaultAroundTake2 vmf bytes = doFaultAround vmf bytes :=
  have hwin := doFaultAround_isWindow h hb
  ⟨(originalFaultAround_isWindow h hb).eq hwin, (doFaultAroundTake1_isWindow h hb).eq hwin,
    (doFaultAroundTake2_isWindow h hb).eq hwin⟩

/-- The last page of a VMA of three, in the middle of a page table, with the default of 64K. -/
theorem fault_around_agree_example :
    let vmf : VmFault := ⟨0x700105abc#64, ⟨0x700103000#64, 0x700106000#64, 7#64⟩, 9#64⟩
    originalFaultAround vmf 0x10000#64 = doFaultAround vmf 0x10000#64 ∧
      doFaultAroundTake1 vmf 0x10000#64 = doFaultAround vmf 0x10000#64 ∧
      doFaultAroundTake2 vmf 0x10000#64 = doFaultAround vmf 0x10000#64 :=
  fault_around_agree ⟨by decide, by decide, by decide, by decide, by decide, by decide, by decide⟩
    ⟨16, by decide, by decide, by decide⟩

end MmExper.FaultAround
