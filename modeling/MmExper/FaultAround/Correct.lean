import MmExper.FaultAround.Window
import Mathlib.Order.Bounds.Basic

/-!
# What the window is for

The window stated without saying how it is computed. A page `q` of the file stands for one address of
the VMA. A range of pages may be mapped for a fault if it keeps four limits (`Fits`); `do_fault_around()`
begins with the first page of the VMA in the fault's aligned block and goes on as far as the limits
allow. On the way none of its unsigned differences wraps.
-/

namespace MmExper.FaultAround

variable {vmf : VmFault} {bytes : Word} {q : Nat}

/-- The address the VMA maps the page `q` of the file to. -/
def VmFault.addr (vmf : VmFault) (q : Nat) : Nat :=
  vmf.vma.vmStart.toNat + (q - vmf.vma.vmPgoff.toNat) * 4096

def VmFault.InVma (vmf : VmFault) (q : Nat) : Prop :=
  vmf.vma.vmPgoff.toNat ≤ q ∧ q < vmf.vma.vmPgoff.toNat + (vmaPages vmf.vma).toNat

/-- What a range of file pages has to keep to, to be mapped for the fault. -/
structure Fits (vmf : VmFault) (bytes : Word) (first last : Nat) : Prop where
  fault : first ≤ vmf.pgoff.toNat ∧ vmf.pgoff.toNat ≤ last
  vma : ∀ q, first ≤ q → q ≤ last → vmf.InVma q
  span : last + 1 - first ≤ (bytes >>> pageShift).toNat
  /-- One page table: the same block of `PTRS_PER_PTE` pages as the fault. -/
  table : ∀ q, first ≤ q → q ≤ last →
    vmf.addr q / 4096 / ptrsPerPte.toNat = vmf.address.toNat / 4096 / ptrsPerPte.toNat

/-- The unsigned differences of `do_fault_around()`, each with nothing to borrow. -/
structure NoUnderflow (vmf : VmFault) (bytes : Word) : Prop where
  before : FaultAround.min (pteIndex vmf.address) (vmf.pgoff - vmf.vma.vmPgoff) ≤ pteIndex vmf.address
  after : vmf.pgoff - vmf.vma.vmPgoff ≤ pteIndex vmf.address + vmaPages vmf.vma
  slot : 1#64 ≤ min3 (fromPte vmf bytes + (bytes >>> pageShift)) ptrsPerPte
    (pteIndex vmf.address + vmaPages vmf.vma - (vmf.pgoff - vmf.vma.vmPgoff))
  first : pteIndex vmf.address ≤ vmf.pgoff + fromPte vmf bytes
  last : pteIndex vmf.address ≤ vmf.pgoff + toPte vmf bytes

/-- The range of file pages `r` is the window of the fault. -/
structure Correct (vmf : VmFault) (bytes : Word) (r : Word × Word) : Prop where
  fits : Fits vmf bytes r.1.toNat r.2.toNat
  /-- It begins with the first page of the VMA in the aligned block of `bytes` bytes around the fault. -/
  first : IsLeast {q | vmf.InVma q ∧ vmf.addr q / bytes.toNat = vmf.address.toNat / bytes.toNat} r.1.toNat
  /-- It ends with the last page that the limits allow then. -/
  last : IsGreatest {q | Fits vmf bytes r.1.toNat q} r.2.toNat

/-! ## Pages of the file and pages of the address space

The file is mapped in order: going over to page numbers of the address space, the four limits become
bounds of an interval. -/

section Pages

variable (h : Valid vmf)
include h

/-- The page an address is in, counted like the VMA's pages. -/
theorem Valid.addr_page :
    vmf.addr q / 4096 = vmf.vmaFirst + (q - vmf.vma.vmPgoff.toNat) := by
  have h₁ := h.start_aligned
  rw [VmFault.addr, Nat.add_mul_div_right _ _ (by decide), VmFault.vmaFirst]

theorem Valid.filePage_addr {p : Nat} (h₁ : vmf.vmaFirst ≤ p) :
    vmf.addr (vmf.filePage p) / 4096 = p := by
  rw [h.addr_page, VmFault.filePage]
  omega

/-- The VMA's pages of the file are those of its pages. -/
theorem Valid.inVma_iff :
    vmf.InVma q ↔ ∃ p, vmf.vmaFirst ≤ p ∧ p < vmf.vmaEnd ∧ q = vmf.filePage p := by
  obtain ⟨h₁, h₂, -⟩ := h.page_bounds
  rw [VmFault.InVma, h.toNat_vmaPages]
  constructor
  · rintro ⟨h₃, h₄⟩
    refine ⟨vmf.vmaFirst + (q - vmf.vma.vmPgoff.toNat), by omega, by omega, ?_⟩
    rw [VmFault.filePage]
    omega
  · rintro ⟨p, h₃, h₄, rfl⟩
    rw [VmFault.filePage]
    omega

end Pages

theorem VmFault.filePage_le {p p' : Nat} (h : vmf.vmaFirst ≤ p) (h' : vmf.vmaFirst ≤ p') :
    vmf.filePage p ≤ vmf.filePage p' ↔ p ≤ p' := by
  simp only [VmFault.filePage]
  omega

/-- The same aligned block, by the address and by the page. -/
theorem same_block {a n : Nat} (hn : 1 ≤ n) :
    a / (n * 4096) = vmf.address.toNat / (n * 4096) ↔
      vmf.block n ≤ a / 4096 ∧ a / 4096 < vmf.block n + n := by
  rw [Nat.mul_comm, ← Nat.div_div_eq_div_mul, ← Nat.div_div_eq_div_mul, Nat.div_eq_iff hn,
    VmFault.block, VmFault.page]
  omega

/-! ## The window of `do_fault_around()`

The limits and the block of the fault are intervals of pages, and the window ends where they do. -/

section Window

variable (h : Valid vmf)
include h

/-- The limits, in pages of the address space. -/
theorem fits_iff {p p' : Nat} (h₁ : vmf.vmaFirst ≤ p) (h₂ : vmf.vmaFirst ≤ p') :
    Fits vmf bytes (vmf.filePage p) (vmf.filePage p') ↔
      (p ≤ vmf.page ∧ vmf.page ≤ p') ∧ p' < vmf.vmaEnd ∧ p' + 1 - p ≤ (bytes >>> pageShift).toNat ∧
        vmf.table ≤ p ∧ p' < vmf.table + 512 := by
  obtain ⟨hv₁, hv₂, -⟩ := h.page_bounds
  have hptrs : ptrsPerPte.toNat = 512 := rfl
  -- One page table, by the page.
  have htable : ∀ r, vmf.vmaFirst ≤ r → (vmf.addr (vmf.filePage r) / 4096 / ptrsPerPte.toNat =
      vmf.address.toNat / 4096 / ptrsPerPte.toNat ↔ vmf.table ≤ r ∧ r < vmf.table + 512) := by
    intro r hr
    rw [h.filePage_addr hr, hptrs, Nat.div_eq_iff (by decide), VmFault.table, VmFault.page]
    omega
  constructor
  · intro k
    obtain ⟨h₃, h₄⟩ := k.fault
    rw [h.toNat_pgoff, VmFault.filePage_le h₁ hv₁] at h₃
    rw [h.toNat_pgoff, VmFault.filePage_le hv₁ h₂] at h₄
    have hle : vmf.filePage p ≤ vmf.filePage p' := (VmFault.filePage_le h₁ h₂).mpr (Nat.le_trans h₃ h₄)
    have hspan := k.span
    have hp := (htable p h₁).mp (k.table _ (Nat.le_refl _) hle)
    have hp' := (htable p' h₂).mp (k.table _ hle (Nat.le_refl _))
    obtain ⟨r, hr₁, hr₂, hr₃⟩ := h.inVma_iff.mp (k.vma _ hle (Nat.le_refl _))
    simp only [VmFault.filePage] at hspan hr₃
    exact ⟨⟨h₃, h₄⟩, by omega, by omega, hp.1, hp'.2⟩
  · rintro ⟨⟨h₃, h₄⟩, h₅, h₆, h₇, h₈⟩
    -- A page of the file in between is that of a page in between.
    have hmid : ∀ q, vmf.filePage p ≤ q → q ≤ vmf.filePage p' →
        ∃ r, p ≤ r ∧ r ≤ p' ∧ q = vmf.filePage r := by
      intro q hq₁ hq₂
      refine ⟨vmf.vmaFirst + (q - vmf.vma.vmPgoff.toNat), ?_, ?_, ?_⟩ <;>
        simp only [VmFault.filePage] at * <;> omega
    refine ⟨?_, ?_, ?_, ?_⟩
    · rw [h.toNat_pgoff, VmFault.filePage_le h₁ hv₁, VmFault.filePage_le hv₁ h₂]
      exact ⟨h₃, h₄⟩
    · intro q hq₁ hq₂
      obtain ⟨r, hr₁, hr₂, rfl⟩ := hmid q hq₁ hq₂
      exact h.inVma_iff.mpr ⟨r, by omega, by omega, rfl⟩
    · simp only [VmFault.filePage]
      omega
    · intro q hq₁ hq₂
      obtain ⟨r, hr₁, hr₂, rfl⟩ := hmid q hq₁ hq₂
      exact (htable r (by omega)).mpr ⟨by omega, by omega⟩

variable (hb : AroundBytes bytes)
include hb

theorem noUnderflow : NoUnderflow vmf bytes := by
  have hpte := toNat_pteOff h hb
  have hoff := h.toNat_vmaOff
  have hpages := h.toNat_vmaPages
  have hend := toNat_pteEnd h hb
  have hfrom := toNat_fromPte h hb
  have hto := toNat_toPte h hb
  have hroom := h.room
  obtain ⟨h₁, h₂, h₃⟩ := h.page_bounds
  have hfile := h.toNat_pgoff
  obtain ⟨j, hj, -, hn⟩ := hb.pages
  rw [hn] at hfrom hto hend
  have k := h.bounds hj
  obtain ⟨w₁, w₂, w₃, w₄, w₅, -, -⟩ := k.window
  have htable := k.table_le
  rw [VmFault.filePage] at hfile
  refine ⟨?_, ?_, ?_, ?_, ?_⟩
  · rw [BitVec.le_def, toNat_min]
    exact Nat.min_le_left _ _
  · rw [BitVec.le_def, BitVec.toNat_add_of_lt (by omega)]
    omega
  · rw [BitVec.le_def, hend]
    exact Nat.le_add_left _ _
  · rw [BitVec.le_def, BitVec.toNat_add_of_lt (by omega)]
    omega
  · rw [BitVec.le_def, BitVec.toNat_add_of_lt (by omega)]
    omega

/-- A window is what it is for. -/
theorem IsWindow.correct {r : Word × Word} (k : IsWindow vmf (bytes >>> pageShift).toNat r) :
    Correct vmf bytes r := by
  obtain ⟨k₁, k₂⟩ := k
  have hfits : ∀ p p', _ := fun p p' => @fits_iff vmf bytes h p p'
  obtain ⟨j, hj, hbytes, hn⟩ := hb.pages
  rw [hn] at k₁ k₂
  have b := h.bounds hj
  obtain ⟨w₁, w₂, w₃, w₄, w₅, w₆, w₇⟩ := b.window
  have hlimits : Fits vmf bytes r.1.toNat r.2.toNat := by
    rw [k₁, k₂, hfits _ _ w₁ (by omega), hn]
    have := b.table_le
    omega
  have hsize : bytes.toNat = 2 ^ j * 4096 := by
    rw [hbytes, Nat.pow_add]
  refine ⟨hlimits, ⟨⟨?_, ?_⟩, ?_⟩, ⟨hlimits, ?_⟩⟩
  · exact hlimits.vma _ (Nat.le_refl _) (Nat.le_trans hlimits.fault.1 hlimits.fault.2)
  · rw [hsize, same_block b.pos, k₁, h.filePage_addr w₁]
    have := b.lt_block
    omega
  · -- Any other page of the VMA in the block comes later.
    rintro q ⟨hq, hblock⟩
    obtain ⟨p, hp₁, hp₂, rfl⟩ := h.inVma_iff.mp hq
    rw [hsize, same_block b.pos, h.filePage_addr hp₁] at hblock
    rw [k₁, VmFault.filePage_le w₁ hp₁, VmFault.windowFirst]
    exact Nat.max_le.mpr ⟨hblock.1, hp₁⟩
  · -- A range that keeps the limits ends no later.
    intro q hq
    have hq : Fits vmf bytes r.1.toNat q := hq
    obtain ⟨p, hp₁, hp₂, rfl⟩ := h.inVma_iff.mp
      (hq.vma q (Nat.le_trans hq.fault.1 hq.fault.2) (Nat.le_refl _))
    rw [k₁, hfits _ _ w₁ hp₁, hn] at hq
    rw [k₂, VmFault.filePage_le hp₁ (by omega), VmFault.windowLast]
    omega

end Window

/-- **The fault-around window is correct.** -/
theorem do_fault_around_correct (h : Valid vmf) (hb : AroundBytes bytes) :
    NoUnderflow vmf bytes ∧ Correct vmf bytes (doFaultAround vmf bytes) :=
  ⟨noUnderflow h hb, (doFaultAround_isWindow h hb).correct h hb⟩

/-- A VMA of three pages that begins inside the aligned block of the fault. -/
theorem do_fault_around_correct_example :
    let vmf : VmFault := ⟨0x700105abc#64, ⟨0x700103000#64, 0x700106000#64, 7#64⟩, 9#64⟩
    NoUnderflow vmf 0x10000#64 ∧ Correct vmf 0x10000#64 (doFaultAround vmf 0x10000#64) :=
  do_fault_around_correct ⟨by decide, by decide, by decide, by decide, by decide, by decide, by decide⟩
    ⟨16, by decide, by decide, by decide⟩

end MmExper.FaultAround
