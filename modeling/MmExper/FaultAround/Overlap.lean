import MmExper.FaultAround.Window

/-!
# Two faults of one VMA

Faults in one aligned block have one window. The windows of different blocks are disjoint, with one
exception: in the block that the VMA begins in the middle of, a window has its full size and reaches into the
next block.
-/

namespace MmExper.FaultAround

variable {vmf vmf' : VmFault} {bytes : Word} {n q : Nat}

def InWindow (r : Word × Word) (q : Nat) : Prop := r.1.toNat ≤ q ∧ q ≤ r.2.toNat

/-- A later block is the next one, or begins behind it. -/
theorem VmFault.block_step (h : vmf.page ≤ vmf'.page) (hne : vmf.block n ≠ vmf'.block n) :
    vmf'.block n = vmf.block n + n ∨ vmf.block n + 2 * n ≤ vmf'.block n := by
  have hle : vmf.page / n ≤ vmf'.page / n := Nat.div_le_div_right h
  have hlt : vmf.page / n < vmf'.page / n := by
    apply Nat.lt_of_le_of_ne hle
    intro e
    exact hne (congrArg (· * n) e)
  simp only [VmFault.block]
  rcases Nat.eq_or_lt_of_le hlt with hnext | hlt
  · left
    rw [← hnext, Nat.succ_mul]
  · right
    rw [← Nat.add_mul]
    exact Nat.mul_le_mul_right n hlt

section Windows

variable (k : Bounds vmf n) (hvma : vmf.vma = vmf'.vma)
include k hvma

theorem VmFault.windows_eq (k' : Bounds vmf' n) (he : vmf.block n = vmf'.block n) :
    vmf.windowFirst n = vmf'.windowFirst n ∧ vmf.windowLast n = vmf'.windowLast n := by
  have hfirst : vmf.vmaFirst = vmf'.vmaFirst := by rw [VmFault.vmaFirst, VmFault.vmaFirst, hvma]
  have hend : vmf.vmaEnd = vmf'.vmaEnd := by rw [VmFault.vmaEnd, VmFault.vmaEnd, hvma]
  -- A block does not cross the border of a page table.
  have htable : vmf.table = vmf'.table := by
    have h₁ := k.table_le
    have h₂ := k'.table_le
    have h₃ := k.lt_table
    have h₄ := k'.lt_table
    have h₅ := k.block_le
    have h₆ := k'.block_le
    simp only [VmFault.table] at h₁ h₂ h₃ h₄ ⊢
    omega
  have hsame : vmf.windowFirst n = vmf'.windowFirst n := by
    rw [VmFault.windowFirst, VmFault.windowFirst, he, hfirst]
  refine ⟨hsame, ?_⟩
  rw [VmFault.windowLast, VmFault.windowLast, htable, hend, hsame]

/-- The later window begins at its block. -/
theorem VmFault.windowFirst_later (hstep : vmf.block n + n ≤ vmf'.block n) :
    vmf'.windowFirst n = vmf'.block n := by
  have hfirst : vmf.vmaFirst = vmf'.vmaFirst := by rw [VmFault.vmaFirst, VmFault.vmaFirst, hvma]
  have hvmale := k.vma_le
  have hblock := k.lt_block
  rw [VmFault.windowFirst]
  omega

/-- The earlier window reaches it only from a block that the VMA begins in the middle of. -/
theorem VmFault.reaches_iff (k' : Bounds vmf' n)
    (hstep : vmf'.block n = vmf.block n + n ∨ vmf.block n + 2 * n ≤ vmf'.block n) :
    vmf'.block n ≤ vmf.windowLast n ↔
      vmf.block n < vmf.vmaFirst ∧ vmf'.block n = vmf.block n + n ∧ vmf'.table = vmf.table := by
  have hend : vmf.vmaEnd = vmf'.vmaEnd := by rw [VmFault.vmaEnd, VmFault.vmaEnd, hvma]
  have h₁ := k.vma_le
  have h₂ := k.lt_block
  have h₃ := k.pos
  have h₄ := k'.lt_vma
  have h₅ := k'.block_le
  have h₆ := k'.table_le
  have h₇ := k'.lt_table
  have h₈ := k.block_le
  have h₉ := k.table_le
  have h₁₀ := k.lt_table
  simp only [VmFault.windowLast, VmFault.windowFirst]
  -- Page tables are blocks of a fixed size.
  have htables : vmf'.block n ≤ vmf.table + 511 ↔ vmf'.table = vmf.table := by
    simp only [VmFault.table] at h₆ h₇ h₉ h₁₀ ⊢
    omega
  omega

end Windows

/-- **Windows overlap only next to a ragged start.** Two faults of one VMA have the same window if and only if
they are in the same aligned block. If they are not, a page is in both windows exactly if the VMA begins
in the middle of the first fault's block, the other block is the next one, and one page table has both. -/
theorem windows_overlap (h : Valid vmf) (h' : Valid vmf') (hvma : vmf.vma = vmf'.vma)
    (hb : AroundBytes bytes) (hle : vmf.page ≤ vmf'.page) (hn : (bytes >>> pageShift).toNat = n) :
    (doFaultAround vmf bytes = doFaultAround vmf' bytes ↔ vmf.block n = vmf'.block n) ∧
    (vmf.block n ≠ vmf'.block n →
      ((∃ q, InWindow (doFaultAround vmf bytes) q ∧ InWindow (doFaultAround vmf' bytes) q) ↔
        vmf.block n < vmf.vmaFirst ∧ vmf'.block n = vmf.block n + n ∧ vmf'.table = vmf.table)) := by
  obtain ⟨j, hj, -, hpages⟩ := hb.pages
  obtain rfl : 2 ^ j = n := hpages.symm.trans hn
  have k := h.bounds hj
  have k' := h'.bounds hj
  have hw := doFaultAround_isWindow h hb
  have hw' := doFaultAround_isWindow h' hb
  rw [hpages] at hw hw'
  obtain ⟨hv₁, -, hv₂, hv₃, -⟩ := k.window
  obtain ⟨hv₁', -, hv₂', hv₃', -⟩ := k'.window
  -- Both faults see the file in the same way.
  have hfile : ∀ p, vmf'.filePage p = vmf.filePage p := by
    intro p
    rw [VmFault.filePage, VmFault.filePage, VmFault.vmaFirst, VmFault.vmaFirst, hvma]
  have hfirst : vmf.vmaFirst = vmf'.vmaFirst := by rw [VmFault.vmaFirst, VmFault.vmaFirst, hvma]
  have hne : vmf.block (2 ^ j) ≠ vmf'.block (2 ^ j) → vmf'.windowFirst (2 ^ j) = vmf'.block (2 ^ j) ∧
      vmf.windowFirst (2 ^ j) < vmf'.block (2 ^ j) := by
    intro hblocks
    have hstep := VmFault.block_step hle hblocks
    have hpos := k.pos
    have hlt := k.lt_block
    exact ⟨VmFault.windowFirst_later k hvma (by omega), by omega⟩
  refine ⟨⟨?_, ?_⟩, ?_⟩
  · intro he
    by_contra hblocks
    obtain ⟨hlater, hlt⟩ := hne hblocks
    have hfst := hw.fst
    rw [he, hw'.fst, hfile, VmFault.filePage, VmFault.filePage] at hfst
    omega
  · intro he
    obtain ⟨he₁, he₂⟩ := VmFault.windows_eq k hvma k' he
    apply hw.eq
    exact ⟨by rw [hw'.fst, hfile, he₁], by rw [hw'.snd, hfile, he₂]⟩
  · intro hblocks
    obtain ⟨hlater, hlt⟩ := hne hblocks
    rw [← VmFault.reaches_iff k hvma k' (VmFault.block_step hle hblocks)]
    simp only [InWindow, hw.fst, hw.snd, hw'.fst, hw'.snd, hfile, hlater]
    simp only [VmFault.filePage]
    constructor
    · rintro ⟨q, ⟨-, hq₁⟩, hq₂, -⟩
      omega
    · intro hreach
      exact ⟨_, ⟨by omega, Nat.add_le_add_left (Nat.sub_le_sub_right hreach _) _⟩, Nat.le_refl _, by omega⟩

/-- A VMA that begins at the third page of a block of eight, with a fault in it and one in the next block. -/
theorem windows_overlap_ragged :
    ∃ q, InWindow (doFaultAround ⟨0x703000#64, ⟨0x702000#64, 0x71d000#64, 0#64⟩, 1#64⟩ 0x8000#64) q ∧
      InWindow (doFaultAround ⟨0x70b000#64, ⟨0x702000#64, 0x71d000#64, 0#64⟩, 9#64⟩ 0x8000#64) q := by
  have h : Valid ⟨0x703000#64, ⟨0x702000#64, 0x71d000#64, 0#64⟩, 1#64⟩ :=
    ⟨by decide, by decide, by decide, by decide, by decide, by decide, by decide⟩
  have h' : Valid ⟨0x70b000#64, ⟨0x702000#64, 0x71d000#64, 0#64⟩, 9#64⟩ :=
    ⟨by decide, by decide, by decide, by decide, by decide, by decide, by decide⟩
  have hb : AroundBytes 0x8000#64 := ⟨15, by decide, by decide, by decide⟩
  have hn : (0x8000#64 >>> pageShift).toNat = 8 := by decide
  exact ((windows_overlap h h' rfl hb (by decide) hn).2 (by decide)).mpr (by decide)

end MmExper.FaultAround
