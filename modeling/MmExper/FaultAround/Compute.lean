import MmExper.Bitwise

/-!
# The four versions of `do_fault_around()`

A page fault maps not just its own page but the pages around it, as many as `fault_around_bytes`
allows, within the VMA and within one page table. `fault_around.cc` holds the kernel's computation of
the first and the last page and three rewrites of it. An `unsigned long` is a `Word` and wraps.
-/

namespace MmExper.FaultAround

abbrev pageShift : Nat := 12
def pageSize : Word := 1#64 <<< pageShift
def pageMask : Word := ~~~(pageSize - 1#64)
def ptrsPerPte : Word := 512#64

protected def max (x y : Word) : Word := if x > y then x else y
protected def min (x y : Word) : Word := if x < y then x else y
def min3 (x y z : Word) : Word := FaultAround.min (FaultAround.min x y) z

def alignKernelMask (x mask : Word) : Word := (x + mask) &&& ~~~mask
def alignKernel (x a : Word) : Word := alignKernelMask x (a - 1#64)
def alignDown (x a : Word) : Word := alignKernel (x - (a - 1#64)) a

def pteIndex (address : Word) : Word := (address >>> pageShift) &&& (ptrsPerPte - 1#64)

structure VmAreaStruct where
  vmStart : Word
  vmEnd : Word
  vmPgoff : Word

structure VmFault where
  address : Word
  vma : VmAreaStruct
  pgoff : Word

def vmaPages (vma : VmAreaStruct) : Word := (vma.vmEnd - vma.vmStart) >>> pageShift

def originalFaultAround (vmf : VmFault) (faultAroundBytes : Word) : Word × Word :=
  let nrPages := faultAroundBytes >>> pageShift
  let mask := ~~~(nrPages * pageSize - 1#64) &&& pageMask
  let address := FaultAround.max (vmf.address &&& mask) vmf.vma.vmStart
  -- An `int` between 0 and 511, so it is the same number as an `unsigned long`.
  let off := ((vmf.address - address) >>> pageShift) &&& (ptrsPerPte - 1#64)
  let startPgoff := vmf.pgoff - off
  let endPgoff := startPgoff - ((address >>> pageShift) &&& (ptrsPerPte - 1#64)) + ptrsPerPte - 1#64
  let endPgoff := min3 endPgoff (vmaPages vmf.vma + vmf.vma.vmPgoff - 1#64)
    (startPgoff + nrPages - 1#64)
  (startPgoff, endPgoff)

def doFaultAroundTake1 (vmf : VmFault) (faultAroundBytes : Word) : Word × Word :=
  let nrPages := faultAroundBytes >>> pageShift
  let virtPgoff := vmf.address >>> pageShift
  -- Clamp to PTE.
  let first := virtPgoff - pteIndex vmf.address
  let last := first + ptrsPerPte - 1#64
  -- Clamp to VMA.
  let first := FaultAround.max first (vmf.vma.vmStart >>> pageShift)
  let last := FaultAround.min last ((vmf.vma.vmEnd >>> pageShift) - 1#64)
  -- Clamp to fault_around_bytes.
  let first := FaultAround.max first (alignDown virtPgoff nrPages)
  let last := FaultAround.min last (first + nrPages - 1#64)
  (vmf.pgoff + first - virtPgoff, vmf.pgoff + last - virtPgoff)

def doFaultAroundTake2 (vmf : VmFault) (faultAroundBytes : Word) : Word × Word :=
  let nrPages := faultAroundBytes >>> pageShift
  let pteOff := pteIndex vmf.address
  let vmaOff := vmf.pgoff - vmf.vma.vmPgoff
  let fromPte := FaultAround.max (alignDown pteOff nrPages) (pteOff - FaultAround.min pteOff vmaOff)
  let toPte := min3 (fromPte + nrPages) ptrsPerPte (pteOff + vmaPages vmf.vma - vmaOff) - 1#64
  (vmf.pgoff + fromPte - pteOff, vmf.pgoff + toPte - pteOff)

def doFaultAround (vmf : VmFault) (faultAroundBytes : Word) : Word × Word :=
  let faultAroundPages := faultAroundBytes >>> pageShift
  let nrPages := faultAroundPages
  let pteOff := pteIndex vmf.address
  let vmaOff := vmf.pgoff - vmf.vma.vmPgoff
  let fromPte := FaultAround.max (alignDown pteOff nrPages) (pteOff - FaultAround.min pteOff vmaOff)
  let toPte := min3 (fromPte + nrPages) ptrsPerPte (pteOff + vmaPages vmf.vma - vmaOff) - 1#64
  (vmf.pgoff + fromPte - pteOff, vmf.pgoff + toPte - pteOff)

/-! ## The macros as arithmetic

Shifts and masks by powers of two, on natural numbers. -/

variable {x y z a : Word} {k : Nat}

theorem toNat_max : (FaultAround.max x y).toNat = max x.toNat y.toNat := by
  rw [FaultAround.max]
  split
  · next h =>
    rw [gt_iff_lt, BitVec.lt_def] at h
    omega
  · next h =>
    rw [gt_iff_lt, BitVec.lt_def] at h
    omega

theorem toNat_min : (FaultAround.min x y).toNat = min x.toNat y.toNat := by
  rw [FaultAround.min]
  split
  · next h =>
    rw [BitVec.lt_def] at h
    omega
  · next h =>
    rw [BitVec.lt_def] at h
    omega

theorem toNat_min3 : (min3 x y z).toNat = min (min x.toNat y.toNat) z.toNat := by
  rw [min3, toNat_min, toNat_min]

theorem toNat_shift : (x >>> pageShift).toNat = x.toNat / 4096 := by
  rw [BitVec.toNat_ushiftRight, Nat.shiftRight_eq_div_pow]
  rfl

/-- The two detours of the macro cancel out. -/
theorem toNat_alignDown (h : a.toNat = 2 ^ k) : (alignDown x a).toNat = x.toNat / 2 ^ k * 2 ^ k := by
  rw [alignDown, alignKernel, alignKernelMask, BitVec.sub_add_cancel, Lib.toNat_and_not_sub_one h]
  have := Nat.div_add_mod' x.toNat (2 ^ k)
  omega

/-- A page's slot in its page table. -/
theorem toNat_and_ptrs : (x &&& (ptrsPerPte - 1#64)).toNat = x.toNat % 512 :=
  Lib.toNat_and_sub_one (k := 9) rfl

theorem toNat_pteIndex : (pteIndex x).toNat = x.toNat / 4096 % 512 := by
  rw [pteIndex, toNat_and_ptrs, toNat_shift]

end MmExper.FaultAround
