import Mathlib.Data.Stream.Defs
import MmExper.FaultAround.Window

/-!
# The fuzzer

Every thread of `fault_around.cc` makes random faults for its CPU and compares two of the versions on them. A
fault is checked before it is used, and the program exits if a check fails. What `rand_r()` returns is left
open: it is any sequence of numbers that are not negative.
-/

namespace MmExper.FaultAround

abbrev maxNumCpus : Nat := 256

/-- An index of `fault_states` and of `seeds`. -/
abbrev Cpu := Fin maxNumCpus

/-- What `rand_r()` returns, an `int` between 0 and `RAND_MAX`. -/
abbrev Draw := Fin (2 ^ 31)

/-- The arrays of the program, with what `rand_r()` is going to return for a seed in place of the seed. -/
structure Fuzzer where
  faultStates : Cpu → VmFault
  seeds : Cpu → Stream' Draw

/-- How the program ends, other than by a signal from outside. -/
inductive Exit where
  /-- A remainder by zero in `get_random()`. -/
  | divideError
  /-- `vm_start=…>= vm_end=…` -/
  | vmaEmpty (vmStart vmEnd : Word)
  /-- `vm_start=…> address=…` -/
  | addressBelow (vmStart address : Word)
  /-- `vm_end=…<= address=…` -/
  | addressAbove (vmEnd address : Word)
  /-- `vm_pgoff=…, address=…, offset=…, pgoff=…: invalid!` -/
  | pgoffInvalid (vmPgoff address offset pgoff : Word)
  deriving DecidableEq

def randR (cpu : Cpu) (s : Fuzzer) : Draw × Fuzzer :=
  ((s.seeds cpu).head, { s with seeds := Function.update s.seeds cpu (s.seeds cpu).tail })

def getRandom (cpu : Cpu) (first last align mult : Word) (s : Fuzzer) : Except Exit (Word × Fuzzer) :=
  if last - first = 0#64 then .error .divideError
  else
    let (rand, s) := randR cpu s
    let delta := BitVec.ofNat 64 rand % (last - first)
    .ok (alignDown (mult * (first + delta)) align, s)

/-- The checks at the end of `gen_vmf()`, with `CHECK` defined. -/
def checkVmf (vmf : VmFault) : Except Exit Unit :=
  if vmf.vma.vmStart ≥ vmf.vma.vmEnd then .error (.vmaEmpty vmf.vma.vmStart vmf.vma.vmEnd)
  else if vmf.address < vmf.vma.vmStart then .error (.addressBelow vmf.vma.vmStart vmf.address)
  else if vmf.address ≥ vmf.vma.vmEnd then .error (.addressAbove vmf.vma.vmEnd vmf.address)
  else
    let addressOffset := (vmf.address - vmf.vma.vmStart) >>> pageShift
    if vmf.pgoff ≠ addressOffset + vmf.vma.vmPgoff then
      .error (.pgoffInvalid vmf.vma.vmPgoff vmf.address addressOffset vmf.pgoff)
    else .ok ()

/-- `gen_vmf()`: the fault is the one in `fault_states[cpu]`. -/
def genVmf (cpu : Cpu) (s : Fuzzer) : Except Exit (VmFault × Fuzzer) := do
  let (vmStart, s) ← getRandom cpu 0x700000000#64 0x800000000#64 1#64 pageSize s
  let (size, s) ← getRandom cpu 1#64 100#64 1#64 pageSize s
  let vmEnd := vmStart + size
  let (address, s) ← getRandom cpu vmStart vmEnd pageSize 1#64 s
  let (vmPgoff, s) ← getRandom cpu 0#64 100#64 1#64 1#64 s
  let pgoff := vmPgoff + ((address - vmStart) >>> pageShift)
  let vmf := { address, vma := { vmStart, vmEnd, vmPgoff }, pgoff }
  checkVmf vmf
  return (vmf, { s with faultStates := Function.update s.faultStates cpu vmf })

/-- `fls64()`: `bsrq` leaves `bitpos` alone if there is no bit. -/
def fls64 (x : Word) : BitVec 32 :=
  let bitpos := match Lib.highestBit x with
    | none => -1#32
    | some i => BitVec.ofNat 32 i
  bitpos + 1#32

/-- `__rounddown_pow_of_two()`, with `fls_long()`. -/
def rounddownPowOfTwo (n : Word) : Word := 1#64 <<< (fls64 n - 1#32)

/-- The `fault_around_bytes` of `do_test()`. -/
def randomBytes (cpu : Cpu) (s : Fuzzer) : Except Exit (Word × Fuzzer) := do
  let (n, s) ← getRandom cpu pageSize (ptrsPerPte * pageSize) 1#64 1#64 s
  return (rounddownPowOfTwo n, s)

structure Mismatch where
  vmf : VmFault
  faultAroundBytes : Word
  orig : Word × Word
  curr : Word × Word

/-- `do_test()`: what it prints. -/
def doTest (cpu : Cpu) (s : Fuzzer) : Except Exit (Option Mismatch × Fuzzer) := do
  let (vmf, s) ← genVmf cpu s
  let (faultAroundBytes, s) ← randomBytes cpu s
  let orig := originalFaultAround vmf faultAroundBytes
  let curr := doFaultAround vmf faultAroundBytes
  if curr.1 ≠ orig.1 ∨ curr.2 ≠ orig.2 then return (some ⟨vmf, faultAroundBytes, orig, curr⟩, s)
  else return (none, s)

/-- The loops of the threads: the calls of `do_test()` for these CPUs, in the order they run in. -/
def threadWorkers : List Cpu → Fuzzer → Except Exit (List Mismatch × Fuzzer)
  | [], s => return ([], s)
  | cpu :: cpus, s => do
    let (mismatch, s) ← doTest cpu s
    let (mismatches, s) ← threadWorkers cpus s
    return (mismatch.toList ++ mismatches, s)

variable {cpu : Cpu} {s : Fuzzer}

/-! ## The entries of a CPU

No function here changes an entry of another CPU. -/

/-- The entries of the other CPUs stay as they are. -/
def SameElsewhere (cpu : Cpu) (s s' : Fuzzer) : Prop :=
  ∀ c ≠ cpu, s'.faultStates c = s.faultStates c ∧ s'.seeds c = s.seeds c

theorem SameElsewhere.trans {s s' s'' : Fuzzer} (h : SameElsewhere cpu s s') (h' : SameElsewhere cpu s' s'') :
    SameElsewhere cpu s s'' :=
  fun c hc => ⟨(h' c hc).1.trans (h c hc).1, (h' c hc).2.trans (h c hc).2⟩

theorem randR_elsewhere : SameElsewhere cpu s (randR cpu s).2 :=
  fun _ hc => ⟨rfl, Function.update_of_ne hc _ _⟩

theorem SameElsewhere.setFault {s s' : Fuzzer} {vmf : VmFault} (h : SameElsewhere cpu s s') :
    SameElsewhere cpu s { s' with faultStates := Function.update s'.faultStates cpu vmf } :=
  fun c hc => ⟨(Function.update_of_ne hc _ _).trans (h c hc).1, (h c hc).2⟩

/-! ## Random numbers

`get_random()` without wrapping. For the ranges that the fuzzer uses nothing does wrap. -/

/-- A random number between `first` and `last`, times `mult` and aligned to `align`, as a natural number. -/
def randomNat (rand first last align mult : Nat) : Nat :=
  mult * (first + rand % (last - first)) / align * align

section

variable {rand first last align mult : Nat}

theorem randomNat_one : randomNat rand first last 1 mult = mult * (first + rand % (last - first)) := by
  rw [randomNat, Nat.div_one, Nat.mul_one]

theorem dvd_randomNat : align ∣ randomNat rand first last align mult := Nat.dvd_mul_left align _

theorem le_randomNat (halign : 0 < align) (hdvd : align ∣ mult * first) :
    mult * first ≤ randomNat rand first last align mult := by
  obtain ⟨q, hq⟩ := hdvd
  have hle : mult * first ≤ mult * (first + rand % (last - first)) :=
    Nat.mul_le_mul_left mult (Nat.le_add_right first _)
  rw [hq, Nat.mul_comm] at hle ⊢
  exact Nat.mul_le_mul_right align ((Nat.le_div_iff_mul_le halign).mpr hle)

theorem randomNat_lt (h : first < last) (hmult : 0 < mult) :
    randomNat rand first last align mult < mult * last := by
  have hmod : rand % (last - first) < last - first := Nat.mod_lt _ (Nat.sub_pos_of_lt h)
  apply Nat.lt_of_le_of_lt (Nat.div_mul_le_self _ align)
  exact Nat.mul_lt_mul_of_pos_left (by omega) hmult

/-- A number of whole pages. -/
theorem page_dvd_randomNat : 4096 ∣ randomNat rand first last 1 4096 := by
  rw [randomNat_one]
  exact Nat.dvd_mul_right 4096 _

/-- Aligning an address down does not leave a range that begins at a page. -/
theorem le_randomNat_page (h : 4096 ∣ first) : first ≤ randomNat rand first last 4096 1 := by
  have hdvd : 4096 ∣ 1 * first := by rwa [Nat.one_mul]
  exact Nat.le_trans (Nat.le_of_eq (Nat.one_mul first).symm) (le_randomNat (by decide) hdvd)

/-- A VMA below `2 ^ 47` of 1 to 99 pages. -/
theorem vma_bounds (rand rand' : Nat) :
    randomNat rand 0x700000000 0x800000000 1 4096 < 2 ^ 47 ∧
      4096 ≤ randomNat rand' 1 100 1 4096 ∧ randomNat rand' 1 100 1 4096 < 4096 * 100 := by
  refine ⟨?_, ?_, ?_⟩
  · exact Nat.lt_of_lt_of_le (randomNat_lt (by decide) (by decide)) (by decide)
  · exact le_randomNat Nat.one_pos (Nat.one_dvd (4096 * 1))
  · exact randomNat_lt (by decide) (by decide)

end

section

variable {k : Nat}

theorem toNat_delta {first last : Word} (h : first < last) (rand : Draw) :
    (BitVec.ofNat 64 rand % (last - first)).toNat = rand % (last.toNat - first.toNat) := by
  rw [BitVec.toNat_umod, Lib.toNat_sub_of_toNat_le (Nat.le_of_lt h), BitVec.toNat_ofNat,
    Nat.mod_eq_of_lt (Nat.lt_trans rand.isLt (by decide))]

/-- Nothing wraps in `get_random()`, and it does not divide by zero, as long as the range is not empty and its end
fits in a word. -/
theorem getRandom_spec (cpu : Cpu) (s : Fuzzer) (first last align mult : Word) (halign : align.toNat = 2 ^ k)
    (h : first < last) (hfits : mult.toNat * last.toNat < 2 ^ 64) :
    ∃ v, getRandom cpu first last align mult s = .ok (v, (randR cpu s).2) ∧
      v.toNat = randomNat (s.seeds cpu).head first.toNat last.toNat align.toNat mult.toNat := by
  have hlt := BitVec.lt_def.mp h
  have hne : last - first ≠ 0#64 := by
    apply Lib.toNat_ne_zero_iff.mp
    rw [Lib.toNat_sub_of_toNat_le (Nat.le_of_lt hlt)]
    exact Nat.sub_ne_zero_of_lt hlt
  rw [getRandom, if_neg hne]
  refine ⟨_, rfl, ?_⟩
  have hdelta : (s.seeds cpu).head % (last.toNat - first.toNat) < last.toNat - first.toNat :=
    Nat.mod_lt _ (Nat.sub_pos_of_lt hlt)
  have hsum : first.toNat + (s.seeds cpu).head % (last.toNat - first.toNat) < last.toNat :=
    Nat.add_lt_of_lt_sub' hdelta
  have hmul := Nat.lt_of_le_of_lt (Nat.mul_le_mul_left mult.toNat (Nat.le_of_lt hsum)) hfits
  rw [toNat_alignDown halign, BitVec.toNat_mul, BitVec.toNat_add, toNat_delta h,
    Nat.mod_eq_of_lt (Nat.lt_trans hsum last.isLt), Nat.mod_eq_of_lt hmul, randomNat, halign]

end

/-- The highest bit of a word, alone. -/
theorem toNat_rounddownPowOfTwo {n : Word} (h : n ≠ 0#64) :
    (rounddownPowOfTwo n).toNat = 2 ^ n.toNat.log2 := by
  have hlog : n.toNat.log2 < 64 := (Nat.log2_lt (Lib.toNat_ne_zero_iff.mpr h)).mpr n.isLt
  have hbit : Lib.highestBit n = some n.toNat.log2 := if_neg h
  have hshift : (fls64 n - 1#32).toNat = n.toNat.log2 := by
    rw [fls64, hbit]
    simp only [BitVec.add_sub_cancel, BitVec.toNat_ofNat]
    exact Nat.mod_eq_of_lt (Nat.lt_trans hlog (by decide))
  rw [rounddownPowOfTwo, BitVec.shiftLeft_eq', hshift, Lib.toNat_bit hlog]

/-! ## Faults

The four numbers drawn determine the fault, and it passes every check at the end of `gen_vmf()`. -/

/-- The fault that `gen_vmf()` makes of these numbers, if nothing wraps. -/
structure Drawn (rands : Stream' Draw) (vmf : VmFault) : Prop where
  vmStart : vmf.vma.vmStart.toNat = randomNat (rands.get 0) 0x700000000 0x800000000 1 4096
  vmEnd : vmf.vma.vmEnd.toNat = vmf.vma.vmStart.toNat + randomNat (rands.get 1) 1 100 1 4096
  address : vmf.address.toNat =
    randomNat (rands.get 2) vmf.vma.vmStart.toNat vmf.vma.vmEnd.toNat 4096 1
  vmPgoff : vmf.vma.vmPgoff.toNat = randomNat (rands.get 3) 0 100 1 1
  pgoff : vmf.pgoff.toNat =
    vmf.vma.vmPgoff.toNat + (vmf.address.toNat - vmf.vma.vmStart.toNat) / 4096

structure Checked (vmf : VmFault) : Prop where
  nonempty : vmf.vma.vmStart < vmf.vma.vmEnd
  start_le : vmf.vma.vmStart ≤ vmf.address
  lt_end : vmf.address < vmf.vma.vmEnd
  pgoff : vmf.pgoff = vmf.vma.vmPgoff + ((vmf.address - vmf.vma.vmStart) >>> pageShift)

structure PageAligned (vmf : VmFault) : Prop where
  vmStart : 4096 ∣ vmf.vma.vmStart.toNat
  vmEnd : 4096 ∣ vmf.vma.vmEnd.toNat
  address : 4096 ∣ vmf.address.toNat

theorem checkVmf_ok_iff {vmf : VmFault} : checkVmf vmf = .ok () ↔ Checked vmf := by
  rw [checkVmf]
  constructor
  · intro h
    split at h
    · cases h
    · next hstart =>
      split at h
      · cases h
      · next haddress =>
        split at h
        · cases h
        · next hend =>
          simp only [] at h
          split at h
          · cases h
          · next hpgoff =>
            exact ⟨BitVec.not_le.mp hstart, BitVec.not_lt.mp haddress, BitVec.not_le.mp hend,
              (not_not.mp hpgoff).trans (BitVec.add_comm _ _)⟩
  · intro h
    have hpgoff : ¬vmf.pgoff ≠ ((vmf.address - vmf.vma.vmStart) >>> pageShift) + vmf.vma.vmPgoff := by
      rw [not_not, h.pgoff, BitVec.add_comm]
    rw [if_neg (BitVec.not_le.mpr h.nonempty), if_neg (BitVec.not_lt.mpr h.start_le),
      if_neg (BitVec.not_le.mpr h.lt_end)]
    exact if_neg hpgoff

section Drawn

variable {rands : Stream' Draw} {vmf : VmFault} (h : Drawn rands vmf)
include h

theorem Drawn.pageAligned : PageAligned vmf := by
  refine ⟨?_, ?_, ?_⟩
  · rw [h.vmStart]
    exact page_dvd_randomNat
  · rw [h.vmEnd, h.vmStart]
    exact Nat.dvd_add page_dvd_randomNat page_dvd_randomNat
  · rw [h.address]
    exact dvd_randomNat

theorem Drawn.checked : Checked vmf := by
  obtain ⟨-, hsize, -⟩ := vma_bounds (rands.get 0) (rands.get 1)
  have hnonempty : vmf.vma.vmStart.toNat < vmf.vma.vmEnd.toNat := by
    rw [h.vmEnd]
    omega
  have hstart : vmf.vma.vmStart.toNat ≤ vmf.address.toNat := by
    rw [h.address]
    exact le_randomNat_page h.pageAligned.vmStart
  have hend : vmf.address.toNat < vmf.vma.vmEnd.toNat := by
    rw [h.address]
    exact Nat.lt_of_lt_of_eq (randomNat_lt hnonempty Nat.one_pos) (Nat.one_mul _)
  refine ⟨BitVec.lt_def.mpr hnonempty, BitVec.le_def.mpr hstart, BitVec.lt_def.mpr hend, ?_⟩
  apply BitVec.eq_of_toNat_eq
  have hsum := vmf.pgoff.isLt
  rw [h.pgoff] at hsum ⊢
  rw [BitVec.toNat_add, toNat_shift, Lib.toNat_sub_of_toNat_le hstart, Nat.mod_eq_of_lt hsum]

/-- It is one of the faults that the versions agree on. -/
theorem Drawn.valid : Valid vmf := by
  have hchecked := h.checked
  have haligned := h.pageAligned
  have hpgoff : vmf.vma.vmPgoff.toNat < 1 * 100 := by
    rw [h.vmPgoff]
    exact randomNat_lt (by decide) Nat.one_pos
  have hpages : (vmaPages vmf.vma).toNat < 2 ^ 52 := by
    rw [vmaPages, toNat_shift]
    exact Nat.div_lt_of_lt_mul (vmf.vma.vmEnd - vmf.vma.vmStart).isLt
  have hptrs : ptrsPerPte.toNat = 512 := rfl
  exact {
    start_aligned := Nat.mod_eq_zero_of_dvd haligned.vmStart
    end_aligned := Nat.mod_eq_zero_of_dvd haligned.vmEnd
    nonempty := hchecked.nonempty
    start_le := hchecked.start_le
    lt_end := hchecked.lt_end
    pgoff := hchecked.pgoff
    fits := by omega }

end Drawn

section

variable (rands : Stream' Draw) {vmStart size address vmPgoff : Word}

/-- The end of the VMA does not wrap. -/
theorem toNat_vmEnd (hstart : vmStart.toNat = randomNat (rands.get 0) 0x700000000 0x800000000 1 4096)
    (hsize : size.toNat = randomNat (rands.get 1) 1 100 1 4096) :
    (vmStart + size).toNat = vmStart.toNat + size.toNat ∧ vmStart.toNat + size.toNat < 2 ^ 48 ∧
      vmStart.toNat < vmStart.toNat + size.toNat := by
  obtain ⟨hstart', hsize', hsize''⟩ := vma_bounds (rands.get 0) (rands.get 1)
  rw [← hstart] at hstart'
  rw [← hsize] at hsize' hsize''
  refine ⟨?_, by omega, by omega⟩
  rw [BitVec.toNat_add]
  exact Nat.mod_eq_of_lt (by omega)

/-- Neither does the page offset. -/
theorem drawn_mk (hstart : vmStart.toNat = randomNat (rands.get 0) 0x700000000 0x800000000 1 4096)
    (hsize : size.toNat = randomNat (rands.get 1) 1 100 1 4096)
    (haddress : address.toNat = randomNat (rands.get 2) vmStart.toNat (vmStart + size).toNat 4096 1)
    (hvmPgoff : vmPgoff.toNat = randomNat (rands.get 3) 0 100 1 1) :
    Drawn rands ⟨address, ⟨vmStart, vmStart + size, vmPgoff⟩,
      vmPgoff + ((address - vmStart) >>> pageShift)⟩ := by
  obtain ⟨hend, -, -⟩ := toNat_vmEnd rands hstart hsize
  have hle : vmStart.toNat ≤ address.toNat := by
    rw [haddress]
    apply le_randomNat_page
    rw [hstart]
    exact page_dvd_randomNat
  have hvmPgoff' : vmPgoff.toNat < 1 * 100 := by
    rw [hvmPgoff]
    exact randomNat_lt (by decide) Nat.one_pos
  refine ⟨hstart, ?_, haddress, hvmPgoff, ?_⟩
  · rw [hend, hsize]
  · have hdiff := (address - vmStart).isLt
    rw [BitVec.toNat_add, toNat_shift]
    rw [Lib.toNat_sub_of_toNat_le hle] at hdiff ⊢
    exact Nat.mod_eq_of_lt (by omega)

end

/-- Four numbers make a fault, and its checks pass. -/
theorem genVmf_spec (cpu : Cpu) (s : Fuzzer) :
    ∃ vmf s', genVmf cpu s = .ok (vmf, s') ∧ Drawn (s.seeds cpu) vmf ∧ SameElsewhere cpu s s' := by
  have hseeds : ∀ s, (randR cpu s).2.seeds cpu = (s.seeds cpu).tail := fun s => Function.update_self ..
  have hpage : pageSize.toNat = 2 ^ 12 := rfl
  have hone : (1#64).toNat = 2 ^ 0 := rfl
  -- One call after the other, each with the seed that the one before left.
  obtain ⟨vmStart, h₁, hstart⟩ := getRandom_spec cpu s 0x700000000#64 0x800000000#64 1#64 pageSize hone
    (by decide) (by decide)
  obtain ⟨size, h₂, hsize⟩ := getRandom_spec cpu (randR cpu s).2 1#64 100#64 1#64 pageSize hone
    (by decide) (by decide)
  rw [hseeds] at hsize
  obtain ⟨hend, hlt, hpos⟩ := toNat_vmEnd (s.seeds cpu) hstart hsize
  have hnonempty : vmStart < vmStart + size := by
    rw [BitVec.lt_def, hend]
    exact hpos
  have hfits : (1#64).toNat * (vmStart + size).toNat < 2 ^ 64 := by
    rw [hend, hone, Nat.pow_zero, Nat.one_mul]
    exact Nat.lt_trans hlt (by decide)
  obtain ⟨address, h₃, haddress⟩ := getRandom_spec cpu (randR cpu (randR cpu s).2).2 vmStart
    (vmStart + size) pageSize 1#64 hpage hnonempty hfits
  rw [hseeds, hseeds] at haddress
  obtain ⟨vmPgoff, h₄, hvmPgoff⟩ := getRandom_spec cpu (randR cpu (randR cpu (randR cpu s).2).2).2
    0#64 100#64 1#64 1#64 hone (by decide) (by decide)
  rw [hseeds, hseeds, hseeds] at hvmPgoff
  have hdrawn := drawn_mk (s.seeds cpu) hstart hsize haddress hvmPgoff
  have hrun : ∃ s', genVmf cpu s = .ok (⟨address, ⟨vmStart, vmStart + size, vmPgoff⟩,
      vmPgoff + ((address - vmStart) >>> pageShift)⟩, s') ∧ SameElsewhere cpu s s' := by
    simp only [genVmf, h₁, h₂, h₃, h₄, bind, Except.bind, checkVmf_ok_iff.mpr hdrawn.checked]
    refine ⟨_, rfl, ?_⟩
    apply SameElsewhere.setFault
    exact ((randR_elsewhere.trans randR_elsewhere).trans randR_elsewhere).trans randR_elsewhere
  obtain ⟨s', hs', hsame⟩ := hrun
  exact ⟨_, s', hs', hdrawn, hsame⟩

/-! ## Tests

So no thread ever exits, and the versions that it compares agree on what it compares them on. -/

/-- A power of two from `PAGE_SIZE` on, and less than `PTRS_PER_PTE * PAGE_SIZE`. -/
structure RandomBytes (bytes : Word) : Prop where
  pow : ∃ k, bytes.toNat = 2 ^ k
  page_le : pageSize ≤ bytes
  lt_table : bytes < ptrsPerPte * pageSize

theorem RandomBytes.aroundBytes {bytes : Word} (h : RandomBytes bytes) : AroundBytes bytes := by
  obtain ⟨k, hk⟩ := h.pow
  have hle : 2 ^ 12 ≤ 2 ^ k := hk ▸ BitVec.le_def.mp h.page_le
  have hlt : 2 ^ k < 2 ^ 21 := hk ▸ BitVec.lt_def.mp h.lt_table
  refine ⟨k, ?_, ?_, hk⟩
  · exact (Nat.pow_le_pow_iff_right (by decide)).mp hle
  · exact Nat.le_of_lt ((Nat.pow_lt_pow_iff_right (by decide)).mp hlt)

theorem randomBytes_spec (cpu : Cpu) (s : Fuzzer) :
    ∃ bytes s', randomBytes cpu s = .ok (bytes, s') ∧ RandomBytes bytes ∧ SameElsewhere cpu s s' := by
  have hone : (1#64).toNat = 2 ^ 0 := rfl
  obtain ⟨n, hcall, hn⟩ := getRandom_spec cpu s pageSize (ptrsPerPte * pageSize) 1#64 1#64 hone
    (by decide) (by decide)
  have hle : 1 * 2 ^ 12 ≤ n.toNat := by
    rw [hn]
    exact le_randomNat Nat.one_pos (Nat.one_dvd _)
  have hlt : n.toNat < 1 * 2 ^ 21 := by
    rw [hn]
    exact randomNat_lt (by decide) Nat.one_pos
  have hne : n.toNat ≠ 0 := by omega
  have hbytes := toNat_rounddownPowOfTwo (Lib.toNat_ne_zero_iff.mp hne)
  have hlog : 12 ≤ n.toNat.log2 := (Nat.le_log2 hne).mpr (by omega)
  refine ⟨rounddownPowOfTwo n, (randR cpu s).2, ?_, ⟨⟨_, hbytes⟩, ?_, ?_⟩, randR_elsewhere⟩
  · simp only [randomBytes, hcall, bind, Except.bind]
    rfl
  · rw [BitVec.le_def, hbytes]
    show 2 ^ 12 ≤ 2 ^ n.toNat.log2
    exact Nat.pow_le_pow_right (by decide) hlog
  · rw [BitVec.lt_def, hbytes]
    have := Nat.log2_self_le hne
    exact Nat.lt_of_le_of_lt this (by rwa [Nat.one_mul] at hlt)

/-- A test goes through, there is nothing to report, and no other thread notices. -/
theorem doTest_spec (cpu : Cpu) (s : Fuzzer) :
    ∃ s', doTest cpu s = .ok (none, s') ∧ SameElsewhere cpu s s' := by
  obtain ⟨vmf, s₁, hvmf, hdrawn, hsame₁⟩ := genVmf_spec cpu s
  obtain ⟨bytes, s₂, hbytes, hrandom, hsame₂⟩ := randomBytes_spec cpu s₁
  have hagree : doFaultAround vmf bytes = originalFaultAround vmf bytes :=
    (doFaultAround_isWindow hdrawn.valid hrandom.aroundBytes).eq
      (originalFaultAround_isWindow hdrawn.valid hrandom.aroundBytes)
  refine ⟨s₂, ?_, hsame₁.trans hsame₂⟩
  simp only [doTest, hvmf, hbytes, bind, Except.bind, hagree]
  exact if_neg (not_or.mpr ⟨not_not.mpr rfl, not_not.mpr rfl⟩)

/-- So does a run, whatever the order of the threads, and the CPUs that are not in it keep their entries. -/
theorem threadWorkers_spec (cpus : List Cpu) (s : Fuzzer) :
    ∃ s', threadWorkers cpus s = .ok ([], s') ∧ ∀ cpu ∉ cpus, s'.seeds cpu = s.seeds cpu := by
  induction cpus generalizing s with
  | nil => exact ⟨s, rfl, fun _ _ => rfl⟩
  | cons cpu cpus ih =>
      obtain ⟨s₁, htest, hsame⟩ := doTest_spec cpu s
      obtain ⟨s₂, hrest, hothers⟩ := ih s₁
      refine ⟨s₂, ?_, ?_⟩
      · simp only [threadWorkers, htest, hrest, bind, Except.bind]
        rfl
      · intro c hc
        obtain ⟨hne, hc⟩ := not_or.mp (mt List.mem_cons.mpr hc)
        exact (hothers c hc).trans (hsame c hne).2

/-- **The fuzzer tests valid faults only**, whatever `rand_r()` returns: the faults pass the checks and are what
the numbers say, without a wrap, the window sizes are in range, and no run ends. -/
theorem fuzzer_tests_valid_faults (s : Fuzzer) :
    (∀ cpu, ∃ vmf s₁ bytes s₂,
      (genVmf cpu s = .ok (vmf, s₁) ∧ Checked vmf ∧ PageAligned vmf ∧ Drawn (s.seeds cpu) vmf) ∧
      (randomBytes cpu s₁ = .ok (bytes, s₂) ∧ RandomBytes bytes)) ∧
    ∀ cpus, ∃ s', threadWorkers cpus s = .ok ([], s') := by
  constructor
  · intro cpu
    obtain ⟨vmf, s₁, hvmf, hdrawn, -⟩ := genVmf_spec cpu s
    obtain ⟨bytes, s₂, hbytes, hrandom, -⟩ := randomBytes_spec cpu s₁
    exact ⟨vmf, s₁, bytes, s₂, ⟨hvmf, hdrawn.checked, hdrawn.pageAligned, hdrawn⟩, hbytes, hrandom⟩
  · intro cpus
    obtain ⟨s', hrun, -⟩ := threadWorkers_spec cpus s
    exact ⟨s', hrun⟩

end MmExper.FaultAround
