import MmExper.FaultAround.Fuzz
import MmExper.Lib.Interleaving
import Mathlib.Data.Stream.Init

/-!
# The threads of the fuzzer

The threads share `fault_states` and `seeds` without a lock, and each uses the entries of its CPU. So a
thread tests the faults of its own seed, five numbers a test, whatever the others do in the meantime.
-/

namespace MmExper.FaultAround

variable {cpu : Cpu} {s s' : Fuzzer} {rands : Stream' Draw} {vmf : VmFault}

/-! ## What a test leaves

A test is a function of the seed of its CPU, and leaves the other entries alone. What is left in the
end therefore depends on how many tests each CPU made, not on their order. -/

def drawnFault (rands : Stream' Draw) : VmFault :=
  let vmStart := randomNat (rands.get 0) 0x700000000 0x800000000 1 4096
  let vmEnd := vmStart + randomNat (rands.get 1) 1 100 1 4096
  let address := randomNat (rands.get 2) vmStart vmEnd 4096 1
  let vmPgoff := randomNat (rands.get 3) 0 100 1 1
  { address := BitVec.ofNat 64 address
    vma := ⟨BitVec.ofNat 64 vmStart, BitVec.ofNat 64 vmEnd, BitVec.ofNat 64 vmPgoff⟩
    pgoff := BitVec.ofNat 64 (vmPgoff + (address - vmStart) / 4096) }

theorem eq_ofNat_toNat {x : Word} {k : Nat} (h : x.toNat = k) : x = BitVec.ofNat 64 k := by
  rw [← h, BitVec.ofNat_toNat, BitVec.setWidth_eq]

theorem Drawn.eq (h : Drawn rands vmf) : vmf = drawnFault rands := by
  have hstart := h.vmStart
  have hend := h.vmEnd
  have haddress := h.address
  have hpgoff := h.pgoff
  rw [hstart] at hend
  rw [hstart, hend] at haddress
  rw [h.vmPgoff, haddress, hstart] at hpgoff
  obtain ⟨address, ⟨vmStart, vmEnd, vmPgoff⟩, pgoff⟩ := vmf
  rw [drawnFault]
  congr 1
  · exact eq_ofNat_toNat haddress
  · congr 1
    · exact eq_ofNat_toNat hstart
    · exact eq_ofNat_toNat hend
    · exact eq_ofNat_toNat h.vmPgoff
  · exact eq_ofNat_toNat hpgoff

def Fuzzer.entries (s : Fuzzer) (cpu : Cpu) : VmFault × Stream' Draw := (s.faultStates cpu, s.seeds cpu)

def testEntries (_ : Cpu) (e : VmFault × Stream' Draw) : VmFault × Stream' Draw :=
  (drawnFault e.2, e.2.drop 5)

theorem Fuzzer.ext_entries (h : s.entries = s'.entries) : s = s' := by
  obtain ⟨faultStates, seeds⟩ := s
  obtain ⟨faultStates', seeds'⟩ := s'
  congr 1
  · funext c
    exact congrArg Prod.fst (congrFun h c)
  · funext c
    exact congrArg Prod.snd (congrFun h c)

/-- Only the seed changes, by one number. -/
theorem getRandom_state {first last align mult v : Word}
    (h : getRandom cpu first last align mult s = .ok (v, s')) : s' = (randR cpu s).2 := by
  rw [getRandom] at h
  split at h
  · cases h
  · cases h
    rfl

/-- A call that goes through, and then another. -/
theorem bind_ok {ε α β : Type} {x : Except ε α} {f : α → Except ε β} {b : β} (h : (x >>= f) = .ok b) :
    ∃ a, x = .ok a ∧ f a = .ok b := by
  cases x with
  | error e => cases h
  | ok a => exact ⟨a, rfl, h⟩

theorem randR_seeds : (randR cpu s).2.seeds cpu = (s.seeds cpu).tail := Function.update_self ..

theorem genVmf_state (h : genVmf cpu s = .ok (vmf, s')) :
    s'.seeds cpu = (s.seeds cpu).drop 4 ∧ s'.faultStates cpu = vmf := by
  obtain ⟨⟨vmStart, s₁⟩, h₁, h⟩ := bind_ok h
  obtain ⟨⟨size, s₂⟩, h₂, h⟩ := bind_ok h
  obtain ⟨⟨address, s₃⟩, h₃, h⟩ := bind_ok h
  obtain ⟨⟨vmPgoff, s₄⟩, h₄, h⟩ := bind_ok h
  obtain ⟨-, -, h⟩ := bind_ok h
  cases h
  refine ⟨?_, Function.update_self ..⟩
  rw [getRandom_state h₄, getRandom_state h₃, getRandom_state h₂, getRandom_state h₁]
  simp only [randR_seeds]
  rfl

/-- One call of `do_test()`. -/
theorem doTest_entries (cpu : Cpu) (s : Fuzzer) :
    ∃ s', doTest cpu s = .ok (none, s') ∧ s'.entries = Lib.stepAt testEntries s.entries cpu := by
  obtain ⟨s', htest, hsame⟩ := doTest_spec cpu s
  refine ⟨s', htest, ?_⟩
  obtain ⟨vmf, s₁, hvmf, hdrawn, -⟩ := genVmf_spec cpu s
  obtain ⟨hseeds, hfault⟩ := genVmf_state hvmf
  obtain ⟨⟨vmf', s₁'⟩, hvmf', h⟩ := bind_ok htest
  rw [hvmf] at hvmf'
  cases hvmf'
  obtain ⟨⟨bytes, s₂⟩, hbytes, h⟩ := bind_ok h
  obtain ⟨⟨n, s₃⟩, hn, hbytes⟩ := bind_ok hbytes
  cases hbytes
  have hs₂ := getRandom_state hn
  have hend : s' = s₂ := by
    dsimp only at h
    split at h
    · cases h
    · cases h
      rfl
  funext c
  by_cases hc : c = cpu
  · subst hc
    rw [Lib.stepAt_self, testEntries, Fuzzer.entries, hend, hs₂, randR_seeds, hseeds]
    show (s₁.faultStates c, _) = _
    rw [hfault, hdrawn.eq]
    rfl
  · obtain ⟨hfaults, hseeds⟩ := hsame c hc
    rw [Lib.stepAt_of_ne hc, Fuzzer.entries, Fuzzer.entries, hfaults, hseeds]

/-- A run of the threads. -/
theorem threadWorkers_entries (cpus : List Cpu) (s : Fuzzer) :
    ∃ s', threadWorkers cpus s = .ok ([], s') ∧
      s'.entries = cpus.foldl (Lib.stepAt testEntries) s.entries := by
  induction cpus generalizing s with
  | nil => exact ⟨s, rfl, rfl⟩
  | cons cpu cpus ih =>
      obtain ⟨s₁, htest, hs₁⟩ := doTest_entries cpu s
      obtain ⟨s₂, hrest, hs₂⟩ := ih s₁
      refine ⟨s₂, ?_, ?_⟩
      · simp only [threadWorkers, htest, hrest, bind, Except.bind]
        rfl
      · rw [hs₂, hs₁, List.foldl_cons]

/-- Some tests on one CPU, one after the other. -/
theorem iterate_testEntries (cpu : Cpu) (e : VmFault × Stream' Draw) (k : Nat) :
    (testEntries cpu)^[k] e = (if k = 0 then e.1 else drawnFault (e.2.drop (5 * (k - 1))), e.2.drop (5 * k)) := by
  induction k with
  | zero => rfl
  | succ k ih =>
      rw [Function.iterate_succ_apply', ih, testEntries, if_neg (Nat.succ_ne_zero k), Nat.add_sub_cancel,
        Stream'.drop_drop, Nat.mul_succ]

/-- **The threads do not get in each other's way.** In whatever order the tests of the threads run, a CPU has
used five numbers of its seed for each of its tests, and its last fault is the one that the first four of
its last five numbers make; another order with as many tests for each CPU ends in the same state. -/
theorem threads_independent (cpus : List Cpu) (s : Fuzzer) :
    ∃ s', threadWorkers cpus s = .ok ([], s') ∧
      (∀ cpus', cpus'.Perm cpus → threadWorkers cpus' s = .ok ([], s')) ∧
      ∀ cpu, s'.seeds cpu = (s.seeds cpu).drop (5 * cpus.count cpu) ∧
        (cpu ∉ cpus → s'.faultStates cpu = s.faultStates cpu) ∧
        (cpu ∈ cpus → s'.faultStates cpu = drawnFault ((s.seeds cpu).drop (5 * (cpus.count cpu - 1)))) := by
  obtain ⟨s', hrun, hs'⟩ := threadWorkers_entries cpus s
  refine ⟨s', hrun, ?_, ?_⟩
  · intro cpus' hperm
    obtain ⟨s'', hrun', hs''⟩ := threadWorkers_entries cpus' s
    rw [hrun', Fuzzer.ext_entries (hs''.trans ((Lib.foldl_stepAt_perm hperm).trans hs'.symm))]
  · intro cpu
    have hcpu := congrFun hs' cpu
    rw [Lib.foldl_stepAt, iterate_testEntries] at hcpu
    have hfault : s'.faultStates cpu = if cpus.count cpu = 0 then s.faultStates cpu
        else drawnFault ((s.seeds cpu).drop (5 * (cpus.count cpu - 1))) := congrArg Prod.fst hcpu
    refine ⟨congrArg Prod.snd hcpu, ?_, ?_⟩
    · intro hnot
      rw [hfault, if_pos (List.count_eq_zero.mpr hnot)]
    · intro hin
      rw [hfault, if_neg (Nat.ne_of_gt (List.count_pos_iff.mpr hin))]

end MmExper.FaultAround
