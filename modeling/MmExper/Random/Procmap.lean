import MmExper.Lib.Runs
import Mathlib.Data.List.Infix
import Mathlib.Data.List.ProdSigma

/-!
# Merging after `mremap()`

`procmap.c` moves a page between two others and asks the kernel which of them are in one VMA then. It is meant to try
every state of the two neighbours, with the page populated or not, first without and then with relocation of anonymous
memory.

Whether a call fails is up to the kernel, and so are the address that it maps pages at and the VMA that it reports.
The program exits at the first call that fails, except for `munmap()` and `close()`, which it does not check. A write
to a page that is not there kills it.
-/

namespace MmExper.Random.Procmap

open Lib

abbrev Word := BitVec 64

inductive VmaState where
  | noVma
  | emptyAnonVma
  | sameAnonVma
  | differentAnonVma
  | differentAnonVma2
  deriving DecidableEq

/-- Those below `NUM_VMA_STATES`. -/
def VmaState.all : List VmaState := [.noVma, .emptyAnonVma, .sameAnonVma, .differentAnonVma, .differentAnonVma2]

def VmaState.toChar : VmaState → Char
  | .noVma => '_'
  | .emptyAnonVma => '.'
  | .sameAnonVma => 'P'
  | .differentAnonVma => 'x'
  | .differentAnonVma2 => 'y'

def VmaState.isNone (s : VmaState) : Bool := s = .noVma
def VmaState.isSame (s : VmaState) : Bool := s = .sameAnonVma
def VmaState.isDiff (s : VmaState) : Bool := s = .differentAnonVma || s = .differentAnonVma2

structure Config where
  states : VmaState × VmaState
  primaryPopulated : Bool
  relocateAnon : Bool
  deriving DecidableEq

/-! ## Calls

Pages are counted from the `ptr` of the function that makes the call.
-/

inductive Sys where
  /-- `open()` of `/proc/$pid/maps`. -/
  | openMaps
  /-- `mmap()` of pages that cannot be accessed, wherever there is room. -/
  | reserve (n : Nat)
  /-- `mmap()` of readable and writable pages at this place. -/
  | mmap (noreserve : Bool) (page n : Nat)
  | mremap (relocateAnon : Bool) (src tgt n : Nat)
  /-- `ptr[page * page_size] = 'x'`. -/
  | write (page : Nat)
  | mprotect (page n : Nat) (writable : Bool)
  | munmap (page n : Nat)
  /-- The ioctl `PROCMAP_QUERY`. -/
  | query (page : Nat)
  | close
  deriving DecidableEq

/-- The program does not go on if such a call fails. -/
def Sys.checked : Sys → Bool
  | .munmap _ _ => false
  | .close => false
  | _ => true

/-- What the kernel makes of the last of some calls: whether it fails, where the pages are that it maps, and the VMA
that it finds. -/
structure Kernel where
  pageSize : Word
  fails : List Sys → Bool
  ptr : List Sys → Word
  vma : List Sys → Word × Word

/-- The program ends at this call. -/
def Kernel.stops (k : Kernel) (before : List Sys) (s : Sys) : Bool := s.checked && k.fails (before ++ [s])

inductive QueryResult where
  | mergeUnknown
  | noMerge
  | merge01
  | merge12
  | mergeAll
  deriving DecidableEq

inductive Line where
  | result (conf : Config) (res : QueryResult)
  | mprotect (merged : Bool)
  /-- `-- WITH MREMAP_RELOCATE_ANON: --` -/
  | withRelocateAnon
  deriving DecidableEq

def printState (conf : Config) : List Char :=
  [conf.states.1.toChar, if conf.primaryPopulated then 'P' else '.', conf.states.2.toChar]

def printQueryResult (conf : Config) (res : QueryResult) : List Char :=
  printState conf ++ ": ".toList ++
    match res with
    | .mergeUnknown => "???\n".toList
    | .noMerge => "NO MERGE\n".toList
    | .mergeAll => "MERGE 0,1,2\n".toList
    | .merge01 => "MERGE 0,1\n".toList
    | .merge12 => "MERGE 1,2\n".toList

def Line.chars : Line → List Char
  | .result conf res => printQueryResult conf res
  | .mprotect merged => if merged then "mprotect() MERGED\n".toList else "mprotect() UNMERGED\n".toList
  | .withRelocateAnon => "-- WITH MREMAP_RELOCATE_ANON: --\n".toList

structure Log where
  calls : List Sys
  printed : List Line

/-- Make a call, and `exit(EXIT_FAILURE)` if it fails. -/
def Kernel.call (k : Kernel) (log : Log) (s : Sys) : Except Log Log :=
  let log' := { log with calls := log.calls ++ [s] }
  if k.stops log.calls s then throw log' else return log'

/-! ## The program

The log goes through the functions and grows. An error is `exit(EXIT_FAILURE)`, with the log as it
is then. -/

/-- The calls of `init_mappings()`. None of them depends on what an earlier one returns. -/
def initMappings (conf : Config) : List Sys :=
  let move := Sys.mremap conf.relocateAnon
  let (left, right) := conf.states
  Sys.mmap false 0 3 ::
    -- If all the same, fault in now.
    if left.isSame && right.isSame && conf.primaryPopulated then [.write 0, move 1 9 1]
    else
      [move 1 4 2] ++
        -- Fault Py together.
        (if right.isSame then [.write 4] else []) ++
        [move 4 1 1] ++
        -- Fault xP together.
        (if left.isSame then [.write 0] else []) ++
        [move 1 3 1] ++
        (if conf.primaryPopulated then [.write 3] else []) ++
        -- If x, y differently faulted, fault in separately.
        (if left.isDiff && right.isDiff && left ≠ right then [.write 0, .write 5] else []) ++
        [move 5 1 1] ++
        (if left.isDiff && right.isDiff then [.write 0] else []) ++
        [move 3 9 1, move 1 2 1] ++
        (if left.isNone then [.munmap 0 1] else []) ++
        (if right.isNone then [.munmap 2 1] else [])

def queryResult (pageSize ptr : Word) (vma : Word × Word) : QueryResult :=
  let len := vma.2 - vma.1
  if len ≤ pageSize then .noMerge
  else if len = 3#64 * pageSize then .mergeAll
  else if vma.1 = ptr then .merge01
  else if vma.1 = ptr + pageSize then .merge12
  else .mergeUnknown

def queryPtr (k : Kernel) (ptr : Word) (log : Log) : Except Log (QueryResult × Log) := do
  let log ← k.call log (.query 1)
  return (queryResult k.pageSize ptr (k.vma log.calls), log)

def _tryMremap (k : Kernel) (conf : Config) (log : Log) : Except Log (QueryResult × Log) := do
  let log ← k.call log (.reserve 10)
  let ptr := k.ptr log.calls
  let log ← (initMappings conf).foldlM k.call log
  let log ← k.call log (.mremap conf.relocateAnon 9 1 1)
  queryPtr k ptr log

/-- `*bypass` of `try_mremap()`. -/
def Config.bypass (conf : Config) : Bool :=
  conf.states.1.isNone && conf.states.2.isNone ||
    !conf.primaryPopulated && (conf.states.1.isSame || conf.states.2.isSame)

/-- `try_mremap()`, and `print_query_result()` unless it is bypassed. -/
def tryMremap (k : Kernel) (conf : Config) (log : Log) : Except Log Log := do
  if conf.bypass then return log
  let (res, log) ← _tryMremap k conf log
  return { log with printed := log.printed ++ [.result conf res] }

/-- The calls of `do_mremap_mprotect()` up to the query, and the ones after it. A fixed mapping is where it was asked
for: `ptr2` is page 50, and `ptr3` is page 60. -/
def mprotectCalls (relocateAnon : Bool) : List Sys :=
  [.reserve 100, .munmap 0 100, .mmap true 0 10, .mmap true 50 10, .write 50, .mprotect 50 10 false, .write 5,
    .mremap relocateAnon 5 60 5, .mprotect 50 10 true, .query 50]
def mprotectCleanup : List Sys := [.munmap 0 5, .munmap 50 10, .munmap 60 10]

def doMremapMprotect (k : Kernel) (conf : Config) (log : Log) : Except Log Log := do
  let log ← (mprotectCalls conf.relocateAnon).foldlM k.call log
  let vma := k.vma log.calls
  let merged := decide (vma.2 - vma.1 > 10#64 * k.pageSize)
  mprotectCleanup.foldlM k.call { log with printed := log.printed ++ [.mprotect merged] }

/-- The body of the loops of `iterate_cases()`. -/
def bothCases (k : Kernel) (r : Config × Log) (states : VmaState × VmaState) : Except Log (Config × Log) := do
  let conf := { r.1 with states := states }
  let log ← tryMremap k conf r.2
  let conf := { conf with primaryPopulated := true }
  let log ← tryMremap k conf log
  return (conf, log)

def iterateCases (k : Kernel) (conf : Config) (log : Log) : Except Log (Config × Log) := do
  let (conf, log) ← (VmaState.all.product VmaState.all).foldlM (bothCases k) (conf, log)
  let log ← doMremapMprotect k conf log
  return (conf, log)

/-- `main()`. An error is `EXIT_FAILURE`. -/
def main (k : Kernel) : Except Log Log := do
  let log ← k.call ⟨[], []⟩ .openMaps
  let (conf, log) ← iterateCases k ⟨(.noVma, .noVma), false, false⟩ log
  let conf := { conf with relocateAnon := true }
  let (_, log) ← iterateCases k conf { log with printed := log.printed ++ [.withRelocateAnon] }
  k.call log .close

/-! ## Calls until one fails

`Kernel.Grants` looks at each call with the calls before it. Either all calls are granted, or there
is a first one that is not. -/

variable {k : Kernel} {log log' : Log} {calls before : List Sys} {conf : Config}

theorem call_of_stops {s : Sys} (h : k.stops log.calls s = true) :
    k.call log s = throw { log with calls := log.calls ++ [s] } := by
  rw [Kernel.call, if_pos h]

theorem call_of_not_stops {s : Sys} (h : ¬k.stops log.calls s = true) :
    k.call log s = pure { log with calls := log.calls ++ [s] } := by
  rw [Kernel.call, if_neg h]

/-- None of these calls ends the program, after those before them. -/
def Kernel.Grants (k : Kernel) : List Sys → List Sys → Prop
  | _, [] => True
  | before, s :: calls => k.stops before s = false ∧ k.Grants (before ++ [s]) calls

theorem Kernel.grants_append {calls' : List Sys} :
    k.Grants before (calls ++ calls') ↔ k.Grants before calls ∧ k.Grants (before ++ calls) calls' := by
  induction calls generalizing before with
  | nil => simp [Kernel.Grants]
  | cons s calls ih =>
      show _ ∧ k.Grants (before ++ [s]) (calls ++ calls') ↔ (_ ∧ _) ∧ _
      rw [ih, and_assoc, List.append_assoc, List.singleton_append]

/-- None of the calls that are granted stops the program. -/
theorem Kernel.Grants.not_stops {pre : List Sys} {s : Sys} (h : k.Grants before calls) (hpre : pre ++ [s] <+: calls) :
    k.stops (before ++ pre) s = false := by
  obtain ⟨post, rfl⟩ := hpre
  rw [Kernel.grants_append, Kernel.grants_append] at h
  exact h.1.2.1

/-- Calls end at the first one that stops the program, or all of them are made. -/
theorem foldlM_call (k : Kernel) (calls : List Sys) (log : Log) :
    (∃ pre s, pre ++ [s] <+: calls ∧ k.Grants log.calls pre ∧ k.stops (log.calls ++ pre) s = true ∧
      calls.foldlM k.call log = throw { log with calls := log.calls ++ (pre ++ [s]) }) ∨
    k.Grants log.calls calls ∧ calls.foldlM k.call log = pure { log with calls := log.calls ++ calls } := by
  induction calls generalizing log with
  | nil => exact .inr ⟨trivial, by rw [List.append_nil]; rfl⟩
  | cons s calls ih =>
      by_cases hstops : k.stops log.calls s = true
      · refine .inl ⟨[], s, ⟨calls, rfl⟩, trivial, by rwa [List.append_nil], ?_⟩
        rw [List.foldlM_cons, call_of_stops hstops]
        rfl
      · rw [List.foldlM_cons, call_of_not_stops hstops, pure_bind]
        have hgoes : k.stops log.calls s = false := Bool.not_eq_true _ ▸ hstops
        rcases ih { log with calls := log.calls ++ [s] } with ⟨pre, x, ⟨post, hpre⟩, hg, hx, hrest⟩ | ⟨hg, hrest⟩
        · refine .inl ⟨s :: pre, x, ⟨post, congrArg (s :: ·) hpre⟩, ⟨hgoes, hg⟩, ?_, ?_⟩
          · rwa [List.append_assoc] at hx
          · rw [List.append_assoc] at hrest
            exact hrest
        · rw [List.append_assoc] at hrest
          exact .inr ⟨⟨hgoes, hg⟩, hrest⟩

/-- Where all of them are made, the log has them. -/
theorem foldlM_call_bind {α : Type} (f : Log → Except Log α) : calls.foldlM k.call log >>= f =
    calls.foldlM k.call log >>= fun _ => f { log with calls := log.calls ++ calls } := by
  rcases foldlM_call k calls log with ⟨pre, s, -, -, -, h⟩ | ⟨-, h⟩
  · rw [h]
    rfl
  · rw [h, pure_bind, pure_bind]

/-! ## The plan

Which calls the program makes, and what it prints after them, does not depend on the answers of the kernel: these only
decide how far it gets, and what the lines say.
-/

/-- Some calls, and what is printed once they are made, given the calls before them. -/
structure Step where
  calls : List Sys
  lines : Kernel → List Sys → List Line

def Step.run (k : Kernel) (log : Log) (step : Step) : Except Log Log := do
  let log' ← step.calls.foldlM k.call log
  return { log' with printed := log'.printed ++ step.lines k log.calls }

def Step.silent (calls : List Sys) : Step := ⟨calls, fun _ _ => []⟩

/-- A configuration is set up, the page is moved, and the kernel is asked for the VMA. -/
def Config.testCalls (conf : Config) : List Sys :=
  .reserve 10 :: (initMappings conf ++ [.mremap conf.relocateAnon 9 1 1, .query 1])

def Config.test (conf : Config) : Step where
  calls := conf.testCalls
  lines k before := [.result conf
    (queryResult k.pageSize (k.ptr (before ++ [.reserve 10])) (k.vma (before ++ conf.testCalls)))]

def mprotectTest (relocateAnon : Bool) : Step where
  calls := mprotectCalls relocateAnon
  lines k before :=
    let vma := k.vma (before ++ mprotectCalls relocateAnon)
    [.mprotect (decide (vma.2 - vma.1 > 10#64 * k.pageSize))]

/-- The configurations that are tried for these neighbours: each of them twice, with the page populated. -/
def cases (relocateAnon : Bool) (states : List (VmaState × VmaState)) : List Config :=
  (states.filter fun s => s ≠ (.noVma, .noVma)).flatMap fun s => List.replicate 2 ⟨s, true, relocateAnon⟩

def pass (relocateAnon : Bool) : List Step :=
  (cases relocateAnon (VmaState.all.product VmaState.all)).map Config.test ++
    [mprotectTest relocateAnon, .silent mprotectCleanup]

def plan : List Step :=
  .silent [.openMaps] :: (pass false ++ ⟨[], fun _ _ => [.withRelocateAnon]⟩ :: (pass true ++ [.silent [.close]]))

def planCalls (steps : List Step) : List Sys := steps.flatMap Step.calls

@[simp] theorem planCalls_cons (step : Step) (steps : List Step) :
    planCalls (step :: steps) = step.calls ++ planCalls steps := List.flatMap_cons

/-- What is printed by these steps, after these calls. -/
def planLines (k : Kernel) (before : List Sys) : List Step → List Line
  | [] => []
  | step :: steps => step.lines k before ++ planLines k (before ++ step.calls) steps

/-! ## The program keeps to the plan

Function by function, from the inside out. Each test leaves the configuration as the next one needs
it. -/

theorem run_silent : (Step.silent calls).run k log = calls.foldlM k.call log := by
  show (calls.foldlM k.call log >>= fun log' => pure { log' with printed := log'.printed ++ [] }) = _
  simp only [List.append_nil]
  exact bind_pure _

theorem tryMremap_bypass (h : conf.bypass = true) : tryMremap k conf log = pure log := by
  rw [tryMremap, if_pos h]

theorem tryMremap_test (h : conf.bypass = false) : tryMremap k conf log = conf.test.run k log := by
  have hcalls : tryMremap k conf log = conf.testCalls.foldlM k.call log >>= fun log' => pure { log' with
      printed := log'.printed ++ [.result conf
        (queryResult k.pageSize (k.ptr (log.calls ++ [.reserve 10])) (k.vma log'.calls))] } := by
    rw [tryMremap, if_neg (by simp [h]), _tryMremap, Config.testCalls, List.foldlM_cons]
    by_cases hstops : k.stops log.calls (.reserve 10) = true
    · rw [call_of_stops hstops]
      rfl
    · simp only [call_of_not_stops hstops, queryPtr, bind_assoc, pure_bind, List.foldlM_append, List.foldlM_cons,
        List.foldlM_nil]
  rw [hcalls, foldlM_call_bind]
  exact (foldlM_call_bind fun log' => pure { log' with
    printed := log'.printed ++ conf.test.lines k log.calls }).symm

theorem doMremapMprotect_eq : doMremapMprotect k conf log =
    [mprotectTest conf.relocateAnon, .silent mprotectCleanup].foldlM (Step.run k) log := by
  simp only [List.foldlM_cons, List.foldlM_nil, bind_pure, run_silent]
  rw [doMremapMprotect, foldlM_call_bind, Step.run, bind_assoc]
  simp only [pure_bind]
  exact (foldlM_call_bind fun log' => mprotectCleanup.foldlM k.call { log' with
    printed := log'.printed ++ (mprotectTest conf.relocateAnon).lines k log.calls }).symm

variable {states : VmaState × VmaState} {steps steps' : List Step}

/-- Once the page counts as populated, a pair of neighbours is tried twice in the same way. -/
theorem bothCases_populated (h : conf.primaryPopulated = true) :
    bothCases k (conf, log) states = ((cases conf.relocateAnon [states]).map Config.test).foldlM (Step.run k) log >>=
      fun log' => pure (⟨states, true, conf.relocateAnon⟩, log') := by
  obtain ⟨before, populated, relocateAnon⟩ := conf
  obtain rfl : populated = true := h
  rw [bothCases]
  by_cases hnone : states = (.noVma, .noVma)
  · subst hnone
    have hbypass : Config.bypass ⟨(.noVma, .noVma), true, relocateAnon⟩ = true := rfl
    simp only [tryMremap_bypass hbypass, pure_bind]
    rfl
  · have hbypass : Config.bypass ⟨states, true, relocateAnon⟩ = false := by
      rw [Config.bypass, ← Bool.not_eq_true]
      simp only [VmaState.isNone, Bool.not_true, Bool.false_and, Bool.or_false, Bool.and_eq_true, decide_eq_true_eq]
      exact fun h => hnone (Prod.ext h.1 h.2)
    have hcases : cases relocateAnon [states] = [⟨states, true, relocateAnon⟩, ⟨states, true, relocateAnon⟩] := by
      simp [cases, hnone]
    simp only [tryMremap_test hbypass, hcases, List.map_cons, List.map_nil, List.foldlM_cons, List.foldlM_nil,
      bind_assoc, pure_bind]

theorem bothCases_noVma : bothCases k (conf, log) (.noVma, .noVma) =
    pure (⟨(.noVma, .noVma), true, conf.relocateAnon⟩, log) := by
  have hbypass (populated : Bool) : Config.bypass ⟨(.noVma, .noVma), populated, conf.relocateAnon⟩ = true := by
    simp [Config.bypass, VmaState.isNone]
  rw [bothCases]
  simp only [tryMremap_bypass (hbypass _), pure_bind]

/-- **A pass with the flag set** tries every case twice. -/
theorem foldlM_bothCases (k : Kernel) (relocateAnon : Bool) (all : List (VmaState × VmaState))
    (before : VmaState × VmaState) : ∃ after, ∀ log,
    all.foldlM (bothCases k) (⟨before, true, relocateAnon⟩, log) =
      ((cases relocateAnon all).map Config.test).foldlM (Step.run k) log >>=
        fun log' => pure (⟨after, true, relocateAnon⟩, log') := by
  induction all generalizing before with
  | nil => exact ⟨before, fun log => rfl⟩
  | cons s all ih =>
      obtain ⟨after, ih⟩ := ih s
      refine ⟨after, fun log => ?_⟩
      have hcases : cases relocateAnon (s :: all) = cases relocateAnon [s] ++ cases relocateAnon all := by
        rw [cases, cases, cases, ← List.flatMap_append, ← List.filter_append]
        rfl
      rw [List.foldlM_cons, bothCases_populated rfl, hcases, List.map_append, List.foldlM_append]
      simp only [bind_assoc, pure_bind, ih]

theorem iterateCases_populated (k : Kernel) (relocateAnon : Bool) (before : VmaState × VmaState) : ∃ after, ∀ log,
    iterateCases k ⟨before, true, relocateAnon⟩ log =
      (pass relocateAnon).foldlM (Step.run k) log >>= fun log' => pure (⟨after, true, relocateAnon⟩, log') := by
  obtain ⟨after, hloop⟩ := foldlM_bothCases k relocateAnon (VmaState.all.product VmaState.all) before
  refine ⟨after, fun log => ?_⟩
  rw [iterateCases, hloop, pass, List.foldlM_append]
  simp only [bind_assoc, pure_bind, doMremapMprotect_eq]

/-- The program does what is planned. -/
theorem main_eq (k : Kernel) : main k = plan.foldlM (Step.run k) ⟨[], []⟩ := by
  -- The first two neighbours are missing: the flag is set before anything is tried.
  have hfirst (log : Log) : iterateCases k ⟨(.noVma, .noVma), false, false⟩ log =
      iterateCases k ⟨(.noVma, .noVma), true, false⟩ log := by
    have hstates : VmaState.all.product VmaState.all =
        (.noVma, .noVma) :: (VmaState.all.product VmaState.all).tail := rfl
    rw [iterateCases, iterateCases, hstates, List.foldlM_cons, List.foldlM_cons, bothCases_noVma, bothCases_noVma]
  obtain ⟨after, hwithout⟩ := iterateCases_populated k false (.noVma, .noVma)
  obtain ⟨last, hwith⟩ := iterateCases_populated k true after
  rw [main, plan]
  simp only [hfirst, hwithout, hwith, bind_assoc, pure_bind, List.foldlM_cons, List.foldlM_append, List.foldlM_nil,
    run_silent, bind_pure]
  rfl

/-! ## How the program ends

The steps that were done, and the calls of the next one up to the call that failed. -/

theorem run_step (k : Kernel) (step : Step) (log : Log) :
    (∃ pre s, pre ++ [s] <+: step.calls ∧ k.Grants log.calls pre ∧ k.stops (log.calls ++ pre) s = true ∧
      step.run k log = throw { log with calls := log.calls ++ (pre ++ [s]) }) ∨
    k.Grants log.calls step.calls ∧
      step.run k log = pure ⟨log.calls ++ step.calls, log.printed ++ step.lines k log.calls⟩ := by
  rw [Step.run]
  rcases foldlM_call k step.calls log with ⟨pre, s, hpre, hg, hs, h⟩ | ⟨hg, h⟩
  · refine .inl ⟨pre, s, hpre, hg, hs, ?_⟩
    rw [h]
    rfl
  · refine .inr ⟨hg, ?_⟩
    rw [h, pure_bind]

/-- Some steps end at a call of one of them, or all of them are done. -/
theorem foldlM_run (k : Kernel) (steps : List Step) (log : Log) :
    (∃ done step rest pre s, steps = done ++ step :: rest ∧ pre ++ [s] <+: step.calls ∧
      k.Grants log.calls (planCalls done ++ pre) ∧ k.stops (log.calls ++ (planCalls done ++ pre)) s = true ∧
      steps.foldlM (Step.run k) log =
        throw ⟨log.calls ++ (planCalls done ++ (pre ++ [s])), log.printed ++ planLines k log.calls done⟩) ∨
    k.Grants log.calls (planCalls steps) ∧ steps.foldlM (Step.run k) log =
      pure ⟨log.calls ++ planCalls steps, log.printed ++ planLines k log.calls steps⟩ := by
  induction steps generalizing log with
  | nil =>
      refine .inr ⟨trivial, ?_⟩
      rw [planCalls, List.flatMap_nil, planLines, List.append_nil, List.append_nil]
      rfl
  | cons step steps ih =>
      rcases run_step k step log with ⟨pre, s, hpre, hg, hs, hrun⟩ | ⟨hg, hrun⟩
      · refine .inl ⟨[], step, steps, pre, s, rfl, hpre, hg, hs, ?_⟩
        rw [List.foldlM_cons, hrun, planLines, List.append_nil]
        rfl
      · rw [List.foldlM_cons, hrun, pure_bind]
        rcases ih ⟨log.calls ++ step.calls, log.printed ++ step.lines k log.calls⟩ with
          ⟨done, x, rest, pre, s, rfl, hpre, hgrants, hs, hrest⟩ | ⟨hgrants, hrest⟩
        · refine .inl ⟨step :: done, x, rest, pre, s, rfl, hpre, ?_, ?_, ?_⟩
          · rw [planCalls_cons, List.append_assoc, Kernel.grants_append]
            exact ⟨hg, hgrants⟩
          · rw [planCalls_cons, List.append_assoc, ← List.append_assoc]
            exact hs
          · rw [hrest, planCalls_cons, planLines]
            simp only [List.append_assoc]
        · refine .inr ⟨?_, ?_⟩
          · rw [planCalls_cons, Kernel.grants_append]
            exact ⟨hg, hgrants⟩
          · rw [hrest, planCalls_cons, planLines]
            simp only [List.append_assoc]

/-- The steps from the start of the program. -/
theorem foldlM_run_start (k : Kernel) (steps : List Step) :
    (k.Grants [] (planCalls steps) ∧
      steps.foldlM (Step.run k) ⟨[], []⟩ = .ok ⟨planCalls steps, planLines k [] steps⟩) ∨
    ∃ done step rest pre s, steps = done ++ step :: rest ∧ pre ++ [s] <+: step.calls ∧
      k.Grants [] (planCalls done ++ pre) ∧ k.stops (planCalls done ++ pre) s = true ∧
      steps.foldlM (Step.run k) ⟨[], []⟩ = .error ⟨planCalls done ++ (pre ++ [s]), planLines k [] done⟩ :=
  (foldlM_run k steps ⟨[], []⟩).symm

/-- A page of the three, and whether it was written to. -/
structure Page where
  home : Nat
  written : Bool
  deriving DecidableEq

def place (slots : List (Option Page)) (page : Nat) (pages : List (Option Page)) : List (Option Page) :=
  slots.take page ++ pages ++ slots.drop (page + pages.length)

/-- Where the pages are after a call that succeeds. -/
def Sys.effect (slots : List (Option Page)) : Sys → List (Option Page)
  | .mmap _ page n => place slots page ((List.range n).map fun k => some ⟨page + k, false⟩)
  | .mremap _ src tgt n => place (place slots src (List.replicate n none)) tgt ((slots.drop src).take n)
  | .write page => slots.modify page (Option.map fun p => { p with written := true })
  | .munmap page n => place slots page (List.replicate n none)
  | _ => slots

/-- The call makes sense: what is moved or written to is there, and a move does not overlap itself. -/
def Sys.Sensible (slots : List (Option Page)) : Sys → Prop
  | .mremap _ src tgt n =>
    src + n ≤ slots.length ∧ (∀ p ∈ (slots.drop src).take n, p.isSome) ∧ (src + n ≤ tgt ∨ tgt + n ≤ src)
  | .write page => slots[page]?.join.isSome
  | _ => True

instance (slots : List (Option Page)) (s : Sys) : Decidable (s.Sensible slots) :=
  match s with
  | .mremap _ src tgt n => inferInstanceAs (Decidable
      (src + n ≤ slots.length ∧ (∀ p ∈ (slots.drop src).take n, p.isSome) ∧ (src + n ≤ tgt ∨ tgt + n ≤ src)))
  | .write page => inferInstanceAs (Decidable (slots[page]?.join.isSome = true))
  | .openMaps | .reserve _ | .mmap _ _ _ | .mprotect _ _ _ | .munmap _ _ | .query _ | .close =>
    inferInstanceAs (Decidable True)

/-- The configuration that is set up: a neighbour that is different alone is left empty, and of two that are different
only whether they differ from each other matters. -/
def Config.tested (conf : Config) : Config :=
  let (left, right) := conf.states
  if left.isDiff && right.isDiff then
    { conf with states := (.differentAnonVma, if left = right then .differentAnonVma else .differentAnonVma2) }
  else
    { conf with
      states := (if left.isDiff then .emptyAnonVma else left, if right.isDiff then .emptyAnonVma else right) }

/-- What stands at `ptr` after `init_mappings()`. -/
def Config.layout (conf : Config) : List (Option Page) :=
  let (left, right) := conf.states
  let bothSame := left.isSame && right.isSame && conf.primaryPopulated
  let bothDiff := left.isDiff && right.isDiff
  [if left.isNone then none else some ⟨0, left.isSame || bothDiff⟩, none,
    if right.isNone then none else some ⟨2, bothDiff && left ≠ right⟩] ++
    List.replicate 6 none ++ [some ⟨1, !bothSame && (right.isSame || conf.primaryPopulated)⟩]

variable {slots : List (Option Page)} {page : Nat}

/-- A write that is only made under a condition. -/
theorem foldl_effect_write (c : Bool) : (if c then [Sys.write page] else []).foldl Sys.effect slots =
    slots.modify page (Option.map fun p => { p with written := p.written || c }) := by
  cases c with
  | false =>
      have hsame : (fun p : Page => { p with written := p.written || false }) = id := by
        funext p
        rw [Bool.or_false]
        rfl
      rw [hsame, Option.map_id]
      exact (List.modify_id page slots).symm
  | true =>
      have hwritten : (fun p : Page => { p with written := p.written || true }) =
          fun p => { p with written := true } := by
        funext p
        rw [Bool.or_true]
      rw [hwritten]
      rfl

theorem foldl_effect_munmap (c : Bool) : (if c then [Sys.munmap page 1] else []).foldl Sys.effect slots =
    if c then place slots page [none] else slots := by
  cases c with
  | false => rfl
  | true => rfl

/-- Where the pages are after `init_mappings()`, if every call succeeds. -/
theorem foldl_effect_initMappings (conf : Config) :
    (initMappings conf).foldl Sys.effect (List.replicate 10 none) = conf.layout := by
  obtain ⟨⟨left, right⟩, populated, relocateAnon⟩ := conf
  by_cases hsame : (left.isSame && right.isSame && populated) = true
  · obtain ⟨⟨hleft, hright⟩, rfl⟩ : (left.isSame = true ∧ right.isSame = true) ∧ populated = true := by
      simpa using hsame
    obtain rfl : left = .sameAnonVma := of_decide_eq_true hleft
    obtain rfl : right = .sameAnonVma := of_decide_eq_true hright
    rfl
  · have hpair (c : Bool) : (if c then [Sys.write 0, .write 5] else []) =
        (if c then [Sys.write 0] else []) ++ if c then [.write 5] else [] := by
      cases c with
      | false => rfl
      | true => rfl
    have hnot : (left.isSame && right.isSame && populated) = false := Bool.not_eq_true _ ▸ hsame
    -- The left page is written to again if both are different.
    have hagain : (left.isSame || left.isDiff && right.isDiff && !decide (left = right) ||
        left.isDiff && right.isDiff) = (left.isSame || left.isDiff && right.isDiff) := by
      cases left.isDiff && right.isDiff with
      | false => simp
      | true => simp
    simp only [initMappings, if_neg hsame, hpair, List.foldl_cons, List.foldl_append, foldl_effect_write,
      foldl_effect_munmap, List.foldl_nil]
    cases hl : left.isNone with
    | false =>
        cases hr : right.isNone with
        | false => simp [Sys.effect, place, List.modify, List.replicate, List.range_succ, Config.layout, *]
        | true => simp [Sys.effect, place, List.modify, List.replicate, List.range_succ, Config.layout, *]
    | true =>
        cases hr : right.isNone with
        | false => simp [Sys.effect, place, List.modify, List.replicate, List.range_succ, Config.layout, *]
        | true => simp [Sys.effect, place, List.modify, List.replicate, List.range_succ, Config.layout, *]

theorem forall_config {P : Config → Prop}
    (h : ∀ left ∈ VmaState.all, ∀ right ∈ VmaState.all, ∀ populated relocate, P ⟨(left, right), populated, relocate⟩)
    (conf : Config) : P conf := by
  obtain ⟨⟨left, right⟩, populated, relocate⟩ := conf
  have hall : ∀ s : VmaState, s ∈ VmaState.all := by
    intro s
    cases s <;> decide
  exact h left (hall left) right (hall right) populated relocate

/-- A call on the pages as the calls before it leave them. -/
def onPages (slots : List (Option Page)) (s : Sys) : Option (List (Option Page)) := some (s.effect slots)

theorem initMappings_sensible (conf : Config) :
    EachStep onPages (fun slots s => s.Sensible slots) (List.replicate 10 none) (initMappings conf) := by
  have hcheck : ∀ conf : Config, checkEach onPages (fun slots s => s.Sensible slots) (List.replicate 10 none)
      (initMappings conf) = true := forall_config (by decide)
  exact .of_check (hcheck conf)

theorem initMappings_tested : ∀ conf : Config, initMappings conf = initMappings conf.tested :=
  forall_config (by decide)

def shown (calls : List Sys) : Config :=
  let relocate := decide (Sys.mremap true 1 9 1 ∈ calls ∨ Sys.mremap true 3 9 1 ∈ calls)
  let move := Sys.mremap relocate
  if move 1 9 1 ∈ calls then ⟨(.sameAnonVma, .sameAnonVma), true, relocate⟩
  else
    { states :=
        if [move 5 1 1, .write 0] <:+: calls then
          (.differentAnonVma, if .write 5 ∈ calls then .differentAnonVma2 else .differentAnonVma)
        else
          (if .munmap 0 1 ∈ calls then .noVma
            else if [move 4 1 1, .write 0] <:+: calls then .sameAnonVma else .emptyAnonVma,
          if .munmap 2 1 ∈ calls then .noVma
            else if .write 4 ∈ calls then .sameAnonVma else .emptyAnonVma)
      primaryPopulated := .write 3 ∈ calls
      relocateAnon := relocate }

theorem shown_initMappings : ∀ conf : Config, shown (initMappings conf) = conf.tested :=
  forall_config (by decide)

def Sys.relocates : Sys → Bool
  | .mremap relocateAnon _ _ _ => relocateAnon
  | _ => false

theorem Kernel.grants_of_forall (h : ∀ s ∈ calls, ∀ before, k.stops before s = false) : k.Grants before calls := by
  induction calls generalizing before with
  | nil => trivial
  | cons s calls ih => exact ⟨h s List.mem_cons_self before, ih fun x hx => h x (List.mem_cons_of_mem s hx)⟩

/-- Calls that the kernel grants are all made. -/
theorem foldlM_call_of_grants (log : Log) (h : k.Grants log.calls calls) :
    calls.foldlM k.call log = pure { log with calls := log.calls ++ calls } := by
  rcases foldlM_call k calls log with ⟨pre, s, hpre, -, hs, -⟩ | ⟨-, hcalls⟩
  · rw [h.not_stops hpre] at hs
    cases hs
  · exact hcalls

/-- Steps that the kernel grants are all done. -/
theorem foldlM_run_of_grants (log : Log) (steps : List Step) (h : k.Grants log.calls (planCalls steps)) :
    steps.foldlM (Step.run k) log =
      pure ⟨log.calls ++ planCalls steps, log.printed ++ planLines k log.calls steps⟩ := by
  rcases foldlM_run k steps log with ⟨done, step, rest, pre, s, rfl, ⟨post, hpre⟩, -, hs, -⟩ | ⟨-, hrun⟩
  · -- The call that stops the program is among those that are granted.
    have hmem : planCalls done ++ pre ++ [s] <+: planCalls (done ++ step :: rest) :=
      ⟨post ++ planCalls rest, by simp only [planCalls, List.flatMap_append, List.flatMap_cons, ← hpre, List.append_assoc]⟩
    rw [h.not_stops hmem] at hs
    cases hs
  · exact hrun

/-- Steps that the kernel grants up to this call. -/
theorem foldlM_run_stops {step : Step} {rest : List Step} {pre post : List Sys} {s : Sys} (steps : List Step)
    (hcalls : step.calls = pre ++ s :: post) (h : k.Grants [] (planCalls steps ++ pre))
    (hs : k.stops (planCalls steps ++ pre) s = true) :
    (steps ++ step :: rest).foldlM (Step.run k) ⟨[], []⟩ =
      .error ⟨planCalls steps ++ (pre ++ [s]), planLines k [] steps⟩ := by
  rw [Kernel.grants_append] at h
  have hrun : step.run k ⟨planCalls steps, planLines k [] steps⟩ =
      throw ⟨planCalls steps ++ (pre ++ [s]), planLines k [] steps⟩ := by
    rw [Step.run, hcalls, List.foldlM_append, foldlM_call_of_grants ⟨planCalls steps, _⟩ h.2, pure_bind,
      List.foldlM_cons, call_of_stops hs, List.append_assoc]
    rfl
  rw [List.foldlM_append, foldlM_run_of_grants ⟨[], []⟩ steps h.1, pure_bind, List.foldlM_cons]
  show step.run k ⟨planCalls steps, planLines k [] steps⟩ >>= _ = _
  rw [hrun]
  rfl

theorem initMappings_not_relocates : ∀ conf : Config, conf.relocateAnon = false →
    ∀ s ∈ initMappings conf, s.relocates = false :=
  forall_config (by decide)

theorem pass_not_relocates (s : Sys) (hs : s ∈ planCalls (pass false)) : s.relocates = false := by
  obtain ⟨step, hstep, hs⟩ := List.mem_flatMap.mp hs
  rcases List.mem_append.mp hstep with hstep | hstep
  · obtain ⟨conf, hconf, rfl⟩ := List.mem_map.mp hstep
    obtain ⟨states, -, hrep⟩ := List.mem_flatMap.mp hconf
    obtain rfl := List.eq_of_mem_replicate hrep
    rcases List.mem_cons.mp hs with rfl | hs
    · rfl
    · rcases List.mem_append.mp hs with hs | hs
      · exact initMappings_not_relocates _ rfl s hs
      · rcases List.mem_pair.mp hs with rfl | rfl
        · rfl
        · rfl
  · have hmprotect : ∀ s ∈ mprotectCalls false, s.relocates = false := by decide
    have hcleanup : ∀ s ∈ mprotectCleanup, s.relocates = false := by decide
    rcases List.mem_pair.mp hstep with rfl | rfl
    · exact hmprotect s hs
    · exact hcleanup s hs

def firstPass : List Step := .silent [.openMaps] :: (pass false ++ [⟨[], fun _ _ => [.withRelocateAnon]⟩])

theorem firstPass_not_relocates (s : Sys) (hs : s ∈ planCalls firstPass) : s.relocates = false := by
  rw [firstPass, planCalls_cons, planCalls, List.flatMap_append] at hs
  rcases List.mem_append.mp hs with hs | hs
  · obtain rfl := List.mem_singleton.mp hs
    rfl
  · rcases List.mem_append.mp hs with hs | hs
    · exact pass_not_relocates s hs
    · cases hs

/-- The second pass begins with a page that has an empty neighbour behind it. -/
theorem plan_eq : plan = firstPass ++ Config.test ⟨(.noVma, .emptyAnonVma), true, true⟩ ::
    ((cases true (VmaState.all.product VmaState.all)).tail.map Config.test ++
      [mprotectTest true, .silent mprotectCleanup] ++ [.silent [.close]]) := by
  have hcases : cases true (VmaState.all.product VmaState.all) =
      ⟨(.noVma, .emptyAnonVma), true, true⟩ :: (cases true (VmaState.all.product VmaState.all)).tail := by
    decide
  have hpass : pass true = Config.test ⟨(.noVma, .emptyAnonVma), true, true⟩ ::
      ((cases true (VmaState.all.product VmaState.all)).tail.map Config.test ++
        [mprotectTest true, .silent mprotectCleanup]) := by
    rw [pass, hcases]
    rfl
  rw [plan, hpass, firstPass]
  simp only [List.cons_append, List.append_assoc, List.nil_append]

/-- Where relocation is refused, the second pass ends at its first move, and none of its lines is printed. -/
theorem main_without_relocation (h : ∀ before s, k.stops before s = s.relocates) :
    main k = .error ⟨planCalls firstPass ++ [.reserve 10, .mmap false 0 3, .mremap true 1 4 2],
      planLines k [] firstPass⟩ := by
  have hgrants : k.Grants [] (planCalls firstPass ++ [.reserve 10, .mmap false 0 3]) := by
    refine Kernel.grants_of_forall fun s hs before => ?_
    rw [h]
    rcases List.mem_append.mp hs with hs | hs
    · exact firstPass_not_relocates s hs
    · rcases List.mem_pair.mp hs with rfl | rfl
      · rfl
      · rfl
  have hcalls : (Config.test ⟨(.noVma, .emptyAnonVma), true, true⟩).calls = [.reserve 10, .mmap false 0 3] ++
      .mremap true 1 4 2 :: (Config.testCalls ⟨(.noVma, .emptyAnonVma), true, true⟩).drop 3 := rfl
  have hstops : k.stops (planCalls firstPass ++ [.reserve 10, .mmap false 0 3]) (.mremap true 1 4 2) = true := h _ _
  rw [main_eq, plan_eq, foldlM_run_stops firstPass hcalls hgrants hstops, List.cons_append, List.cons_append,
    List.nil_append]

end MmExper.Random.Procmap
