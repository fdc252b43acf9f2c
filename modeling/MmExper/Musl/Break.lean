import MmExper.Musl.Contract

/-!
# What `__expand_heap` assumes about the break

Two things `__expand_heap` does not look at: whether `sbrk(n)` succeeded (the test `sbrk(n) >= 0`
compares pointers and is always true) and where the memory it got begins (it answers with its own copy
of the break). So a failing `sbrk` is taken for success, and the answer is right only as long as the
copy is the real break rounded up.
-/

namespace MmExper.Musl

open Bitwise Lib

variable {w : World} {sys : Sys} {s s' : State} {H : Heap} {n v : Word} {fuel p : Nat}

/-! ## A failing `sbrk`

After a refused `sbrk` the function goes on as if it had the memory, and `mmap` is never asked. Only
the overflow guard, which stands before `sbrk`, leads to `mmap`. -/

/-- The request is for the brk heap, and no list can serve it. -/
structure Grows (s : State) (n v : Word) : Prop where
  adjusted : adjustSize n = some v
  small : ¬v > mmapThreshold
  none : maskHighBits s.binmap (binIndexUp v) = 0#64

def TriesMmap (s s' : State) : Prop :=
  ∃ new len base, s'.calls = new ++ s.calls ∧ Syscall.mmap len base ∈ new

/-- `NULL`, and no word of memory, no counter and not the stored break is changed. -/
structure FailsCleanly (s s' : State) (p : Nat) : Prop where
  null : p = 0
  mem : s'.mem = s.mem
  stats : s'.stats = s.stats
  storedBrk : s'.storedBrk = s.storedBrk

/-- The request falls back on `mmap`, and when that fails too it fails cleanly. -/
def SbrkFailureHandled (sys : Sys) (n : Word) (s : State) : Prop :=
  ∃ fuel p s', muslMalloc sys fuel n s = .ret p s' ∧ TriesMmap s s' ∧
    (sys.mmap = none → FailsCleanly s s' p)

theorem Grows.toNat_le (h : Grows s n v) : v.toNat ≤ 229376 := not_gt_mmapThreshold.mp h.small

/-- A request that grows the heap goes straight to `expand_heap`. -/
theorem Grows.muslMalloc_eq (h : Grows s n v) (sys : Sys) (fuel : Nat) :
    muslMalloc sys (fuel + 1) n s =
      if (expandHeap sys v s).1 = 0 then .ret 0 (expandHeap sys v s).2
      else mallocTrim (expandHeap sys v s).1 v (expandHeap sys v s).2 := by
  have hclear : ¬(binIndexUp v < 63 ∧ isBitSet s.binmap (binIndexUp v)) := by
    rintro ⟨-, hbit⟩
    rw [isBitSet_eq_getLsbD] at hbit
    have hmask : (maskHighBits s.binmap (binIndexUp v)).getLsbD (binIndexUp v) = true := by
      rw [getLsbD_maskHighBits, hbit]
      simp
    rw [h.none] at hmask
    simp at hmask
  rw [muslMalloc, h.adjusted]
  simp only [if_neg h.small, if_neg hclear]
  rw [mallocSlow, searchBins, if_pos h.none]

/-- The state a growing request ends in, as far as nothing after `__expand_heap` changes it. -/
theorem Grows.result (h : Grows s n v) (sys : Sys) (fuel : Nat) :
    ∃ p s', muslMalloc sys (fuel + 1) n s = .ret p s' ∧
      s'.calls = (_expandHeap sys (v + sizeAlign) s).2.2.calls ∧
      s'.stats.mmapBytes = (_expandHeap sys (v + sizeAlign) s).2.2.stats.mmapBytes := by
  generalize he : _expandHeap sys (v + sizeAlign) s = r
  obtain ⟨q, m, t⟩ := r
  have hcalls : (expandHeap sys v s).2.calls = t.calls ∧
      (expandHeap sys v s).2.stats.mmapBytes = t.stats.mmapBytes := by
    rw [expandHeap, he]
    simp only []
    split
    · exact ⟨rfl, rfl⟩
    split <;> exact ⟨rfl, rfl⟩
  rw [h.muslMalloc_eq sys fuel]
  split
  · exact ⟨_, _, rfl, hcalls⟩
  · refine ⟨_, _, rfl, ?_, ?_⟩
    · rw [← hcalls.1]
      exact congrArg Vars.calls (trim_toVars _ _ _)
    · rw [← hcalls.2]
      exact (trim_totals _ _ _).mmap

/-- The guard before `sbrk(n)` lets the request through. -/
def AsksSbrk (s : State) (v : Word) : Prop :=
  wouldOverflow (align64Up (v + sizeAlign) pageSize) (fetchBrk s) = false

/-- A request no list can serve is far from the first guard. -/
theorem not_too_big (hv : v.toNat ≤ 229376) : ¬v + sizeAlign > sizeMax / 2#64 - pageSize := by
  have hmax : (sizeMax / 2#64 - pageSize).toNat = 9223372036854771711 := by decide
  rw [gt_iff_lt, BitVec.lt_def, hmax, BitVec.toNat_add, sizeAlign, BitVec.toNat_ofNat]
  omega

theorem fetchBrk_calls (s : State) :
    (fetchBrk s).calls = s.calls ∧ (fetchBrk s).stats = s.stats := by
  unfold fetchBrk
  split <;> exact ⟨rfl, rfl⟩

theorem _expandHeap_asks (hv : v.toNat ≤ 229376) (h : AsksSbrk s v) (hsys : sys.sbrk = false) :
    (_expandHeap sys (v + sizeAlign) s).2.2.calls =
      .sbrk (align64Up (v + sizeAlign) pageSize) false :: s.calls := by
  have hover : ¬wouldOverflow (align64Up (v + sizeAlign) pageSize) (fetchBrk s) = true := by
    rw [h]
    simp
  rw [_expandHeap_eq, if_neg (not_too_big hv), if_neg hover, ← (fetchBrk_calls s).1]
  generalize align64Up (v + sizeAlign) pageSize = m
  simp only [sbrkDone, State.sbrk, hsys, State.addHeap]
  rfl

theorem _expandHeapMmap_brk (sys : Sys) (n pn : Word) (s : State) :
    (_expandHeapMmap sys n pn s).2.2.brk = s.brk ∧
      (_expandHeapMmap sys n pn s).2.2.storedBrk = s.storedBrk := by
  rw [_expandHeapMmap]
  generalize (if n < pageSize <<< (s.mmapStep.toNat / 2)
    then pageSize <<< (s.mmapStep.toNat / 2) else n) = len
  rw [← s.mmap_brk sys len, ← s.mmap_storedBrk sys len]
  generalize s.mmap sys len = r
  split <;> exact ⟨rfl, rfl⟩

/-- The fallback asks `mmap`, and counts the bytes before it looks at the answer. -/
theorem _expandHeapMmap_asks (sys : Sys) (n pn : Word) (s : State) (hn : n ≠ 0#64) :
    ∃ len ≠ 0#64, (_expandHeapMmap sys n pn s).2.2.calls = .mmap len sys.mmap :: s.calls ∧
      (_expandHeapMmap sys n pn s).2.2.stats.mmapBytes = s.stats.mmapBytes + len := by
  rw [_expandHeapMmap]
  generalize hlen : (if n < pageSize <<< (s.mmapStep.toNat / 2)
    then pageSize <<< (s.mmapStep.toNat / 2) else n) = len
  refine ⟨len, ?_, ?_⟩
  · rw [← hlen]
    split
    · next hlt =>
      intro e
      rw [e] at hlt
      exact absurd hlt BitVec.not_lt_zero
    · exact hn
  · rw [← s.mmap_calls sys len, ← s.mmap_stats sys len]
    generalize s.mmap sys len = r
    split <;> exact ⟨rfl, rfl⟩

/-- When the guard keeps it from asking for more break, it asks `mmap`. -/
theorem _expandHeap_guarded (sys : Sys) (hv : v.toNat ≤ 229376) (h : ¬AsksSbrk s v) :
    ∃ len ≠ 0#64, (_expandHeap sys (v + sizeAlign) s).2.2.calls = .mmap len sys.mmap :: s.calls ∧
      (_expandHeap sys (v + sizeAlign) s).2.2.stats.mmapBytes = s.stats.mmapBytes + len := by
  have hover : wouldOverflow (align64Up (v + sizeAlign) pageSize) (fetchBrk s) = true := by
    simpa [AsksSbrk] using h
  have hpos : align64Up (v + sizeAlign) pageSize ≠ 0#64 := by
    rw [align64Up_growth hv]
    have hg := growth_spec hv
    intro e
    have := congrArg BitVec.toNat e
    rw [BitVec.toNat_ofNat, BitVec.toNat_ofNat] at this
    omega
  obtain ⟨hcalls, hstats⟩ := fetchBrk_calls s
  rw [_expandHeap_eq, if_neg (not_too_big hv), if_pos hover, ← hcalls, ← hstats]
  exact _expandHeapMmap_asks sys _ _ _ hpos

/-- A failing `sbrk` is not handled when it is called. -/
theorem not_handled (h : Grows s n v) (hsys : sys.sbrk = false) (ha : AsksSbrk s v) :
    ¬SbrkFailureHandled sys n s := by
  rintro ⟨fuel, p, s', hret, ⟨new, len, base, hnew, hmem⟩, -⟩
  obtain ⟨q, t, hres, hcalls, -⟩ := h.result sys fuel
  rw [muslMalloc_succ hret] at hres
  cases hres
  rw [hnew, _expandHeap_asks h.toNat_le ha hsys] at hcalls
  have hone : new = [.sbrk (align64Up (v + sizeAlign) pageSize) false] :=
    List.append_cancel_right (hcalls.trans (by simp))
  simp [hone] at hmem

/-- In a reachable state the guard lets every request through. -/
theorem Grows.asks (h : Grows w.state n v) (hw : Reachable w) : AsksSbrk w.state v := by
  obtain ⟨H, hinv⟩ := reachable_inv hw
  exact hinv.repr.wouldOverflow hinv.atBreak h.toNat_le

/-- **Running out of break** is handled only where `sbrk` is not even called, by the guard before it,
and `mmap` succeeds; in a reachable state it never is. -/
theorem sbrk_failure_iff (h : Grows s n v) (hsys : sys.sbrk = false) :
    (SbrkFailureHandled sys n s ↔ ¬AsksSbrk s v ∧ sys.mmap ≠ none) ∧
      ∀ w, Reachable w → w.state = s → ¬SbrkFailureHandled sys n s := by
  refine ⟨⟨fun hh => ?_, fun ⟨ha, hm⟩ => ?_⟩, ?_⟩
  · have ha : ¬AsksSbrk s v := fun ha => not_handled h hsys ha hh
    refine ⟨ha, fun hm => ?_⟩
    -- Both have failed, and `mmap_bytes` counts memory nobody has.
    obtain ⟨fuel, p, s', hret, -, hclean⟩ := hh
    obtain ⟨q, t, hres, -, hbytes⟩ := h.result sys fuel
    rw [muslMalloc_succ hret] at hres
    cases hres
    obtain ⟨len, hlen, -, hcount⟩ := _expandHeap_guarded sys h.toNat_le ha
    rw [(hclean hm).stats, hcount] at hbytes
    exact hlen (by simpa using hbytes.symm)
  · obtain ⟨q, t, hres, hcalls, -⟩ := h.result sys 0
    obtain ⟨len, -, hmmap, -⟩ := _expandHeap_guarded sys h.toNat_le ha
    exact ⟨1, q, t, hres, ⟨[.mmap len sys.mmap], len, sys.mmap, by rw [hcalls, hmmap]; rfl, by simp⟩,
      fun e => absurd e hm⟩
  · rintro w hw rfl
    exact not_handled h hsys (h.asks hw)

/-- A program that has just started and asks for 100 bytes. -/
theorem start_grows : Grows start.state 100#64 128#64 := ⟨by decide, by decide, by decide⟩

theorem sbrk_failure_iff_start :
    ¬SbrkFailureHandled ⟨false, some 0x7f0000000000⟩ 100#64 start.state :=
  (sbrk_failure_iff start_grows rfl).2 start start_reachable rfl

/-- The first growth of a program is one that is not handled. -/
theorem sbrk_failure_missed :
    ¬∀ w n v sys, Reachable w → Grows w.state n v → sys.sbrk = false →
      SbrkFailureHandled sys n w.state :=
  fun h => not_handled start_grows rfl (start_grows.asks start_reachable)
    (h start 100#64 128#64 ⟨false, none⟩ start_reachable start_grows rfl)

/-! ## A break that others move

`sbrk(n)` grants the bytes from the old break on, to whoever calls it. -/

/-- An answer of `__expand_heap` through `sbrk`, and what that `sbrk` granted. -/
structure Growth where
  ptr : Nat
  size : Nat
  grant : Option (Nat × Nat)
  deriving DecidableEq

/-- The allocator's state, its growths through `sbrk` and what `sbrk` granted to other code. -/
structure Shared where
  state : State
  mine : List Growth
  others : List (Nat × Nat)

/-- A call of `__expand_heap` with `*pn`, or an `sbrk(k)` of other code. -/
inductive Act where
  | expand (pn : Word) (sys : Sys)
  | other (k : Nat)

def Act.Nonzero : Act → Prop
  | .expand pn _ => pn ≠ 0#64
  | .other k => 0 < k

/-- `__expand_heap` answers through `sbrk`: neither guard stops it. -/
def ViaSbrk (pn : Word) (s : State) : Prop :=
  ¬pn > sizeMax / 2#64 - pageSize ∧ wouldOverflow (align64Up pn pageSize) (fetchBrk s) = false

instance (pn : Word) (s : State) : Decidable (ViaSbrk pn s) := inferInstanceAs (Decidable (_ ∧ _))

def newGrowth (pn : Word) (sys : Sys) (s : State) : Growth where
  ptr := (_expandHeap sys pn s).1
  size := (_expandHeap sys pn s).2.1.toNat
  grant := if sys.sbrk then some (s.brk, (align64Up pn pageSize).toNat) else none

def Shared.step (g : Shared) : Act → Shared
  | .expand pn sys =>
    { g with
      state := (_expandHeap sys pn g.state).2.2
      mine := if ViaSbrk pn g.state then newGrowth pn sys g.state :: g.mine else g.mine }
  | .other k =>
    { g with
      state := { g.state with brk := g.state.brk + k }
      others := (g.state.brk, k) :: g.others }

def Shared.run (g : Shared) (acts : List Act) : Shared := acts.foldl Shared.step g

/-- Every step of the run satisfies `P` in the state it is taken in. -/
def Shared.Steps (P : Shared → Act → Prop) : Shared → List Act → Prop
  | _, [] => True
  | g, a :: as => P g a ∧ Shared.Steps P (g.step a) as

/-- Nothing has been asked for yet; what others hold is below the break. -/
structure Shared.Initial (g : Shared) : Prop where
  brk : g.state.brk ≤ userTop
  storedBrk : g.state.storedBrk = 0#64
  mine : g.mine = []
  others : ∀ o ∈ g.others, o.1 + o.2 ≤ g.state.brk

/-- The caller of `__expand_heap` asks for something (it adds `SIZE_ALIGN`), so does other code, and
the kernel keeps the break below its own addresses. -/
def Shared.Allowed (g : Shared) (a : Act) : Prop :=
  a.Nonzero ∧ (g.step a).state.brk ≤ userTop

def Growth.Within (m : Growth) : Prop :=
  match m.grant with
  | none => False
  | some (a, len) => pageDown a ≤ m.ptr ∧ m.ptr + m.size ≤ pageUp (a + len)

/-- Every growth lies in the pages of its grant and apart from what others were granted. -/
def Shared.Granted (g : Shared) : Prop :=
  ∀ m ∈ g.mine, m.Within ∧ ∀ o ∈ g.others, Apart m.ptr m.size o.1 o.2

/-- The stored copy of the break is good for this step: a growth through `sbrk` needs it to be the
break rounded up, and `sbrk` to succeed; other code must not find the break below a growth. -/
def Shared.Meets (g : Shared) : Act → Prop
  | .expand pn sys => ViaSbrk pn g.state → sys.sbrk = true ∧
      (g.state.storedBrk = 0#64 ∨ g.state.storedBrk.toNat = pageUp g.state.brk)
  | .other _ => g.mine = [] ∨ g.state.storedBrk.toNat ≤ g.state.brk

/-- What a run whose steps meet their condition keeps. -/
structure Shared.Kept (g : Shared) : Prop where
  brk : g.state.brk ≤ userTop
  fresh : g.state.storedBrk = 0#64 → g.mine = []
  others : ∀ o ∈ g.others, o.1 + o.2 ≤ g.state.brk
  ends : ∀ m ∈ g.mine, m.ptr + m.size ≤ g.state.storedBrk.toNat
  /-- A break below the stored one is inside a growth. -/
  inside : g.mine ≠ [] → g.state.brk < g.state.storedBrk.toNat →
    ∃ m ∈ g.mine, m.ptr ≤ g.state.brk ∧ g.state.brk < m.ptr + m.size
  /-- A stored break that is not the real one rounded up is inside memory of others. -/
  stale : g.state.storedBrk ≠ 0#64 → g.state.storedBrk.toNat = pageUp g.state.brk ∨
    ∃ o ∈ g.others, g.state.storedBrk.toNat < o.1 + o.2
  granted : g.Granted

instance : DecidablePred Act.Nonzero
  | .expand pn _ => inferInstanceAs (Decidable (pn ≠ 0#64))
  | .other k => inferInstanceAs (Decidable (0 < k))

instance : DecidablePred Growth.Within
  | ⟨_, _, none⟩ => .isFalse id
  | ⟨p, n, some (a, len)⟩ => inferInstanceAs (Decidable (pageDown a ≤ p ∧ p + n ≤ pageUp (a + len)))

instance (g : Shared) : DecidablePred g.Meets
  | .expand _ _ => inferInstanceAs (Decidable (_ → _ ∧ _))
  | .other _ => inferInstanceAs (Decidable (_ ∨ _))

instance (g : Shared) : DecidablePred g.Allowed := fun _ => inferInstanceAs (Decidable (_ ∧ _))

instance (a alen b blen : Nat) : Decidable (Apart a alen b blen) := inferInstanceAs (Decidable (_ ∨ _))

instance : DecidablePred Shared.Granted := fun g => inferInstanceAs (Decidable (∀ m ∈ g.mine, _ ∧ _))

instance Shared.decidableSteps (P : Shared → Act → Prop) [∀ g, DecidablePred (P g)] :
    ∀ (g : Shared) (acts : List Act), Decidable (g.Steps P acts)
  | _, [] => .isTrue trivial
  | g, a :: as =>
    have := Shared.decidableSteps P (g.step a) as
    inferInstanceAs (Decidable (P g a ∧ Shared.Steps P (g.step a) as))

variable {g g' : Shared} {a : Act} {pn : Word} {acts : List Act}

theorem Shared.Initial.kept (h : g.Initial) : g.Kept where
  brk := h.brk
  fresh _ := h.mine
  others := h.others
  ends := by simp [h.mine]
  inside hm := absurd h.mine hm
  stale hs := absurd h.storedBrk hs
  granted := by simp [Shared.Granted, h.mine]

theorem le_pageUp (a : Nat) : a ≤ pageUp a := by
  simp only [pageUp]
  omega

/-- The copy of the break that `__expand_heap` works with. -/
theorem toNat_fetchBrk (hb : s.brk ≤ userTop) :
    (fetchBrk s).storedBrk.toNat =
      if s.storedBrk = 0#64 then pageUp s.brk else s.storedBrk.toNat := by
  have htop : userTop = 2 ^ 56 := rfl
  unfold fetchBrk
  split
  · have hself : s.sbrk0.toNat = s.brk := by
      rw [State.sbrk0, BitVec.toNat_ofNat]
      exact Nat.mod_eq_of_lt (by omega)
    rw [toNat_align64Up_page, hself]
    rw [hself]
    simp only [pageUp]
    omega
  · rfl

theorem fetchBrk_brk (s : State) : (fetchBrk s).brk = s.brk := by
  unfold fetchBrk
  split <;> rfl

/-- A call that answers through `sbrk`, where the stored break becomes `b` and the length `n`. -/
structure Via (pn : Word) (sys : Sys) (s : State) (b n : Nat) : Prop where
  growth : newGrowth pn sys s = ⟨b, n, if sys.sbrk then some (s.brk, n) else none⟩
  brk : (_expandHeap sys pn s).2.2.brk = if sys.sbrk then s.brk + n else s.brk
  storedBrk : (_expandHeap sys pn s).2.2.storedBrk.toNat = b + n
  base : b = if s.storedBrk = 0#64 then pageUp s.brk else s.storedBrk.toNat
  pages : n % 4096 = 0
  pos : pn ≠ 0#64 → 4096 ≤ n

theorem ViaSbrk.via (h : ViaSbrk pn s) (sys : Sys) (hb : s.brk ≤ userTop) :
    ∃ b n, Via pn sys s b n := by
  obtain ⟨hbig, hover⟩ := h
  have hmax : (sizeMax / 2#64 - pageSize).toNat = 9223372036854771711 := by decide
  -- The first guard keeps the rounding from wrapping, the second one the new break.
  have hpn : pn.toNat ≤ 9223372036854771711 := by
    rw [gt_iff_lt, BitVec.lt_def, hmax] at hbig
    omega
  have hn : (align64Up pn pageSize).toNat = pageUp pn.toNat := by
    apply toNat_align64Up_page
    simp only [pageUp]
    omega
  have heq : _expandHeap sys pn s = ((fetchBrk s).storedBrk.toNat, align64Up pn pageSize,
      sbrkDone sys (align64Up pn pageSize) (fetchBrk s)) := by
    rw [_expandHeap_eq, if_neg hbig, if_neg (by rw [hover]; simp)]
  have hroom : (fetchBrk s).storedBrk.toNat + (align64Up pn pageSize).toNat < 2 ^ 64 := by
    simp only [wouldOverflow, sizeMax, ge_iff_le, decide_eq_false_iff_not, BitVec.le_def] at hover
    rw [BitVec.toNat_sub_of_le] at hover
    · simp only [BitVec.toNat_ofNat] at hover
      omega
    · rw [BitVec.le_def, BitVec.toNat_ofNat]
      omega
  -- The break is not moved by asking for it.
  have hbrk := fetchBrk_brk s
  have hst := toNat_fetchBrk hb
  rw [hn] at hroom
  refine ⟨(fetchBrk s).storedBrk.toNat, pageUp pn.toNat, ⟨?_, ?_, ?_, hst, ?_, fun hne => ?_⟩⟩
  · rw [newGrowth, heq, hn]
  · rw [heq, ← hn, ← hbrk]
    generalize align64Up pn pageSize = m
    simp only [sbrkDone, State.sbrk, State.addHeap]
    split <;> rfl
  · rw [heq]
    simp only [sbrkDone, State.addHeap, BitVec.toNat_add, hn]
    exact Nat.mod_eq_of_lt hroom
  · simp only [pageUp]
    omega
  · have : pn.toNat ≠ 0 := fun e => hne (BitVec.eq_of_toNat_eq e)
    simp only [pageUp]
    omega

/-- Any other call leaves the break alone, and the stored break too unless it just fetched it. -/
theorem not_viaSbrk (h : ¬ViaSbrk pn s) (sys : Sys) : (_expandHeap sys pn s).2.2.brk = s.brk ∧
    ((_expandHeap sys pn s).2.2.storedBrk = s.storedBrk ∨
      (_expandHeap sys pn s).2.2.storedBrk = (fetchBrk s).storedBrk) := by
  rw [_expandHeap_eq]
  by_cases hbig : pn > sizeMax / 2#64 - pageSize
  · rw [if_pos hbig]
    exact ⟨rfl, .inl rfl⟩
  · have hover : wouldOverflow (align64Up pn pageSize) (fetchBrk s) = true := by
      by_contra hno
      exact h ⟨hbig, by simpa using hno⟩
    have hm := _expandHeapMmap_brk sys (align64Up pn pageSize) pn (fetchBrk s)
    rw [if_neg hbig, if_pos hover, hm.1, hm.2, fetchBrk_brk]
    exact ⟨rfl, .inr rfl⟩

/-- Growths and grants go on being apart when a growth is added. -/
theorem granted_cons {m : Growth} {t : State} :
    Shared.Granted ⟨t, m :: g.mine, g.others⟩ ↔
      (m.Within ∧ ∀ o ∈ g.others, Apart m.ptr m.size o.1 o.2) ∧ g.Granted := by
  simp only [Shared.Granted, List.forall_mem_cons]

/-- A growth through `sbrk` is granted exactly when the step meets its condition. -/
theorem Shared.Kept.granted_via {b n : Nat} (h : g.Kept) (hpn : pn ≠ 0#64)
    (hv : Via pn sys g.state b n) :
    ((newGrowth pn sys g.state).Within ∧
      ∀ o ∈ g.others, Apart (newGrowth pn sys g.state).ptr (newGrowth pn sys g.state).size o.1 o.2) ↔
      sys.sbrk = true ∧ (g.state.storedBrk = 0#64 ∨ g.state.storedBrk.toNat = pageUp g.state.brk) := by
  have hn := hv.pos hpn
  have hbase := hv.base
  rw [hv.growth]
  cases hs : sys.sbrk with
  | false => simp [Growth.Within]
  | true =>
      simp only [Growth.Within, if_true, true_and]
      constructor
      · rintro ⟨⟨hlo, -⟩, hap⟩
        by_contra hno
        rw [not_or] at hno
        rw [if_neg hno.1] at hbase
        -- The stored break is inside memory of others, and a page is too short to step over it.
        obtain hst | ⟨o, ho, hlt⟩ := h.stale hno.1
        · exact hno.2 hst
        have hend := h.others o ho
        have := hap o ho
        simp only [Apart, pageDown] at *
        omega
      · intro hst
        have hb : b = pageUp g.state.brk := by
          rw [hbase]
          split
          · rfl
          · next hne => exact hst.resolve_left hne
        have hle := le_pageUp g.state.brk
        refine ⟨⟨?_, ?_⟩, fun o ho => .inr ?_⟩
        · simp only [pageDown]
          omega
        · rw [pageUp_add hv.pages, hb]
        · have := h.others o ho
          omega

/-- A call of `__expand_heap` through `sbrk`. -/
theorem Shared.Kept.viaSbrk (h : g.Kept) (hok : g.Allowed (.expand pn sys))
    (hvia : ViaSbrk pn g.state) :
    ((g.step (.expand pn sys)).Granted ↔ g.Meets (.expand pn sys)) ∧
      (g.Meets (.expand pn sys) → (g.step (.expand pn sys)).Kept) := by
  obtain ⟨b, n, hv⟩ := hvia.via sys h.brk
  have hiff : (g.step (.expand pn sys)).Granted ↔ g.Meets (.expand pn sys) := by
    simp only [Shared.step, if_pos hvia, granted_cons, h.granted_via hok.1 hv, Shared.Meets]
    exact ⟨fun hg _ => hg.1, fun hm => ⟨hm hvia, h.granted⟩⟩
  refine ⟨hiff, fun hm => ?_⟩
  -- If the grant is where the growth is taken to be, the stored break is the real one afterwards.
  obtain ⟨hsys, hst⟩ := hm hvia
  have hbrk : (g.step (.expand pn sys)).state.brk = g.state.brk + n := by
    have := hv.brk
    rwa [hsys, if_pos rfl] at this
  have hnew : (g.step (.expand pn sys)).state.storedBrk.toNat = b + n := hv.storedBrk
  have hmine : (g.step (.expand pn sys)).mine = ⟨b, n, some (g.state.brk, n)⟩ :: g.mine := by
    rw [Shared.step, if_pos hvia, hv.growth, hsys, if_pos rfl]
  have hn := hv.pos hok.1
  have hb : b = pageUp g.state.brk := by
    rw [hv.base]
    split
    · rfl
    · next hne => exact hst.resolve_left hne
  have hle := le_pageUp g.state.brk
  have hup : pageUp g.state.brk < g.state.brk + 4096 := by
    simp only [pageUp]
    omega
  refine ⟨hok.2, fun e => ?_, fun o ho => ?_, fun m hm' => ?_, fun _ hlt => ?_, fun _ => .inl ?_,
    hiff.mpr hm⟩
  · rw [e, BitVec.toNat_ofNat] at hnew
    omega
  · have := h.others o ho
    omega
  · -- The new growth ends at the stored break, the old ones below it.
    rw [hmine] at hm'
    rw [hnew]
    rcases List.mem_cons.mp hm' with rfl | hm'
    · exact Nat.le_refl _
    · have := h.ends m hm'
      have := hst.resolve_left fun e => List.ne_nil_of_mem hm' (h.fresh e)
      omega
  · rw [hmine]
    rw [hnew, hbrk] at hlt
    exact ⟨_, List.mem_cons_self, by rw [hbrk]; simp only []; omega, by rw [hbrk]; exact hlt⟩
  · rw [hnew, hbrk, pageUp_add hv.pages, hb]

/-- Any other call of `__expand_heap`. -/
theorem Shared.Kept.notViaSbrk (h : g.Kept) (sys : Sys) (hvia : ¬ViaSbrk pn g.state) :
    (g.step (.expand pn sys)).Kept := by
  have hmine : (g.step (.expand pn sys)).mine = g.mine := by
    rw [Shared.step, if_neg hvia]
  obtain ⟨hbrk, hst⟩ := not_viaSbrk hvia sys
  change (g.step (.expand pn sys)).state.brk = _ at hbrk
  -- The stored break is what it was, or it was just fetched and nothing has grown yet.
  have hnew : (g.step (.expand pn sys)).state.storedBrk = g.state.storedBrk ∨ g.mine = [] ∧
      (g.step (.expand pn sys)).state.storedBrk.toNat = pageUp g.state.brk := by
    by_cases hz : g.state.storedBrk = 0#64
    · refine hst.imp id fun e => ⟨h.fresh hz, ?_⟩
      change (g.step (.expand pn sys)).state.storedBrk = _ at e
      rw [e, toNat_fetchBrk h.brk, if_pos hz]
    · refine .inl (hst.elim id fun e => ?_)
      rw [fetchBrk, if_neg hz] at e
      exact e
  have hgr : (g.step (.expand pn sys)).Granted := by
    rw [Shared.Granted, hmine]
    exact h.granted
  rcases hnew with e | ⟨hnil, e⟩
  · exact ⟨by rw [hbrk]; exact h.brk, by rw [e, hmine]; exact h.fresh, by rw [hbrk]; exact h.others,
      by rw [e, hmine]; exact h.ends, by rw [e, hbrk, hmine]; exact h.inside,
      by rw [e, hbrk]; exact h.stale, hgr⟩
  · exact ⟨by rw [hbrk]; exact h.brk, fun _ => by rw [hmine, hnil], by rw [hbrk]; exact h.others,
      by simp [hmine, hnil], fun hne => absurd (by rw [hmine, hnil]) hne,
      fun _ => .inl (by rw [e, hbrk]), hgr⟩

/-- An `sbrk` of other code. -/
theorem Shared.Kept.other {k : Nat} (h : g.Kept) (hok : g.Allowed (.other k)) :
    ((g.step (.other k)).Granted ↔ g.Meets (.other k)) ∧
      (g.Meets (.other k) → (g.step (.other k)).Kept) := by
  have hk : 0 < k := hok.1
  have hle := le_pageUp g.state.brk
  have hiff : (g.step (.other k)).Granted ↔ g.Meets (.other k) := by
    constructor
    · intro hg
      by_contra hno
      simp only [Shared.Meets, not_or, Nat.not_le] at hno
      -- The break is inside a growth, and so is the first byte of the new grant.
      obtain ⟨m, hm, hlo, hhi⟩ := h.inside hno.1 hno.2
      have := (hg m hm).2 (g.state.brk, k) List.mem_cons_self
      simp only [Apart] at this
      omega
    · intro hm m hmem
      refine ⟨(h.granted m hmem).1, fun o ho => ?_⟩
      rcases List.mem_cons.mp ho with rfl | ho
      · have := h.ends m hmem
        have := hm.resolve_left (List.ne_nil_of_mem hmem)
        exact .inl (by omega)
      · exact (h.granted m hmem).2 o ho
  refine ⟨hiff, fun hm => ⟨hok.2, h.fresh, fun o ho => ?_, h.ends, fun hne hlt => ?_, fun hz => ?_,
    hiff.mpr hm⟩⟩
  · change _ ≤ g.state.brk + k
    rcases List.mem_cons.mp ho with rfl | ho
    · exact Nat.le_refl _
    · have := h.others o ho
      omega
  · have hst := hm.resolve_left hne
    change g.state.brk + k < g.state.storedBrk.toNat at hlt
    omega
  · change g.state.storedBrk.toNat = pageUp (g.state.brk + k) ∨ _
    rcases h.stale hz with hst | ⟨o, ho, hlt⟩
    · by_cases hlt : g.state.storedBrk.toNat < g.state.brk + k
      · exact .inr ⟨_, List.mem_cons_self, hlt⟩
      · have hup : pageUp (g.state.brk + k) = pageUp g.state.brk := by
          simp only [pageUp] at *
          omega
        exact .inl (hst.trans hup.symm)
    · exact .inr ⟨o, List.mem_cons_of_mem _ ho, hlt⟩

/-- One step: what was granted stays apart exactly when the step meets its condition. -/
theorem Shared.Kept.step (h : g.Kept) (hok : g.Allowed a) :
    ((g.step a).Granted ↔ g.Meets a) ∧ (g.Meets a → (g.step a).Kept) := by
  cases a with
  | expand pn sys =>
      by_cases hvia : ViaSbrk pn g.state
      · exact h.viaSbrk hok hvia
      · have hk := h.notViaSbrk sys hvia
        exact ⟨⟨fun _ hv => absurd hv hvia, fun _ => hk.granted⟩, fun _ => hk⟩
  | other k => exact h.other hok

/-- From a state that keeps what it has to, the growths of a run are granted exactly when every step
meets its condition. -/
theorem Shared.Kept.run (h : g.Kept) (hok : g.Steps Shared.Allowed acts) :
    (∀ as, as <+: acts → (g.run as).Granted) ↔ g.Steps Shared.Meets acts := by
  induction acts generalizing g with
  | nil =>
      refine ⟨fun _ => trivial, fun _ as hpre => ?_⟩
      rw [List.prefix_nil.mp hpre]
      exact h.granted
  | cons a acts ih =>
      obtain ⟨hgr, hkept⟩ := h.step hok.1
      constructor
      · intro hg
        have hm := hgr.mp (hg [a] (by simp))
        refine ⟨hm, (ih (hkept hm) hok.2).mp fun as hpre => ?_⟩
        exact hg (a :: as) (List.cons_prefix_cons.mpr ⟨rfl, hpre⟩)
      · rintro ⟨hm, hms⟩ as hpre
        cases as with
        | nil => exact h.granted
        | cons b as =>
            obtain ⟨rfl, hrest⟩ := List.cons_prefix_cons.mp hpre
            exact (ih (hkept hm) hok.2).mpr hms as hrest

/-- **Growing a shared break** hands out only granted memory, in every state of a run, exactly when
every step of the run meets its condition. -/
theorem granted_iff (h : g.Initial) (hok : g.Steps Shared.Allowed acts) :
    (∀ as, as <+: acts → (g.run as).Granted) ↔ g.Steps Shared.Meets acts :=
  h.kept.run hok

/-- A program that has just started, with nobody else's memory below its break. -/
def startShared : Shared := ⟨start.state, [], []⟩

theorem startShared_initial : startShared.Initial := ⟨by decide, rfl, rfl, by simp [startShared]⟩

/-- Other code first, then two growths. -/
theorem granted_iff_run :
    (startShared.run [.other 4096, .expand 100#64 ⟨true, none⟩, .expand 5000#64 ⟨true, none⟩]).Granted :=
  (granted_iff startShared_initial (by decide)).mpr (by decide) _ List.prefix_rfl

/-- With an `sbrk` of other code in between, the second growth is where that grant is. -/
theorem granted_missed :
    ¬∀ (g : Shared) (acts : List Act), g.Initial → g.Steps Shared.Allowed acts →
      ∀ as, as <+: acts → (g.run as).Granted := by
  intro h
  have hg := h startShared [.expand 4096#64 ⟨true, none⟩, .other 4096, .expand 4096#64 ⟨true, none⟩]
    startShared_initial (by decide) _ List.prefix_rfl
  revert hg
  decide

end MmExper.Musl
