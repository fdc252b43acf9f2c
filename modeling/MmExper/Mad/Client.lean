import MmExper.Kernel.Handlers

/-!
# The clients of `/dev/gup_uaddr` and `/dev/gup_event`

The program `mad.c` asks the module to pin a page, to write to it and to unpin it. It writes through the C
library, which keeps the text until the file is closed, and does not look at what closing it returns. So it does
not notice what the module answers. Any number of copies can run at once; the calls of the handlers do not
overlap here.
-/

namespace MmExper.Mad

open Lib
open Kernel (gupEventWrite)

/-! ## The module, one call at a time

A write to `/dev/gup_uaddr` while no other handler runs, as a function. -/

/-- `gup_uaddr_write()`, where `addr_buf` holds `addrBuf` at first and pinning the page answers `ret`. -/
def gupUaddrWrite (mad : State Word) (addrBuf src : List Char) (off : Nat) (ret : Except Int Word) :
    Int × State Word :=
  if mad.currPage.isSome then (-einval, mad)
  else
    match readUaddr addrBuf src off with
    | none => (-einval, mad)
    | some _ =>
      match ret with
      | .error err => (err, mad)
      | .ok p => (src.length, { mad with currPage := some p, pins := p :: mad.pins })

section

variable {mad : State Word} {k : Nat}

/-- A call that nothing comes between goes through the steps of a handler. -/
theorem gupUaddrWrite_steps (hk : mad.handler k = .uaddrTest) (addrBuf src : List Char) (off : Nat)
    (ret : Except Int Word) :
    ∃ events, run step mad events = some ((gupUaddrWrite mad addrBuf src off ret).2.goes k
      (.returned (gupUaddrWrite mad addrBuf src off ret).1)) := by
  -- The steps of the handler, one after the other, up to where it returns.
  have htest : step mad (.test k) =
      some (mad.goes k (if mad.currPage.isSome then .returned (-einval) else .uaddrCopy)) := by
    simp only [step, hk]
  unfold gupUaddrWrite
  by_cases hpage : mad.currPage.isSome = true
  · refine ⟨[.test k], ?_⟩
    rw [run, htest, if_pos hpage, if_pos hpage]
    rfl
  · rw [if_neg hpage]
    have hcopy : step (mad.goes k .uaddrCopy) (.copy k addrBuf src off) = some (mad.goes k
        (match readUaddr addrBuf src off with
          | none => .returned (-einval)
          | some uaddr => .uaddrPin uaddr src.length)) := by
      simp only [step, Kernel.goes_handler]
      cases readUaddr addrBuf src off with
      | none => simp only [Kernel.goes_goes]
      | some uaddr => simp only [Kernel.goes_goes]
    cases huaddr : readUaddr addrBuf src off with
    | none =>
        refine ⟨[.test k, .copy k addrBuf src off], ?_⟩
        rw [run, htest, if_neg hpage, Option.bind_some, run, hcopy, huaddr]
        rfl
    | some uaddr =>
        refine ⟨[.test k, .copy k addrBuf src off, .pin k ret], ?_⟩
        rw [run, htest, if_neg hpage, Option.bind_some, run, hcopy, huaddr, Option.bind_some, run]
        simp only [step, Kernel.goes_handler, Kernel.goes_goes]
        cases ret with
        | error err => rfl
        | ok p =>
            simp only [State.goes]
            rfl

end

/-! ## The program

A client is where it is in `main()`. What the kernel answers to its calls comes from outside. -/

/-- `gup_page()`: whether it succeeds, and the module. `opened` says whether the device can be opened. What the
write answers is not looked at. -/
def gupPage (opened : Bool) (ptr : Word) (addrBuf : List Char) (ret : Except Int Word) (mad : State Word) :
    Bool × State Word :=
  if opened then (true, (gupUaddrWrite mad addrBuf (decimal ptr ++ ['\n']) 0 ret).2) else (false, mad)

def gupWriteEvent (event : BitVec 32) (opened : Bool) (eventBuf : List Char) (mad : State Word) :
    Bool × State Word :=
  if opened then (true, (gupEventWrite mad eventBuf (signedDecimal event ++ ['\n']) 0).2.2) else (false, mad)

def gupUnpin : Bool → List Char → State Word → Bool × State Word := gupWriteEvent 0

def gupWriteDirty : Bool → List Char → State Word → Bool × State Word := gupWriteEvent 1

/-- Where a client is in `main()`, once it has mapped the page and synced it. -/
inductive Client where
  /-- About to call `gup_page()`. -/
  | page
  /-- About to call `do_sync()`. -/
  | sync
  /-- About to call `gup_write_dirty()`. -/
  | dirty
  /-- About to call `gup_unpin()`, after something failed or not. -/
  | unpin (ok : Bool)
  /-- It has returned `EXIT_SUCCESS` or not. -/
  | exited (ok : Bool)
  deriving DecidableEq

structure Clients (ι : Type*) where
  mad : State Word
  client : ι → Client

def Clients.init {ι : Type*} : Clients ι := ⟨State.init, fun _ => .page⟩

/-- A client makes its next call. What the kernel makes of it comes from outside. -/
inductive Call (ι : Type*) where
  | gupPage (i : ι) (opened : Bool) (ptr : Word) (addrBuf : List Char) (ret : Except Int Word)
  | doSync (i : ι) (synced : Bool)
  | gupWriteDirty (i : ι) (opened : Bool) (eventBuf : List Char)
  | gupUnpin (i : ι) (opened : Bool) (eventBuf : List Char)

section

variable {ι : Type*} [DecidableEq ι]

def mainStep (s : Clients ι) : Call ι → Option (Clients ι)
  | .gupPage i opened ptr addrBuf ret =>
    match s.client i with
    | .page =>
      let (ok, mad) := gupPage opened ptr addrBuf ret s.mad
      some ⟨mad, Function.update s.client i (if ok then .sync else .exited false)⟩
    | _ => none
  | .doSync i synced =>
    match s.client i with
    | .sync => some ⟨s.mad, Function.update s.client i (if synced then .dirty else .unpin false)⟩
    | _ => none
  | .gupWriteDirty i opened eventBuf =>
    match s.client i with
    | .dirty =>
      let (ok, mad) := gupWriteDirty opened eventBuf s.mad
      some ⟨mad, Function.update s.client i (.unpin ok)⟩
    | _ => none
  | .gupUnpin i opened eventBuf =>
    match s.client i with
    | .unpin ok =>
      let (unpinned, mad) := gupUnpin opened eventBuf s.mad
      some ⟨mad, Function.update s.client i (.exited (ok && unpinned))⟩
    | _ => none

end

/-! ## What the module is left with

One call pins a page or unpins it, or it changes nothing. -/

section

variable {mad : State Word} {opened : Bool} {buf : List Char}

/-- The pins are what `curr_page` says, and nothing has gone wrong. -/
structure Kept (mad : State Word) : Prop where
  pins : mad.pins = mad.currPage.toList
  twice : mad.twice = false
  null : mad.null = false

/-- The page of a client is pinned, or nothing changes. -/
theorem gupUaddrWrite_cases (mad : State Word) (addrBuf src : List Char) (off : Nat) (ret : Except Int Word) :
    (gupUaddrWrite mad addrBuf src off ret).2 = mad ∨
      mad.currPage = none ∧
        ∃ p, (gupUaddrWrite mad addrBuf src off ret).2 = { mad with currPage := some p, pins := p :: mad.pins } := by
  unfold gupUaddrWrite
  by_cases hpage : mad.currPage.isSome = true
  · left
    rw [if_pos hpage]
  · rw [if_neg hpage]
    have hnone : mad.currPage = none := by simpa using hpage
    cases readUaddr addrBuf src off with
    | none => exact .inl rfl
    | some uaddr =>
        cases ret with
        | error err => exact .inl rfl
        | ok p => exact .inr ⟨hnone, p, rfl⟩

/-- The module reads the event of the client. -/
theorem gupEventWrite_line {event : BitVec 32} (hevent : event = 0 ∨ event = 1) (mad : State Word) (buf : List Char) :
    (gupEventWrite mad buf (signedDecimal event ++ ['\n']) 0).2.2 =
      if mad.currPage.isSome ∧ event = 0 then { mad.unpin with currPage := none } else mad := by
  have hread : readNumber sscanfD buf 9 0 (signedDecimal event ++ ['\n']) = (some event, 2) := by
    rcases hevent with rfl | rfl
    · exact readNumber_start (by decide) (by decide) (by decide)
    · exact readNumber_start (by decide) (by decide) (by decide)
  unfold gupEventWrite
  rw [hread]
  cases hpage : mad.currPage with
  | none => simp
  | some p =>
      rcases hevent with rfl | rfl
      · simp
      · simp

theorem Kept.gupPage (h : Kept mad) (ptr : Word) (ret : Except Int Word) :
    Kept (gupPage opened ptr buf ret mad).2 := by
  unfold Mad.gupPage
  split
  · rcases gupUaddrWrite_cases mad buf (decimal ptr ++ ['\n']) 0 ret with hsame | ⟨hpage, p, hpin⟩
    · exact hsame.symm ▸ h
    · have hpins := h.pins
      rw [hpage] at hpins
      refine hpin.symm ▸ ⟨?_, h.twice, h.null⟩
      rw [hpins]
      rfl
  · exact h

/-- Writing to the page leaves the pins alone. -/
theorem gupWriteDirty_snd : (gupWriteDirty opened buf mad).2 = mad := by
  unfold gupWriteDirty gupWriteEvent
  split
  · rw [gupEventWrite_line (.inr rfl), if_neg]
    rintro ⟨-, he⟩
    cases he
  · rfl

/-- Unpinning a page that is pinned. -/
theorem Kept.gupUnpin (h : Kept mad) :
    Kept (gupUnpin opened buf mad).2 ∧ (opened = true → (gupUnpin opened buf mad).2.currPage = none) := by
  unfold Mad.gupUnpin gupWriteEvent
  cases opened with
  | false => exact ⟨h, Bool.noConfusion⟩
  | true =>
      rw [if_pos rfl, gupEventWrite_line (.inl rfl)]
      cases hpage : mad.currPage with
      | none =>
          refine ⟨h, fun _ => ?_⟩
          exact hpage
      | some p =>
          have hpins := h.pins
          rw [hpage] at hpins
          have hunpin : mad.unpin = { mad with pins := [] } := by
            simp [State.unpin, hpage, hpins]
          rw [if_pos ⟨rfl, rfl⟩, hunpin]
          exact ⟨⟨rfl, h.twice, h.null⟩, fun _ => rfl⟩

end

/-! ## Interleavings

The client that unpins need not be the one that pinned. What is kept is that some client is going to
unpin as long as a page is pinned. -/

def Client.owes : Client → Bool
  | .sync => true
  | .dirty => true
  | .unpin _ => true
  | _ => false

def Client.failed : Client → Bool
  | .unpin ok => !ok
  | .exited ok => !ok
  | _ => false

def Call.client {ι : Type*} : Call ι → ι
  | .gupPage i _ _ _ _ => i
  | .doSync i _ => i
  | .gupWriteDirty i _ _ => i
  | .gupUnpin i _ _ => i

/-- A device cannot be opened, or the page not synced. -/
def Call.fails {ι : Type*} : Call ι → Bool
  | .gupPage _ opened _ _ _ => !opened
  | .doSync _ synced => !synced
  | .gupWriteDirty _ opened _ => !opened
  | .gupUnpin _ opened _ => !opened

/-- `gup_unpin()` cannot open its device. -/
def Call.unpinFails {ι : Type*} : Call ι → Bool
  | .gupUnpin _ opened _ => !opened
  | _ => false

section

variable {ι : Type*} [DecidableEq ι] {s s' : Clients ι} {c : Call ι} {calls : List (Call ι)} {i : ι}

inductive Calls (s : Clients ι) : Call ι → Clients ι → Prop
  | page (i : ι) (opened : Bool) (ptr : Word) (buf : List Char) (ret : Except Int Word) (hi : s.client i = .page) :
      Calls s (.gupPage i opened ptr buf ret) ⟨(gupPage opened ptr buf ret s.mad).2,
        Function.update s.client i (if opened then .sync else .exited false)⟩
  | sync (i : ι) (synced : Bool) (hi : s.client i = .sync) :
      Calls s (.doSync i synced) ⟨s.mad, Function.update s.client i (if synced then .dirty else .unpin false)⟩
  | dirty (i : ι) (opened : Bool) (buf : List Char) (hi : s.client i = .dirty) :
      Calls s (.gupWriteDirty i opened buf) ⟨s.mad, Function.update s.client i (.unpin opened)⟩
  | unpin (i : ι) (opened ok : Bool) (buf : List Char) (hi : s.client i = .unpin ok) :
      Calls s (.gupUnpin i opened buf) ⟨(gupUnpin opened buf s.mad).2,
        Function.update s.client i (.exited (ok && opened))⟩

theorem mainStep_cases (hs : mainStep s c = some s') : Calls s c s' := by
  cases c with
  | gupPage i opened ptr buf ret =>
      simp only [mainStep] at hs
      split at hs
      · next hi =>
        cases hs
        -- Whether the call fails is decided when the device is opened.
        have hok : (gupPage opened ptr buf ret s.mad).1 = opened := by
          unfold gupPage
          cases opened <;> rfl
        rw [hok]
        exact .page i opened ptr buf ret hi
      · cases hs
  | doSync i synced =>
      simp only [mainStep] at hs
      split at hs
      · next hi =>
        cases hs
        exact .sync i synced hi
      · cases hs
  | gupWriteDirty i opened buf =>
      simp only [mainStep] at hs
      split at hs
      · next hi =>
        cases hs
        have hok : (gupWriteDirty opened buf s.mad).1 = opened := by
          unfold gupWriteDirty gupWriteEvent
          cases opened <;> rfl
        rw [hok, gupWriteDirty_snd]
        exact .dirty i opened buf hi
      · cases hs
  | gupUnpin i opened buf =>
      simp only [mainStep] at hs
      split at hs
      · next ok hi =>
        cases hs
        have hok : (gupUnpin opened buf s.mad).1 = opened := by
          unfold gupUnpin gupWriteEvent
          cases opened <;> rfl
        rw [hok]
        exact .unpin i opened ok buf hi
      · cases hs

theorem Kept.step (h : Kept s.mad) (hs : mainStep s c = some s') : Kept s'.mad := by
  cases mainStep_cases hs with
  | page i opened ptr buf ret hi => exact h.gupPage ptr ret
  | sync i synced hi => exact h
  | dirty i opened buf hi => exact h
  | unpin i opened ok buf hi => exact h.gupUnpin.1

/-- As long as a page is pinned, some client is going to unpin. -/
def Owed (s : Clients ι) : Prop := s.mad.currPage.isSome = true → ∃ i, (s.client i).owes = true

/-- A client that goes on, and is still going to unpin. -/
theorem owes_update {j : ι} {h : Client} (hj : (s.client j).owes = true) (hi : i = j → h.owes = true) :
    ∃ j, (Function.update s.client i h j).owes = true := by
  by_cases he : i = j
  · exact ⟨i, by rw [Function.update_self]; exact hi he⟩
  · exact ⟨j, by rwa [Function.update_of_ne (Ne.symm he)]⟩

theorem Owed.step (hkept : Kept s.mad) (h : Owed s) (hs : mainStep s c = some s') (hc : c.unpinFails = false) :
    Owed s' := by
  cases mainStep_cases hs with
  | page i opened ptr buf ret hi =>
      intro hpage
      cases opened with
      -- The client has pinned the page, or finds one pinned. It will unpin either way.
      | true =>
          refine ⟨i, ?_⟩
          show (Function.update s.client i .sync i).owes = true
          rw [Function.update_self]
          rfl
      | false =>
          -- It did not open the device: whoever was going to unpin still is.
          obtain ⟨j, hj⟩ := h hpage
          refine owes_update hj fun he => ?_
          rw [← he, hi] at hj
          cases hj
  | sync i synced hi =>
      intro hpage
      obtain ⟨j, hj⟩ := h hpage
      refine owes_update hj fun _ => ?_
      cases synced <;> rfl
  | dirty i opened buf hi =>
      intro hpage
      obtain ⟨j, hj⟩ := h hpage
      exact owes_update hj fun _ => rfl
  | unpin i opened ok buf hi =>
      -- The page is unpinned, and there is nothing left to do.
      have hopened : opened = true := by simpa [Call.unpinFails] using hc
      intro hpage
      rw [hkept.gupUnpin.2 hopened] at hpage
      cases hpage

/-- Only its own calls tell a client that something failed. -/
theorem failed_step (hs : mainStep s c = some s') (i : ι) :
    (s'.client i).failed = ((s.client i).failed || (decide (c.client = i) && c.fails)) := by
  have hother : ∀ (j : ι) (h : Client), j ≠ i → (Function.update s.client j h i).failed = (s.client i).failed := by
    intro j h hne
    rw [Function.update_of_ne (Ne.symm hne)]
  cases mainStep_cases hs with
  | page j opened ptr buf ret hj =>
      by_cases he : j = i
      · subst he
        cases opened <;> simp [Call.client, Call.fails, hj, Client.failed]
      · simp [Call.client, he, hother]
  | sync j synced hj =>
      by_cases he : j = i
      · subst he
        cases synced <;> simp [Call.client, Call.fails, hj, Client.failed]
      · simp [Call.client, he, hother]
  | dirty j opened buf hj =>
      by_cases he : j = i
      · subst he
        cases opened <;> simp [Call.client, Call.fails, hj, Client.failed]
      · simp [Call.client, he, hother]
  | unpin j opened ok buf hj =>
      by_cases he : j = i
      · subst he
        cases opened <;> simp [Call.client, Call.fails, hj, Client.failed]
      · simp [Call.client, he, hother]

/-- What a run keeps. -/
theorem run_kept (hkept : Kept s.mad) (hrun : run mainStep s calls = some s') :
    Kept s'.mad ∧ ((∀ c ∈ calls, c.unpinFails = false) → Owed s → Owed s') ∧
      ∀ i, (s'.client i).failed = ((s.client i).failed || calls.any fun c => decide (c.client = i) && c.fails) := by
  induction calls generalizing s with
  | nil =>
      cases hrun
      exact ⟨hkept, fun _ h => h, fun i => by rw [List.any_nil, Bool.or_false]⟩
  | cons c calls ih =>
      rw [run] at hrun
      obtain ⟨t, hs, hrun⟩ := Option.bind_eq_some_iff.mp hrun
      obtain ⟨hk, howed, hfailed⟩ := ih (hkept.step hs) hrun
      refine ⟨hk, fun hc h => ?_, fun i => ?_⟩
      · exact howed (fun c' hc' => hc c' (List.mem_cons_of_mem _ hc'))
          (h.step hkept hs (hc c List.mem_cons_self))
      · rw [hfailed, failed_step hs, List.any_cons, Bool.or_assoc]

end

/-- The second client is refused, works on the page of the first one and unpins it. -/
def mixedCalls : List (Call Bool) :=
  [.gupPage true true 0x1000 [] (.ok 7), .gupPage false true 0x2000 [] (.ok 8), .doSync false true,
    .gupWriteDirty false true [], .gupUnpin false true [], .doSync true true, .gupWriteDirty true true [],
    .gupUnpin true true []]

end MmExper.Mad
