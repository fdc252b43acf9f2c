import MmExper.Lib.CharDevice
import MmExper.Lib.Runs

/-!
# Pinning a page

`mad.c` pins one page of user memory at a time: a write to `/dev/gup_uaddr` pins the page of an address,
and a write to `/dev/gup_event` unpins it or writes to it. Both look at `curr_page` first and change it
after calls that can block, and nothing keeps two writes from doing so at once.

Which pins are outstanding is not stored anywhere. It is kept beside the module's state here.
-/

namespace MmExper.Mad

open Lib

abbrev Word := BitVec 64

def einval : Int := 22

/-- Where a call of a write handler is. -/
inductive Handler where
  | returned (ret : Int)
  /-- `gup_uaddr_write()`: `curr_page` is tested, the address is read, the page is pinned. -/
  | uaddrTest
  | uaddrCopy
  | uaddrPin (uaddr : Word) (size : Nat)
  /-- `gup_event_write()`: `curr_page` is tested, the event is read. -/
  | eventTest
  | eventCopy
  /-- `unpin_curr_page()`: the page is unpinned, `curr_page` is cleared. -/
  | eventUnpin (size : Nat)
  | eventClear (size : Nat)
  /-- `write_dirty()`. -/
  | eventDirty (size : Nat)
  deriving DecidableEq

structure State (π : Type*) where
  currPage : Option π
  /-- How many calls of handlers there have been. -/
  started : Nat
  handler : Nat → Handler
  unloaded : Bool
  /-- The pins that have not been undone. -/
  pins : List π
  /-- A pin has been undone twice. -/
  twice : Bool
  /-- `NULL` has been unpinned. -/
  null : Bool

def State.init {π : Type*} : State π := ⟨none, 0, fun _ => .returned 0, false, [], false, false⟩

/-- Something happens: a write begins, a handler goes on, or the module is unloaded. What a handler
copies and what pinning a page answers comes from outside. -/
inductive Event (π : Type*) where
  | writeUaddr
  | writeEvent
  | test (k : Nat)
  | copy (k : Nat) (buf src : List Char) (off : Nat)
  | pin (k : Nat) (ret : Except Int π)
  | unpin (k : Nat)
  | clear (k : Nat)
  | dirty (k : Nat)
  | exit

def pageMask : Word := ~~~4095#64

/-- The address that `gup_uaddr_write()` reads, unless it fails. -/
def readUaddr (addrBuf src : List Char) (off : Nat) : Option Word :=
  let (count, addrBuf, _) := simpleWriteToBuffer addrBuf 254 off src
  if count = 0 then none
  else
    match sscanfUll (cString (addrBuf.set count '\x00')) with
    | none => none
    | some uaddr => if uaddr &&& ~~~pageMask ≠ 0#64 then none else some uaddr

def readEvent (eventBuf src : List Char) (off : Nat) : Option (BitVec 32) :=
  let (count, eventBuf, _) := simpleWriteToBuffer eventBuf 9 off src
  if count = 0 then none else sscanfD (cString (eventBuf.set count '\x00'))

/-- Where `gup_event_write()` goes on after it has read the event. -/
def dispatch (size : Nat) : Option (BitVec 32) → Handler
  | none => .returned (-einval)
  | some event =>
    if event = 0 then .eventUnpin size
    else if event = 1 then .eventDirty size
    -- Unrecognised event.
    else .returned (-einval)

def Handler.isReturned : Handler → Bool
  | .returned _ => true
  | _ => false

/-- The page has been unpinned, and `curr_page` still points to it. -/
def Handler.isClear : Handler → Bool
  | .eventClear _ => true
  | _ => false

/-- What a handler that is in progress has found out about `curr_page`. -/
def Handler.Knows {π : Type*} (h : Handler) (page : Option π) : Prop :=
  match h with
  | .uaddrCopy | .uaddrPin _ _ => page = none
  | .eventCopy | .eventUnpin _ | .eventDirty _ => page ≠ none
  | .returned _ | .uaddrTest | .eventTest | .eventClear _ => True

def State.Quiet {π : Type*} (s : State π) : Prop := ∀ k < s.started, (s.handler k).isReturned = true

/-- A handler is between unpinning the page and clearing `curr_page`. -/
def State.Clearing {π : Type*} (s : State π) : Prop := ∃ k < s.started, (s.handler k).isClear = true

instance {π : Type*} (s : State π) : Decidable s.Quiet :=
  inferInstanceAs (Decidable (∀ k < s.started, (s.handler k).isReturned = true))

instance {π : Type*} (s : State π) : Decidable s.Clearing :=
  inferInstanceAs (Decidable (∃ k < s.started, (s.handler k).isClear = true))

section

variable {π : Type*}

def State.goes (s : State π) (k : Nat) (h : Handler) : State π :=
  { s with handler := Function.update s.handler k h }

def State.call (s : State π) (h : Handler) : State π :=
  { s with started := s.started + 1, handler := Function.update s.handler s.started h }

variable [DecidableEq π]

/-- `unpin_user_pages_dirty_lock()` of `curr_page`. -/
def State.unpin (s : State π) : State π :=
  match s.currPage with
  | none => { s with null := true }
  | some p => if p ∈ s.pins then { s with pins := s.pins.erase p } else { s with twice := true }

def madExit (s : State π) : State π :=
  let s := if s.currPage.isSome then { s.unpin with currPage := none } else s
  { s with unloaded := true }

def step (s : State π) : Event π → Option (State π)
  | .writeUaddr => if s.unloaded then none else some (s.call .uaddrTest)
  | .writeEvent => if s.unloaded then none else some (s.call .eventTest)
  | .test k =>
    match s.handler k with
    | .uaddrTest => some (s.goes k (if s.currPage.isSome then .returned (-einval) else .uaddrCopy))
    | .eventTest => some (s.goes k (if s.currPage.isNone then .returned (-einval) else .eventCopy))
    | _ => none
  | .copy k buf src off =>
    match s.handler k with
    | .uaddrCopy =>
      match readUaddr buf src off with
      | none => some (s.goes k (.returned (-einval)))
      | some uaddr => some (s.goes k (.uaddrPin uaddr src.length))
    | .eventCopy => some (s.goes k (dispatch src.length (readEvent buf src off)))
    | _ => none
  | .pin k ret =>
    match s.handler k with
    | .uaddrPin _ size =>
      match ret with
      | .error err => some (s.goes k (.returned err))
      | .ok p => some { s.goes k (.returned size) with currPage := some p, pins := p :: s.pins }
    | _ => none
  | .unpin k =>
    match s.handler k with
    | .eventUnpin size => some (s.unpin.goes k (.eventClear size))
    | _ => none
  | .clear k =>
    match s.handler k with
    | .eventClear size => some { s.goes k (.returned size) with currPage := none }
    | _ => none
  | .dirty k =>
    match s.handler k with
    | .eventDirty size => some (s.goes k (.returned size))
    | _ => none
  | .exit => if s.Quiet ∧ s.unloaded = false then some (madExit s) else none

end

/-! ## What should hold

A handler tests `curr_page` some steps before it pins or unpins a page. `Careful` says that what the
test has found is still so. -/

section

variable {π : Type*} {s s' : State π} {e : Event π} {h : Handler} {j k size : Nat} {p : π}

/-- The pins are what `curr_page` says whenever no handler is in progress, none is undone twice, `NULL` is
never unpinned, and nothing stays pinned when the module is gone. -/
structure Sound (s : State π) : Prop where
  quiet : s.Quiet → s.pins = s.currPage.toList
  twice : s.twice = false
  null : s.null = false
  unloaded : s.unloaded = true → s.pins = []

/-- A page is pinned while `curr_page` is `NULL`, and unpinned while it is not and no other handler is about
to clear it. -/
def Careful (s : State π) : Event π → Prop
  | .pin _ (.ok _) => s.currPage = none
  | .unpin _ => s.currPage ≠ none ∧ ¬s.Clearing
  | _ => True

instance (s : State π) : (e : Event π) → Decidable (Careful s e)
  | .pin _ (.ok _) => decidable_of_iff (s.currPage.isNone = true) Option.isNone_iff_eq_none
  | .pin _ (.error _) => .isTrue trivial
  | .unpin _ => inferInstanceAs (Decidable (s.currPage ≠ none ∧ ¬s.Clearing))
  | .writeUaddr => .isTrue trivial
  | .writeEvent => .isTrue trivial
  | .test _ => .isTrue trivial
  | .copy _ _ _ _ => .isTrue trivial
  | .clear _ => .isTrue trivial
  | .dirty _ => .isTrue trivial
  | .exit => .isTrue trivial

structure Inv (s : State π) : Prop where
  fresh : ∀ k, s.started ≤ k → (s.handler k).isReturned = true
  pins : (∀ k, (s.handler k).isClear = false) → s.pins = s.currPage.toList
  clear : ∀ k, (s.handler k).isClear = true → s.currPage ≠ none ∧ s.pins = []
  one : ∀ j k, (s.handler j).isClear = true → (s.handler k).isClear = true → j = k
  twice : s.twice = false
  null : s.null = false
  unloaded : s.unloaded = true → s.Quiet ∧ s.pins = []

theorem Inv.init : Inv (State.init : State π) :=
  ⟨fun _ _ => rfl, fun _ => rfl, nofun, nofun, rfl, rfl, nofun⟩

theorem not_isClear_of_isReturned (hr : h.isReturned = true) : h.isClear = false := by
  cases h <;> first | rfl | cases hr

namespace Inv

variable (hinv : Inv s)
include hinv

/-- A call that is not over has begun. -/
theorem started (hk : (s.handler k).isReturned = false) : k < s.started := by
  by_contra hge
  rw [hinv.fresh k (Nat.le_of_not_lt hge)] at hk
  cases hk

theorem not_isClear_of_not_clearing (hc : ¬s.Clearing) (k : Nat) : (s.handler k).isClear = false := by
  by_contra hk
  have hk : (s.handler k).isClear = true := by simpa using hk
  refine hc ⟨k, hinv.started ?_, hk⟩
  by_contra hr
  rw [not_isClear_of_isReturned (by simpa using hr)] at hk
  cases hk

theorem not_isClear_of_quiet (hq : s.Quiet) (k : Nat) : (s.handler k).isClear = false := by
  apply not_isClear_of_isReturned
  rcases Nat.lt_or_ge k s.started with hlt | hge
  · exact hq k hlt
  · exact hinv.fresh k hge

theorem sound : Sound s :=
  ⟨fun hq => hinv.pins (hinv.not_isClear_of_quiet hq), hinv.twice, hinv.null, fun hu => (hinv.unloaded hu).2⟩

/-- No handler goes on once the module is gone. -/
theorem not_unloaded (hk : (s.handler k).isReturned = false) : s.unloaded = false := by
  by_contra hu
  have hq := (hinv.unloaded (by simpa using hu)).1 k (hinv.started hk)
  rw [hk] at hq
  cases hq

/-- A step that leaves the pins alone, and who is about to clear `curr_page`. -/
theorem frame (hfresh : ∀ k, s'.started ≤ k → (s'.handler k).isReturned = true)
    (hclear : ∀ k, (s'.handler k).isClear = (s.handler k).isClear) (hpage : s'.currPage = s.currPage)
    (hpins : s'.pins = s.pins) (htwice : s'.twice = s.twice) (hnull : s'.null = s.null)
    (hlive : s'.unloaded = false) : Inv s' := by
  refine ⟨hfresh, ?_, ?_, ?_, htwice ▸ hinv.twice, hnull ▸ hinv.null, fun hu => ?_⟩
  · simp only [hclear, hpage, hpins]
    exact hinv.pins
  · simp only [hclear, hpage, hpins]
    exact hinv.clear
  · simp only [hclear]
    exact hinv.one
  · rw [hlive] at hu
    cases hu

theorem fresh_update (hk : k < s.started) (h : Handler) (j : Nat) (hj : s.started ≤ j) :
    (Function.update s.handler k h j).isReturned = true := by
  rw [Function.update_of_ne (by omega)]
  exact hinv.fresh j hj

end Inv

/-- A state where nobody is about to clear `curr_page`. -/
theorem Inv.of_not_clear (hfresh : ∀ k, s.started ≤ k → (s.handler k).isReturned = true)
    (hnone : ∀ k, (s.handler k).isClear = false) (hpins : s.pins = s.currPage.toList)
    (htwice : s.twice = false) (hnull : s.null = false)
    (hgone : s.unloaded = true → s.Quiet ∧ s.pins = []) : Inv s := by
  refine ⟨hfresh, fun _ => hpins, fun k hk => ?_, fun j k hj => ?_, htwice, hnull, hgone⟩
  · rw [hnone k] at hk
    cases hk
  · rw [hnone j] at hj
    cases hj

theorem isClear_update (hold : (s.handler k).isClear = h.isClear) (j : Nat) :
    (Function.update s.handler k h j).isClear = (s.handler j).isClear := by
  by_cases hj : j = k
  · subst hj
    rw [Function.update_self, hold]
  · rw [Function.update_of_ne hj]

/-- Once it is done, only the other handlers can be about to clear `curr_page`. -/
theorem isClear_update_false (hnew : h.isClear = false)
    (hothers : ∀ j ≠ k, (s.handler j).isClear = false) (j : Nat) :
    (Function.update s.handler k h j).isClear = false := by
  by_cases hj : j = k
  · subst hj
    rwa [Function.update_self]
  · rw [Function.update_of_ne hj]
    exact hothers j hj

/-- A page is pinned. -/
theorem Inv.pinned {uaddr : Word} (hinv : Inv s) (hk : s.handler k = .uaddrPin uaddr size)
    (hpage : s.currPage = none) :
    Inv { s.goes k (.returned size) with currPage := some p, pins := p :: s.pins } := by
  have hbusy : (s.handler k).isReturned = false := by rw [hk]; rfl
  have hnone : ∀ j, (s.handler j).isClear = false := by
    intro j
    by_contra hj
    exact (hinv.clear j (by simpa using hj)).1 hpage
  have hpins : s.pins = [] := by
    rw [hinv.pins hnone, hpage]
    rfl
  refine .of_not_clear (hinv.fresh_update (hinv.started hbusy) _) (isClear_update_false rfl fun j _ => hnone j) ?_
    hinv.twice hinv.null fun hu => ?_
  · show p :: s.pins = (some p).toList
    rw [hpins]
    rfl
  · rw [State.goes, hinv.not_unloaded hbusy] at hu
    cases hu

/-- `curr_page` is cleared. -/
theorem Inv.cleared (hinv : Inv s) (hk : s.handler k = .eventClear size) :
    Inv { s.goes k (.returned size) with currPage := none } := by
  have hbusy : (s.handler k).isReturned = false := by rw [hk]; rfl
  have hclear : (s.handler k).isClear = true := by rw [hk]; rfl
  have hothers : ∀ j ≠ k, (s.handler j).isClear = false := by
    intro j hj
    by_contra hc
    exact hj (hinv.one j k (by simpa using hc) hclear)
  refine .of_not_clear (hinv.fresh_update (hinv.started hbusy) _) (isClear_update_false rfl hothers)
    (hinv.clear k hclear).2 hinv.twice hinv.null fun hu => ?_
  rw [State.goes, hinv.not_unloaded hbusy] at hu
  cases hu

/-- The event is read while there is a page, and it goes on with the page. -/
theorem dispatch_knows {event : Option (BitVec 32)} {page : Option π} (h : page ≠ none) :
    (dispatch size event).Knows page := by
  unfold dispatch
  split
  · trivial
  · split
    · exact h
    · split
      · exact h
      · trivial

theorem knows_of_isReturned {page : Option π} (hr : h.isReturned = true) : h.Knows page := by
  cases h with
  | returned => trivial
  | _ => cases hr

end

/-! ## Careful runs

The invariant allows for a handler that has unpinned the page and not cleared `curr_page` yet. What
a step can do is said once, by `Steps`. -/

section

variable {π : Type*} [DecidableEq π] {s s' : State π} {e : Event π} {h : Handler} {j k size : Nat} {p : π}

inductive Steps (s : State π) : Event π → State π → Prop
  /-- A handler goes on, and nothing is pinned or unpinned. -/
  | goes (e : Event π) (k : Nat) (h : Handler) (hk : (s.handler k).isReturned = false)
      (hold : (s.handler k).isClear = false) (hnew : h.isClear = false)
      (hknows : (s.handler k).Knows s.currPage → h.Knows s.currPage) : Steps s e (s.goes k h)
  | call (e : Event π) (h : Handler) (he : e = .writeUaddr ∨ e = .writeEvent) (live : s.unloaded = false)
      (hnew : h.isClear = false) (hknows : h.Knows s.currPage) : Steps s e (s.call h)
  | pin (k size : Nat) (uaddr : Word) (p : π) (hk : s.handler k = .uaddrPin uaddr size) :
      Steps s (.pin k (.ok p)) { s.goes k (.returned size) with currPage := some p, pins := p :: s.pins }
  | unpin (k size : Nat) (hk : s.handler k = .eventUnpin size) :
      Steps s (.unpin k) (s.unpin.goes k (.eventClear size))
  | clear (k size : Nat) (hk : s.handler k = .eventClear size) :
      Steps s (.clear k) { s.goes k (.returned size) with currPage := none }
  | exit (hq : s.Quiet) : Steps s .exit (madExit s)

theorem dispatch_isClear {event : Option (BitVec 32)} : (dispatch size event).isClear = false := by
  unfold dispatch
  split
  · rfl
  · split
    · rfl
    · split <;> rfl

theorem step_cases (hs : step s e = some s') : Steps s e s' := by
  cases e with
  | writeUaddr =>
      simp only [step] at hs
      split at hs
      · cases hs
      · next hu =>
        cases hs
        exact .call _ _ (.inl rfl) (by simpa using hu) rfl trivial
  | writeEvent =>
      simp only [step] at hs
      split at hs
      · cases hs
      · next hu =>
        cases hs
        exact .call _ _ (.inr rfl) (by simpa using hu) rfl trivial
  -- A test reads `curr_page`, and the handler knows it from there on.
  | test k =>
      simp only [step] at hs
      split at hs
      · next hk =>
        cases hs
        refine .goes _ k _ (by rw [hk]; rfl) (by rw [hk]; rfl) (by split <;> rfl) fun _ => ?_
        split
        · trivial
        · next hpage => exact Option.not_isSome_iff_eq_none.mp hpage
      · next hk =>
        cases hs
        refine .goes _ k _ (by rw [hk]; rfl) (by rw [hk]; rfl) (by split <;> rfl) fun _ => ?_
        split
        · trivial
        · next hpage => exact fun hnone => hpage (Option.isNone_iff_eq_none.mpr hnone)
      · cases hs
  -- What was copied decides where the handler goes on, not what it knows.
  | copy k buf src off =>
      simp only [step] at hs
      split at hs
      · next hk =>
        split at hs
        · cases hs
          exact .goes _ k _ (by rw [hk]; rfl) (by rw [hk]; rfl) rfl fun _ => trivial
        · cases hs
          exact .goes _ k _ (by rw [hk]; rfl) (by rw [hk]; rfl) rfl (by rw [hk]; exact id)
      · next hk =>
        cases hs
        exact .goes _ k _ (by rw [hk]; rfl) (by rw [hk]; rfl) dispatch_isClear (by rw [hk]; exact dispatch_knows)
      · cases hs
  | pin k ret =>
      simp only [step] at hs
      split at hs
      · next uaddr size hk =>
        split at hs
        · cases hs
          exact .goes _ k _ (by rw [hk]; rfl) (by rw [hk]; rfl) rfl fun _ => trivial
        · cases hs
          exact .pin k size uaddr _ hk
      · cases hs
  | unpin k =>
      simp only [step] at hs
      split at hs
      · next size hk =>
        cases hs
        exact .unpin k size hk
      · cases hs
  | clear k =>
      simp only [step] at hs
      split at hs
      · next size hk =>
        cases hs
        exact .clear k size hk
      · cases hs
  | dirty k =>
      simp only [step] at hs
      split at hs
      · next size hk =>
        cases hs
        exact .goes _ k _ (by rw [hk]; rfl) (by rw [hk]; rfl) rfl fun _ => trivial
      · cases hs
  | exit =>
      simp only [step] at hs
      split at hs
      · next hq =>
        cases hs
        exact .exit hq.1
      · cases hs

/-- The page is unpinned. -/
theorem Inv.unpinned (hinv : Inv s) (hk : s.handler k = .eventUnpin size) (hpage : s.currPage ≠ none)
    (hquiet : ¬s.Clearing) : Inv (s.unpin.goes k (.eventClear size)) := by
  have hbusy : (s.handler k).isReturned = false := by rw [hk]; rfl
  have hnone := hinv.not_isClear_of_not_clearing hquiet
  obtain ⟨p, hp⟩ := Option.ne_none_iff_exists'.mp hpage
  have hpins : s.pins = [p] := by
    rw [hinv.pins hnone, hp]
    rfl
  have hunpin : s.unpin = { s with pins := [] } := by
    simp [State.unpin, hp, hpins]
  have hself : (Function.update s.handler k (.eventClear size) k).isClear = true := by
    rw [Function.update_self]
    rfl
  have honly : ∀ j, (Function.update s.handler k (.eventClear size) j).isClear = true → j = k := by
    intro j hj
    by_contra hne
    rw [Function.update_of_ne hne, hnone j] at hj
    cases hj
  rw [hunpin]
  refine ⟨hinv.fresh_update (hinv.started hbusy) _, fun hno => ?_, fun _ _ => ⟨hpage, rfl⟩,
    fun i j hi hj => (honly i hi).trans (honly j hj).symm, hinv.twice, hinv.null, fun hu => ?_⟩
  · exact absurd hself (by simpa [State.goes] using hno k)
  · have hlive := hinv.not_unloaded hbusy
    exact absurd hu (by simp [State.goes, hlive])

/-- The module is unloaded. -/
theorem Inv.exited (hinv : Inv s) (hq : s.Quiet) : Inv (madExit s) := by
  have hnone := hinv.not_isClear_of_quiet hq
  have hpins := hinv.pins hnone
  cases hp : s.currPage with
  | none =>
      have hexit : madExit s = { s with unloaded := true } := by simp [madExit, hp]
      have hnil : s.pins = [] := by
        rw [hpins, hp]
        rfl
      rw [hexit]
      exact .of_not_clear hinv.fresh hnone hpins hinv.twice hinv.null fun _ => ⟨hq, hnil⟩
  | some p =>
      have hone : s.pins = [p] := by
        rw [hpins, hp]
        rfl
      have hexit : madExit s = { s with currPage := none, pins := [], unloaded := true } := by
        simp [madExit, State.unpin, hp, hone]
      rw [hexit]
      exact .of_not_clear hinv.fresh hnone rfl hinv.twice hinv.null fun _ => ⟨hq, rfl⟩

theorem Inv.step (hinv : Inv s) (hcare : Careful s e) (hs : Mad.step s e = some s') : Inv s' := by
  cases step_cases hs with
  | goes e k h hk hold hnew _ =>
      exact hinv.frame (hinv.fresh_update (hinv.started hk) h) (isClear_update (hold.trans hnew.symm)) rfl rfl rfl
        rfl (hinv.not_unloaded hk)
  | call e h _ live hnew _ =>
      have hold : (s.handler s.started).isClear = false :=
        not_isClear_of_isReturned (hinv.fresh s.started (Nat.le_refl _))
      refine hinv.frame (fun j hj => ?_) (isClear_update (hold.trans hnew.symm)) rfl rfl rfl rfl live
      have hj : s.started + 1 ≤ j := hj
      show (Function.update s.handler s.started h j).isReturned = true
      rw [Function.update_of_ne (by omega)]
      exact hinv.fresh j (by omega)
  | pin k size uaddr p hk => exact hinv.pinned hk hcare
  | unpin k size hk => exact hinv.unpinned hk hcare.1 hcare.2
  | clear k size hk => exact hinv.cleared hk
  | exit hq => exact hinv.exited hq

theorem always_inv {events : List (Event π)} (h : EachStep step Careful State.init events) :
    Always step Inv State.init events :=
  always_of_eachStep (fun _ _ _ hinv hcare hs => Inv.step hinv hcare hs) Inv.init h

/-- **No pin is lost or undone twice in a careful run.** If every page that is pinned is pinned while
`curr_page` is `NULL`, and unpinned while it is not and no other handler is about to clear it, then in every
state of the run the pins are what `curr_page` says. -/
theorem pins_sound (events : List (Event π)) (h : EachStep step Careful State.init events) :
    Always step Sound State.init events :=
  (always_inv h).imp fun _ hinv => hinv.sound

end

/-! ## Handlers that do not overlap

If a write begins only when the ones before it are over, what a handler finds when it tests `curr_page` is still so
when it goes on.
-/

section

variable {π : Type*} {s s' : State π} {e : Event π} {h : Handler} {k : Nat}

/-- A write begins only while no handler is in progress. -/
def Alone (s : State π) : Event π → Prop
  | .writeUaddr | .writeEvent => s.Quiet
  | _ => True

structure Serial (s : State π) : Prop where
  fresh : ∀ k, s.started ≤ k → (s.handler k).isReturned = true
  one : ∀ j k, (s.handler j).isReturned = false → (s.handler k).isReturned = false → j = k
  knows : ∀ k, (s.handler k).Knows s.currPage

/-- A state where no handler is in progress. -/
theorem Serial.of_returned (hall : ∀ k, (s.handler k).isReturned = true) : Serial s := by
  refine ⟨fun k _ => hall k, fun j k hj => ?_, fun k => knows_of_isReturned (hall k)⟩
  rw [hall j] at hj
  cases hj

theorem Serial.init : Serial (State.init : State π) := .of_returned fun _ => rfl

theorem Serial.returned (hser : Serial s) (hq : s.Quiet) (k : Nat) : (s.handler k).isReturned = true := by
  rcases Nat.lt_or_ge k s.started with hlt | hge
  · exact hq k hlt
  · exact hser.fresh k hge

/-- A state where all handlers but one that has begun have returned. -/
theorem Serial.of_others (hothers : ∀ j ≠ k, (s.handler j).isReturned = true) (hk : k < s.started)
    (hknows : (s.handler k).Knows s.currPage) : Serial s := by
  have honly : ∀ j, (s.handler j).isReturned = false → j = k := by
    intro j hbusy
    by_contra hj
    rw [hothers j hj] at hbusy
    cases hbusy
  refine ⟨fun j hj => hothers j (by omega), fun i j hi hj => (honly i hi).trans (honly j hj).symm, fun j => ?_⟩
  by_cases hj : j = k
  · subst hj
    exact hknows
  · exact knows_of_isReturned (hothers j hj)

/-- The handler that is in progress goes on: all others have returned. -/
theorem Serial.update (hser : Serial s) (hk : (s.handler k).isReturned = false) (hstarted : s'.started = s.started)
    (hhandler : s'.handler = Function.update s.handler k h) (hknows : h.Knows s'.currPage) : Serial s' := by
  have hlt : k < s.started := by
    by_contra hge
    rw [hser.fresh k (by omega)] at hk
    cases hk
  refine .of_others (k := k) (fun j hj => ?_) (hstarted ▸ hlt) (by rwa [hhandler, Function.update_self])
  -- Any other handler in progress would be a second one.
  rw [hhandler, Function.update_of_ne hj]
  by_contra hbusy
  exact hj (hser.one j k (by simpa using hbusy) hk)

variable [DecidableEq π]

theorem Serial.step (hser : Serial s) (halone : Alone s e) (hs : Mad.step s e = some s') : Serial s' := by
  cases step_cases hs with
  | goes e k h hk _ _ hknows => exact hser.update hk rfl rfl (hknows (hser.knows k))
  | call e h he _ _ hknows =>
      -- A call begins when all handlers have returned, so the new one is the only one.
      have hq : s.Quiet := by
        rcases he with rfl | rfl
        · exact halone
        · exact halone
      refine .of_others (k := s.started) (fun j hj => ?_) (Nat.lt_succ_self _) ?_
      · show (Function.update s.handler s.started h j).isReturned = true
        rw [Function.update_of_ne hj]
        exact hser.returned hq j
      · show (Function.update s.handler s.started h s.started).Knows s.currPage
        rwa [Function.update_self]
  | pin k size uaddr p hk => exact hser.update (by rw [hk]; rfl) rfl rfl trivial
  | unpin k size hk =>
      have hsame : s.unpin.started = s.started ∧ s.unpin.handler = s.handler := by
        unfold State.unpin
        split
        · exact ⟨rfl, rfl⟩
        · split <;> exact ⟨rfl, rfl⟩
      have hhandler : (s.unpin.goes k (.eventClear size)).handler =
          Function.update s.handler k (.eventClear size) := by
        rw [State.goes, hsame.2]
      exact hser.update (by rw [hk]; rfl) hsame.1 hhandler trivial
  | clear k size hk => exact hser.update (by rw [hk]; rfl) rfl rfl trivial
  | exit hq =>
      refine .of_returned fun k => ?_
      have hsame : (madExit s).handler = s.handler := by
        unfold madExit State.unpin
        split
        · split
          · rfl
          · split <;> rfl
        · rfl
      rw [hsame]
      exact hser.returned hq k

/-- A handler that is the only one in progress is careful. -/
theorem Serial.careful (hser : Serial s) (hs : Mad.step s e = some s') : Careful s e := by
  match e with
  | .pin k (.ok p) =>
      simp only [Mad.step] at hs
      split at hs
      · next hk =>
        have hknows := hser.knows k
        rw [hk] at hknows
        exact hknows
      · cases hs
  | .unpin k =>
      simp only [Mad.step] at hs
      split at hs
      · next size hk =>
        have hknows := hser.knows k
        rw [hk] at hknows
        refine ⟨hknows, ?_⟩
        rintro ⟨j, -, hclear⟩
        have hbusy : (s.handler j).isReturned = false := by
          by_contra hr
          rw [not_isClear_of_isReturned (by simpa using hr)] at hclear
          cases hclear
        obtain rfl := hser.one j k hbusy (by rw [hk]; rfl)
        rw [hk] at hclear
        cases hclear
      · cases hs
  | .pin _ (.error _) | .writeUaddr | .writeEvent | .test _ | .copy _ _ _ _ | .clear _ | .dirty _ | .exit => trivial

/-- **Handlers that do not overlap are careful**, so the pins are what `curr_page` says. -/
theorem careful_of_alone (events : List (Event π)) (h : EachStep step Alone State.init events) :
    EachStep step Careful State.init events ∧ Always step Sound State.init events := by
  have hcareful : EachStep step Careful State.init events :=
    h.imp (fun _ _ _ hser halone hs => Serial.step hser halone hs) (fun _ _ _ hser _ hs => Serial.careful hser hs)
      Serial.init
  exact ⟨hcareful, (always_inv hcareful).imp fun _ hinv => hinv.sound⟩

end

/-- A write to the device, up to the point where the page is pinned or the event is carried out. -/
def enters (k : Nat) (text : String) (call : Event Nat) : List (Event Nat) :=
  [call, .test k, .copy k [] text.toList 0]

/-- A page is pinned and unpinned, another one is pinned, and the module is unloaded. -/
def carefulRun : List (Event Nat) :=
  enters 0 "4096" .writeUaddr ++ [.pin 0 (.ok 7)] ++ enters 1 "0" .writeEvent ++ [.unpin 1, .clear 1] ++
    enters 2 "8192" .writeUaddr ++ [.pin 2 (.ok 8), .exit]

/-- Two writes that pin and two events are in progress at the same time: one address is not that of a page, and one
event only writes to the page. -/
def overlappingRun : List (Event Nat) :=
  [.writeUaddr, .writeUaddr, .test 0, .test 1, .copy 1 [] "4097".toList 0, .copy 0 [] "4096".toList 0, .pin 0 (.ok 7),
    .writeEvent, .writeEvent, .test 2, .test 3, .copy 3 [] "1".toList 0, .copy 2 [] "0".toList 0, .unpin 2, .dirty 3,
    .clear 2, .exit]

theorem pins_sound_run :
    (∃ s, run step State.init carefulRun = some s ∧ s.unloaded = true ∧ Sound s) ∧
    ∃ s, run step State.init overlappingRun = some s ∧ s.unloaded = true ∧ Sound s := by
  have hcheck : checkEach step Careful State.init carefulRun = true := by decide
  have hrun : ((run step State.init carefulRun).any fun s => s.unloaded) = true := by decide
  have hcheck' : checkEach step Careful State.init overlappingRun = true := by decide
  have hrun' : ((run step State.init overlappingRun).any fun s => s.unloaded) = true := by decide
  obtain ⟨s, hs, hu⟩ := (Option.any_eq_true _ _).mp hrun
  obtain ⟨s', hs', hu'⟩ := (Option.any_eq_true _ _).mp hrun'
  exact ⟨⟨s, hs, hu, (pins_sound carefulRun (.of_check hcheck)).last hs⟩,
    s', hs', hu', (pins_sound overlappingRun (.of_check hcheck')).last hs'⟩

/-- Two writes to `/dev/gup_uaddr` test `curr_page` before either of them pins. -/
def pinTwice : List (Event Nat) :=
  enters 0 "4096" .writeUaddr ++ enters 1 "8192" .writeUaddr ++ [.pin 0 (.ok 7), .pin 1 (.ok 8)]

/-- Two writes to `/dev/gup_event` test `curr_page` before either of them unpins. -/
def unpinTwice : List (Event Nat) :=
  enters 0 "4096" .writeUaddr ++ [.pin 0 (.ok 7)] ++ enters 1 "0" .writeEvent ++ enters 2 "0" .writeEvent

/-- The first page stays pinned when the second one is; a page is unpinned twice, or `NULL` after it. -/
theorem pins_unsound :
    (∃ s, run step State.init pinTwice = some s ∧ s.Quiet ∧ s.currPage = some 8 ∧ s.pins = [8, 7] ∧
      ¬Sound s) ∧
    (∃ s, run step State.init (unpinTwice ++ [.unpin 1, .unpin 2]) = some s ∧ s.twice = true ∧ ¬Sound s) ∧
    (∃ s, run step State.init (unpinTwice ++ [.unpin 1, .clear 1, .unpin 2]) = some s ∧ s.null = true ∧
      ¬Sound s) := by
  refine ⟨?_, ?_, ?_⟩
  · have hrun : ((run step State.init pinTwice).any fun s =>
        decide (s.Quiet ∧ s.currPage = some 8 ∧ s.pins = [8, 7])) = true := by decide
    obtain ⟨s, hs, hcheck⟩ := (Option.any_eq_true _ _).mp hrun
    obtain ⟨hq, hpage, hpins⟩ := of_decide_eq_true hcheck
    refine ⟨s, hs, hq, hpage, hpins, fun hsound => ?_⟩
    have hlost := hsound.quiet hq
    rw [hpins, hpage] at hlost
    cases hlost
  · have hrun : ((run step State.init (unpinTwice ++ [.unpin 1, .unpin 2])).any fun s => s.twice) = true := by
      decide
    obtain ⟨s, hs, htwice⟩ := (Option.any_eq_true _ _).mp hrun
    refine ⟨s, hs, htwice, fun hsound => ?_⟩
    rw [hsound.twice] at htwice
    cases htwice
  · have hrun : ((run step State.init (unpinTwice ++ [.unpin 1, .clear 1, .unpin 2])).any fun s => s.null) =
        true := by
      decide
    obtain ⟨s, hs, hnull⟩ := (Option.any_eq_true _ _).mp hrun
    refine ⟨s, hs, hnull, fun hsound => ?_⟩
    rw [hsound.null] at hnull
    cases hnull

end MmExper.Mad
