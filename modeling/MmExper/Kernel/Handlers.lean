import MmExper.Bitwise
import MmExper.Exper.Refcount
import MmExper.Mad.Gup

/-!
# Handlers that read a number

The write handlers of `exper.c`, `vmainfo.c`, `vmaflags.c` and `mad.c`: each one reads a number from the
text that is written to its device and does something with it. The one of `/dev/refcount` is in
`Exper.Refcount`.
-/

namespace MmExper.Kernel

open Lib
open Exper (Pages einval refcountWrite)

def enxio : Int := 6

/-- The static buffer that a device is read from, and how much of it is read. -/
structure Output where
  buf : List Char
  size : Nat
  deriving DecidableEq

/-- What `pagebuffers_buf` is initialised with. -/
def Output.brackets : Output := ⟨'[' :: ']' :: List.replicate 253 '\x00', 3⟩

/-- What `output_buf` is initialised with. -/
def Output.empty : Output := ⟨List.replicate 4096 '\x00', 1⟩

/-! ## `exper.c`

`pagebuffers_write_()` answers with the flags of the buffer heads of a page. The other device of the
module is `Exper/Refcount.lean`. -/

/-- What `pagebuffers_write_()` is told of a PFN: that there is no page, that its page has no buffers, or
the `b_state` of the first one. -/
inductive PageBuffers where
  | noPage
  | none
  | head (bState : Word)
  deriving DecidableEq

/-- The flags that `read_buffer_head()` looks at, in its order, and what it writes for them. -/
def bhFlags : List (Nat × List Char) :=
  [(0, ['U']), (1, ['D']), (2, ['L']), (3, ['R']), (4, ['M']), (5, ['N']), (6, ['A', 'r']), (7, ['A', 'w']),
    (8, ['D', 'e']), (9, ['B']), (10, ['E', 'w']), (11, ['U', 'n']), (12, ['Q']), (13, ['M', 'e']), (14, ['!']),
    (15, ['@'])]

/-- `read_buffer_head()`. Its size leaves out the zero. -/
def readBufferHead (dev : Output) (bState : Word) : Output :=
  let flags := bhFlags.filter fun f => bState &&& 1#64 <<< f.1 ≠ 0#64
  let text := '[' :: flags.flatMap Prod.snd ++ [']']
  ⟨text ++ '\x00' :: dev.buf.drop (text.length + 1), text.length⟩

/-- `pagebuffers_write_()`, where `pfn_buf` holds `pfnBuf` at first: what it returns, the position, and the
static variables. -/
def pagebuffersWrite (buffers : Word → PageBuffers) (pfnBuf : List Char) (dev : Output) (src : List Char)
    (off : Nat) : Int × Nat × Output :=
  match readNumber sscanfUll pfnBuf 254 off src with
  | (none, off) => (-einval, off, dev)
  | (some pfn, off) =>
    match buffers pfn with
    | .noPage => (-einval, off, dev)
    | .none => (src.length, src.length, ⟨'[' :: ']' :: '\x00' :: dev.buf.drop 3, 3⟩)
    | .head bState => (src.length, src.length, readBufferHead dev bState)

/-! ## `vmainfo.c` and `vmaflags.c`

Both look the address up among the VMAs of the process that writes, and answer with a text about the
one they find. They clear their buffer before they read the address. -/

structure Vma where
  vmStart : Word
  vmEnd : Word
  vmFlags : Word
  deriving DecidableEq

/-- The address space of a process: areas in ascending order, below the end of what user space can map. -/
structure Mm (taskSize : Word) where
  vmas : List Vma
  nonempty : ∀ vma ∈ vmas, vma.vmStart < vma.vmEnd
  sorted : vmas.Pairwise fun vma next => vma.vmEnd ≤ next.vmStart
  below : ∀ vma ∈ vmas, vma.vmEnd ≤ taskSize

section

variable {taskSize : Word}

/-- `find_vma()`: the first area that ends behind the address. -/
def findVma (mm : Mm taskSize) (addr : Word) : Option Vma := mm.vmas.find? fun vma => addr < vma.vmEnd

/-- An address in an area or in front of one is below the end. -/
theorem findVma_lt {mm : Mm taskSize} {addr : Word} {vma : Vma} (h : findVma mm addr = some vma) :
    addr < taskSize := by
  have hend : addr < vma.vmEnd := by
    have := List.find?_some h
    simpa using this
  exact Nat.lt_of_lt_of_le hend (mm.below vma (List.mem_of_find?_eq_some h))

/-- The write handlers of `/dev/vmainfo` and `/dev/vmaflags`, which differ in the text that they leave. -/
def vmaWrite (text : Vma → List Char) (mm : Mm taskSize) (startBuf : List Char) (dev : Output)
    (src : List Char) (off : Nat) : Int × Nat × Output :=
  -- The output buffer is always reset.
  let dev : Output := ⟨dev.buf.set 0 '\x00', 1⟩
  match readNumber sscanfUll startBuf 254 off src with
  | (none, off) => (-einval, off, dev)
  | (some start, off) =>
    match findVma mm start with
    | none => (-enxio, off, dev)
    | some vma =>
      if start < vma.vmStart then (-enxio, off, dev)
      else
        let (buf, len) := snprintf dev.buf (4096 - dev.size) (text vma)
        (src.length, src.length, ⟨buf, dev.size + len⟩)

def vmainfoWrite (mm : Mm taskSize) (startBuf : List Char) (dev : Output) (src : List Char) (off : Nat) :
    Int × Nat × Output :=
  vmaWrite (fun vma => "start=".toList ++ hexadecimal vma.vmStart ++ ", end=".toList ++
    hexadecimal vma.vmEnd ++ ", flags=".toList ++ hexadecimal vma.vmFlags) mm startBuf dev src off

def vmaflagsWrite (mm : Mm taskSize) (startBuf : List Char) (dev : Output) (src : List Char) (off : Nat) :
    Int × Nat × Output :=
  vmaWrite (fun vma => hexadecimal vma.vmFlags) mm startBuf dev src off

end

/-! ## `mad.c`

A write to `/dev/gup_event` while no other handler runs. It is a run of the steps of
`Mad/Gup.lean`. -/

/-- `gup_event_write()`, where `event_buf` holds `eventBuf` at first: what it returns, the position, and
the module. Unlike the others, it leaves the position where the copy left it. -/
def gupEventWrite (mad : Mad.State Word) (eventBuf src : List Char) (off : Nat) :
    Int × Nat × Mad.State Word :=
  if mad.currPage.isNone then (-einval, off, mad)
  else
    match readNumber sscanfD eventBuf 9 off src with
    | (none, off) => (-einval, off, mad)
    | (some event, off) =>
      if event = 0 then (src.length, off, { mad.unpin with currPage := none })
      -- The page's contents are not kept.
      else if event = 1 then (src.length, off, mad)
      else (-einval, off, mad)

section

variable {mad : Mad.State Word} {k : Nat} {h h' : Mad.Handler}

theorem goes_goes : (mad.goes k h).goes k h' = mad.goes k h' := by
  simp only [Mad.State.goes, Function.update_idem]

theorem goes_handler : (mad.goes k h).handler k = h := by
  simp only [Mad.State.goes, Function.update_self]

theorem unpin_goes : (mad.goes k h).unpin = mad.unpin.goes k h := by
  unfold Mad.State.unpin Mad.State.goes
  cases mad.currPage with
  | none => rfl
  | some p =>
      show (if p ∈ mad.pins then _ else _) = _
      by_cases hp : p ∈ mad.pins
      · simp only [if_pos hp]
      · simp only [if_neg hp]

theorem step_test (hk : mad.handler k = .eventTest) : Mad.step mad (.test k) =
    some (mad.goes k (if mad.currPage.isNone then .returned (-einval) else .eventCopy)) := by
  simp only [Mad.step, hk]
  rfl

theorem step_copy (eventBuf src : List Char) (off : Nat) : Mad.step (mad.goes k .eventCopy) (.copy k eventBuf src off) =
    some (mad.goes k (Mad.dispatch src.length (readNumber sscanfD eventBuf 9 off src).1)) := by
  simp only [Mad.step, goes_handler, goes_goes]
  rfl

theorem step_dirty (size : Nat) : Mad.step (mad.goes k (.eventDirty size)) (.dirty k) =
    some (mad.goes k (.returned size)) := by
  simp only [Mad.step, goes_handler, goes_goes]

theorem run_unpin (size : Nat) : run Mad.step (mad.goes k (.eventUnpin size)) [.unpin k, .clear k] =
    some ({ mad.unpin with currPage := none }.goes k (.returned size)) := by
  simp only [run, Mad.step, goes_handler, unpin_goes, goes_goes, Option.bind_some]
  rfl

/-- A call that nothing comes between goes through the steps of a handler of `mad.c`. -/
theorem gupEventWrite_steps (hk : mad.handler k = .eventTest) (eventBuf src : List Char) (off : Nat) :
    ∃ events, run Mad.step mad events = some ((gupEventWrite mad eventBuf src off).2.2.goes k
      (.returned (gupEventWrite mad eventBuf src off).1)) := by
  unfold gupEventWrite
  by_cases hpage : mad.currPage.isNone = true
  · refine ⟨[.test k], ?_⟩
    rw [run, step_test hk, if_pos hpage, if_pos hpage]
    rfl
  · rw [if_neg hpage]
    rcases hread : readNumber sscanfD eventBuf 9 off src with ⟨event, pos⟩
    have hstart (events : List (Mad.Event Word)) : run Mad.step mad (.test k :: .copy k eventBuf src off :: events) =
        run Mad.step (mad.goes k (Mad.dispatch src.length event)) events := by
      rw [run, step_test hk, if_neg hpage]
      show (Mad.step (mad.goes k .eventCopy) (.copy k eventBuf src off)).bind _ = _
      rw [step_copy, hread]
      rfl
    cases event with
    | none => exact ⟨_, hstart []⟩
    | some event =>
        by_cases h₀ : event = 0
        · subst h₀
          exact ⟨_, (hstart [.unpin k, .clear k]).trans (run_unpin src.length)⟩
        · by_cases h₁ : event = 1
          · subst h₁
            refine ⟨_, (hstart [.dirty k]).trans ?_⟩
            show (Mad.step (mad.goes k (.eventDirty src.length)) (.dirty k)).bind _ = _
            rw [step_dirty]
            rfl
          · refine ⟨_, (hstart []).trans ?_⟩
            simp only [Mad.dispatch, if_neg h₀, if_neg h₁]
            rfl

end

end MmExper.Kernel
