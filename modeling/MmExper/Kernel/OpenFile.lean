import MmExper.Kernel.Handlers

/-!
# Writing through an open file

A file that stays open keeps its position from one write to the next, and `simple_write_to_buffer()` copies
a text to this position. The buffer is another one at every write, though, and the handlers read their
number from its start.

The handler is given a copy of the position. The kernel stores it in the file again only if the handler did not
fail, so a write that fails leaves the file where it was, whatever has been copied.
-/

namespace MmExper.Kernel

open Lib
open Exper (Pages einval refcountWrite refcountWrite_eq)

inductive Dev where
  | gupEvent
  | refcount
  | pagebuffers
  | vmainfo
  | vmaflags
  deriving DecidableEq

/-- The size of the buffer on the handler's stack. -/
def Dev.size : Dev → Nat
  | .gupEvent => 10
  | _ => 255

/-- What the handler's `sscanf()` reads, as a number. -/
def Dev.scan : Dev → List Char → Option Int
  | .gupEvent, s => (sscanfD s).map BitVec.toInt
  | _, s => (sscanfUll s).map fun n => n.toNat

/-- The kernel, as a write finds it. -/
structure World (taskSize : Word) where
  mad : Mad.State Word
  pages : Pages
  refcount : Exper.Device
  buffers : Word → PageBuffers
  pagebuffers : Output
  mm : Mm taskSize
  vmainfo : Output
  vmaflags : Output

/-- A write: its text, what the buffer on the stack holds at first, and the kernel at that time. -/
structure Write (d : Dev) (taskSize : Word) where
  src : List Char
  buf : List Char
  length_buf : buf.length = d.size
  world : World taskSize

section

variable {d : Dev} {taskSize : Word}

namespace Write

def call (w : Write d taskSize) (off : Nat) : Int × Nat × World taskSize :=
  match d with
  | .gupEvent =>
    let (ret, off, mad) := gupEventWrite w.world.mad w.buf w.src off
    (ret, off, { w.world with mad := mad })
  | .refcount =>
    let (ret, off, dev) := refcountWrite w.world.pages w.buf w.world.refcount w.src off
    (ret, off, { w.world with refcount := dev })
  | .pagebuffers =>
    let (ret, off, dev) := pagebuffersWrite w.world.buffers w.buf w.world.pagebuffers w.src off
    (ret, off, { w.world with pagebuffers := dev })
  | .vmainfo =>
    let (ret, off, dev) := vmainfoWrite w.world.mm w.buf w.world.vmainfo w.src off
    (ret, off, { w.world with vmainfo := dev })
  | .vmaflags =>
    let (ret, off, dev) := vmaflagsWrite w.world.mm w.buf w.world.vmaflags w.src off
    (ret, off, { w.world with vmaflags := dev })

def position (w : Write d taskSize) (off : Nat) : Nat :=
  if (w.call off).1 < 0 then off else (w.call off).2.1

def number (w : Write d taskSize) (off : Nat) : Option Int :=
  (readNumber d.scan w.buf (d.size - 1) off w.src).1

def copied (w : Write d taskSize) (off : Nat) : Nat :=
  (readNumber d.scan w.buf (d.size - 1) off w.src).2

/-- The handler looks at the text at all. -/
def Ready (w : Write d taskSize) : Prop := d = .gupEvent → w.world.mad.currPage.isSome

/-- The kernel has something to do for this number. -/
def Accepts (w : Write d taskSize) (n : Int) : Prop :=
  match d with
  | .gupEvent => n = 0 ∨ n = 1
  | .refcount => w.world.pages (BitVec.ofInt 64 n) ≠ none
  | .pagebuffers => w.world.buffers (BitVec.ofInt 64 n) ≠ .noPage
  | _ => ∃ vma, findVma w.world.mm (BitVec.ofInt 64 n) = some vma ∧ vma.vmStart ≤ BitVec.ofInt 64 n

/-- How a write ends: what it returns, and the position. -/
inductive Ends (w : Write d taskSize) (off : Nat) : Int → Nat → Prop
  | notReady {ret : Int} (h : ¬w.Ready) (hret : ret < 0) : w.Ends off ret off
  | unread {ret : Int} (h : w.Ready) (hn : w.number off = none) (hret : ret < 0) : w.Ends off ret (w.copied off)
  | refused {ret n : Int} (h : w.Ready) (hn : w.number off = some n) (hacc : ¬w.Accepts n) (hret : ret < 0) :
      w.Ends off ret (w.copied off)
  | accepted {n : Int} {pos : Nat} (h : w.Ready) (hn : w.number off = some n) (hacc : w.Accepts n)
      (hpos : pos = w.copied off ∨ pos = w.src.length) : w.Ends off w.src.length pos

theorem neg_einval : -einval < 0 := by decide

theorem neg_enxio : -enxio < 0 := by decide

theorem ready_of_ne (hd : d ≠ .gupEvent) (w : Write d taskSize) : w.Ready := fun h => absurd h hd

/-- Four of the devices read with the same conversion. -/
theorem number_of_readNumber (hd : d ≠ .gupEvent) {w : Write d taskSize} {off pos : Nat} {n : Option Word}
    (h : readNumber sscanfUll w.buf 254 off w.src = (n, pos)) :
    w.number off = n.map (fun n => (n.toNat : Int)) ∧ w.copied off = pos := by
  have hread : readNumber (fun s => (sscanfUll s).map fun n => (n.toNat : Int)) w.buf 254 off w.src =
      (n.map fun n => (n.toNat : Int), pos) := by
    rw [readNumber_map, h]
  have hscan : readNumber d.scan w.buf (d.size - 1) off w.src = (n.map fun n => (n.toNat : Int), pos) := by
    cases d with
    | gupEvent => exact absurd rfl hd
    | refcount => exact hread
    | pagebuffers => exact hread
    | vmainfo => exact hread
    | vmaflags => exact hread
  unfold number copied
  rw [hscan]
  exact ⟨rfl, rfl⟩

theorem ofInt_toNat (n : Word) : BitVec.ofInt 64 (n.toNat : Int) = n := by simp

theorem ends_refcount (w : Write .refcount taskSize) (off : Nat) : w.Ends off (w.call off).1 (w.call off).2.1 := by
  have hne : Dev.refcount ≠ .gupEvent := nofun
  have hready : w.Ready := w.ready_of_ne hne
  show w.Ends off (refcountWrite w.world.pages w.buf w.world.refcount w.src off).1
    (refcountWrite w.world.pages w.buf w.world.refcount w.src off).2.1
  rw [refcountWrite_eq]
  rcases hread : readNumber sscanfUll w.buf 254 off w.src with ⟨n, pos⟩
  obtain ⟨hn, rfl⟩ := number_of_readNumber hne hread
  cases n with
  | none => exact .unread hready hn neg_einval
  | some n =>
      cases hpage : w.world.pages n with
      | none =>
          simp only [hpage]
          refine .refused hready hn (fun hacc => hacc ?_) neg_einval
          rwa [ofInt_toNat]
      | some r =>
          simp only [hpage]
          refine .accepted hready hn ?_ (.inr rfl)
          show w.world.pages (BitVec.ofInt 64 (n.toNat : Int)) ≠ none
          rw [ofInt_toNat, hpage]
          exact Option.some_ne_none r

theorem ends_pagebuffers (w : Write .pagebuffers taskSize) (off : Nat) :
    w.Ends off (w.call off).1 (w.call off).2.1 := by
  have hne : Dev.pagebuffers ≠ .gupEvent := nofun
  have hready : w.Ready := w.ready_of_ne hne
  show w.Ends off (pagebuffersWrite w.world.buffers w.buf w.world.pagebuffers w.src off).1
    (pagebuffersWrite w.world.buffers w.buf w.world.pagebuffers w.src off).2.1
  unfold pagebuffersWrite
  rcases hread : readNumber sscanfUll w.buf 254 off w.src with ⟨n, pos⟩
  obtain ⟨hn, rfl⟩ := number_of_readNumber hne hread
  cases n with
  | none => exact .unread hready hn neg_einval
  | some n =>
      cases hpage : w.world.buffers n with
      | noPage =>
          simp only [hpage]
          refine .refused hready hn (fun hacc => hacc ?_) neg_einval
          rwa [ofInt_toNat]
      | none =>
          simp only [hpage]
          refine .accepted hready hn ?_ (.inr rfl)
          show w.world.buffers (BitVec.ofInt 64 (n.toNat : Int)) ≠ .noPage
          rw [ofInt_toNat, hpage]
          exact nofun
      | head bState =>
          simp only [hpage]
          refine .accepted hready hn ?_ (.inr rfl)
          show w.world.buffers (BitVec.ofInt 64 (n.toNat : Int)) ≠ .noPage
          rw [ofInt_toNat, hpage]
          exact nofun

theorem accepts_vma (hd : d = .vmainfo ∨ d = .vmaflags) {w : Write d taskSize} {n : Int} : w.Accepts n ↔
    ∃ vma, findVma w.world.mm (BitVec.ofInt 64 n) = some vma ∧ vma.vmStart ≤ BitVec.ofInt 64 n := by
  rcases hd with rfl | rfl
  · rfl
  · rfl

/-- What is said of `/dev/vmainfo` holds of `/dev/vmaflags`, too. -/
theorem ends_vma (hd : d = .vmainfo ∨ d = .vmaflags) (w : Write d taskSize) (off : Nat) (text : Vma → List Char)
    (dev : Output) : w.Ends off (vmaWrite text w.world.mm w.buf dev w.src off).1
      (vmaWrite text w.world.mm w.buf dev w.src off).2.1 := by
  have hne : d ≠ .gupEvent := by
    rcases hd with rfl | rfl
    · exact nofun
    · exact nofun
  have hready : w.Ready := w.ready_of_ne hne
  unfold vmaWrite
  rcases hread : readNumber sscanfUll w.buf 254 off w.src with ⟨n, pos⟩
  obtain ⟨hn, rfl⟩ := number_of_readNumber hne hread
  cases n with
  | none => exact .unread hready hn neg_einval
  | some n =>
      have haccepts := accepts_vma hd (w := w) (n := n.toNat)
      rw [ofInt_toNat] at haccepts
      cases hvma : findVma w.world.mm n with
      | none =>
          simp only [hvma]
          refine .refused hready hn (fun hacc => ?_) neg_enxio
          obtain ⟨vma, hsome, -⟩ := haccepts.mp hacc
          rw [hvma] at hsome
          cases hsome
      | some vma =>
          by_cases hstart : n < vma.vmStart
          · simp only [hvma, if_pos hstart]
            refine .refused hready hn (fun hacc => ?_) neg_enxio
            obtain ⟨vma', hsome, hle⟩ := haccepts.mp hacc
            rw [hvma] at hsome
            cases hsome
            exact BitVec.not_lt.mpr hle hstart
          · simp only [hvma, if_neg hstart]
            exact .accepted hready hn (haccepts.mpr ⟨vma, hvma, BitVec.not_lt.mp hstart⟩) (.inr rfl)

theorem ends_gupEvent (w : Write .gupEvent taskSize) (off : Nat) : w.Ends off (w.call off).1 (w.call off).2.1 := by
  show w.Ends off (gupEventWrite w.world.mad w.buf w.src off).1 (gupEventWrite w.world.mad w.buf w.src off).2.1
  unfold gupEventWrite
  by_cases hpage : w.world.mad.currPage.isNone = true
  · rw [if_pos hpage]
    refine .notReady (fun hready => ?_) neg_einval
    have := hready rfl
    rw [Option.isNone_iff_eq_none.mp hpage] at this
    cases this
  · rw [if_neg hpage]
    have hready : w.Ready := fun _ => Option.isSome_iff_ne_none.mpr fun h => hpage (Option.isNone_iff_eq_none.mpr h)
    rcases hread : readNumber sscanfD w.buf 9 off w.src with ⟨event, pos⟩
    have hscan : readNumber Dev.gupEvent.scan w.buf 9 off w.src = (event.map BitVec.toInt, pos) := by
      show readNumber (fun s => (sscanfD s).map BitVec.toInt) w.buf 9 off w.src = _
      rw [readNumber_map, hread]
    have hn : w.number off = event.map BitVec.toInt := congrArg Prod.fst hscan
    obtain rfl : w.copied off = pos := congrArg Prod.snd hscan
    cases event with
    | none => exact .unread hready hn neg_einval
    | some event =>
        by_cases h₀ : event = 0
        · subst h₀
          exact .accepted hready hn (.inl rfl) (.inl rfl)
        · by_cases h₁ : event = 1
          · subst h₁
            exact .accepted hready hn (.inr rfl) (.inl rfl)
          · simp only [if_neg h₀, if_neg h₁]
            refine .refused hready hn (fun hacc => ?_) neg_einval
            rcases hacc with hacc | hacc
            · exact h₀ (BitVec.eq_of_toInt_eq hacc)
            · exact h₁ (BitVec.eq_of_toInt_eq hacc)

/-- How each write ends. -/
theorem ends (w : Write d taskSize) (off : Nat) : w.Ends off (w.call off).1 (w.call off).2.1 := by
  cases d with
  | gupEvent => exact w.ends_gupEvent off
  | refcount => exact w.ends_refcount off
  | pagebuffers => exact w.ends_pagebuffers off
  | vmainfo => exact w.ends_vma (.inl rfl) off _ w.world.vmainfo
  | vmaflags => exact w.ends_vma (.inr rfl) off _ w.world.vmaflags

/-- A handler that does not fail has acted on a number. -/
theorem succeeds {w : Write d taskSize} {off : Nat} (h : ¬(w.call off).1 < 0) :
    w.Ready ∧ (∃ n, w.number off = some n ∧ w.Accepts n) ∧
      ((w.call off).2.1 = w.copied off ∨ (w.call off).2.1 = w.src.length) := by
  have hends := w.ends off
  generalize (w.call off).1 = ret at h hends
  generalize (w.call off).2.1 = pos at hends ⊢
  cases hends with
  | notReady _ hret => exact absurd hret h
  | unread _ _ hret => exact absurd hret h
  | refused _ _ _ hret => exact absurd hret h
  | accepted hready hn hacc hpos => exact ⟨hready, ⟨_, hn, hacc⟩, hpos⟩

/-- A number that the kernel has something to do for does not make the write fail. -/
theorem call_nonneg {w : Write d taskSize} {off : Nat} {n : Int} (hready : w.Ready) (hn : w.number off = some n)
    (hacc : w.Accepts n) : ¬(w.call off).1 < 0 := by
  have hends := w.ends off
  generalize (w.call off).1 = ret at hends ⊢
  generalize (w.call off).2.1 = pos at hends
  cases hends with
  | notReady h _ => exact absurd hready h
  | unread _ hnone _ =>
      rw [hn] at hnone
      cases hnone
  | refused _ hn' hrefused _ =>
      rw [hn] at hn'
      cases hn'
      exact absurd hacc hrefused
  | accepted _ _ _ _ => omega

theorem position_of_fails {w : Write d taskSize} {off : Nat} (h : (w.call off).1 < 0) : w.position off = off :=
  if_pos h

/-- A write that succeeds moves the file behind what was copied, or behind its own length. -/
theorem position_of_succeeds {w : Write d taskSize} {off : Nat} (h : ¬(w.call off).1 < 0) :
    w.position off = w.copied off ∨ w.position off = w.src.length := by
  rw [position, if_neg h]
  exact (succeeds h).2.2

end Write

end

end MmExper.Kernel
