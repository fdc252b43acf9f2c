import MmExper.Kernel.OpenFile
import MmExper.Tools.VmFlags
import Mathlib.Data.List.Flatten

/-!
# What the devices answer

The modules answer through a static buffer for each device, and the clients open a device once to write a number
and once to read. A reader gets the answer to the last number that the device accepted, whoever wrote it, and
nothing of what the buffer held before. `/dev/vmainfo` and `/dev/vmaflags` forget their answer at every write,
the other two keep it if the write fails.
-/

namespace MmExper.Kernel

open Lib
open Exper (Pages refcountWrite refcountWrite_eq)

variable {taskSize : Word} {d : Dev} {k : World taskSize} {shown : Dev → List Char}

/-! ## The devices

The four devices as one kernel: its static buffers, and what a client can make happen to them. -/

/-- What a device is read from. `/dev/gup_event` is not read. -/
def World.output (k : World taskSize) : Dev → Output
  | .gupEvent => ⟨[], 0⟩
  | .refcount => ⟨k.refcount.refcountBuf, k.refcount.refcountBufSize⟩
  | .pagebuffers => k.pagebuffers
  | .vmainfo => k.vmainfo
  | .vmaflags => k.vmaflags

/-- A client opens the device and reads it, in parts of these sizes. -/
def World.read (k : World taskSize) (d : Dev) (sizes : List Nat) : List Char :=
  readLoop (k.output d).buf (k.output d).size sizes 0

structure World.Loaded (k : World taskSize) : Prop where
  refcount : k.refcount = Exper.Device.init
  pagebuffers : k.pagebuffers = Output.brackets
  vmainfo : k.vmainfo = Output.empty
  vmaflags : k.vmaflags = Output.empty

/-- A write to one of the devices by whoever has it open, or a change of what the kernel knows. -/
inductive Happening (taskSize : Word) where
  | write (d : Dev) (src buf : List Char) (length_buf : buf.length = d.size) (off : Nat)
  | change (pages : Pages) (buffers : Word → PageBuffers) (mm : Mm taskSize) (mad : Mad.State Word)

def World.after (k : World taskSize) : Happening taskSize → World taskSize
  | .write d src buf h off => ((⟨src, buf, h, k⟩ : Write d taskSize).call off).2.2
  | .change pages buffers mm mad => { k with pages := pages, buffers := buffers, mm := mm, mad := mad }

/-! ## The answers

What a reader should get, without any buffer: the answer to the last number that the device had one
for. Two of the devices forget it at every write. -/

def Mm.area (mm : Mm taskSize) (addr : Word) : Option Vma :=
  mm.vmas.find? fun vma => vma.vmStart ≤ addr && addr < vma.vmEnd

def bufferFlags (bState : Word) : List Char :=
  (bhFlags.filter fun f => bState &&& 1#64 <<< f.1 ≠ 0#64).flatMap Prod.snd

def World.tells (k : World taskSize) (d : Dev) (n : Word) : Option (List Char) :=
  match d with
  | .gupEvent => none
  | .refcount => (k.pages n).map signedDecimal
  | .pagebuffers =>
    match k.buffers n with
    | .noPage => none
    | .none => some "[]".toList
    | .head bState => some ('[' :: bufferFlags bState ++ [']'])
  | .vmainfo => (k.mm.area n).map fun vma => "start=".toList ++ hexadecimal vma.vmStart ++ ", end=".toList ++
      hexadecimal vma.vmEnd ++ ", flags=".toList ++ hexadecimal vma.vmFlags
  | .vmaflags => (k.mm.area n).map fun vma => hexadecimal vma.vmFlags

def shownAtFirst : Dev → List Char
  | .refcount => "0".toList
  | .pagebuffers => "[]".toList
  | _ => []

def Dev.Forgets (d : Dev) : Prop := d = .vmainfo ∨ d = .vmaflags

instance : Decidable d.Forgets := inferInstanceAs (Decidable (_ ∨ _))

/-- What the device shows after a write, if it showed this text. -/
def Write.textAfter (w : Write d taskSize) (off : Nat) (text : List Char) : List Char :=
  ((w.number off).bind fun n => w.world.tells d (BitVec.ofInt 64 n)).getD (if d.Forgets then [] else text)

def World.shownAfter (k : World taskSize) (shown : Dev → List Char) : Happening taskSize → Dev → List Char
  | .write d src buf h off =>
    Function.update shown d ((⟨src, buf, h, k⟩ : Write d taskSize).textAfter off (shown d))
  | .change .. => shown

def World.run (k : World taskSize) (events : List (Happening taskSize)) : World taskSize := events.foldl World.after k

def World.showing (k : World taskSize) (shown : Dev → List Char) : List (Happening taskSize) → Dev → List Char
  | [] => shown
  | e :: events => (k.after e).showing (k.shownAfter shown e) events

/-! ## Addresses

`find_vma()` finds the first area that ends behind the address. The handlers then ask whether it
also begins before it. -/

/-- The handlers find the area of an address. -/
theorem findVma_area (mm : Mm taskSize) (addr : Word) :
    ((findVma mm addr).bind fun vma => if addr < vma.vmStart then none else some vma) = mm.area addr := by
  show ((mm.vmas.find? fun vma => addr < vma.vmEnd).bind _) = mm.vmas.find? _
  have hsorted := mm.sorted
  generalize mm.vmas = vmas at hsorted ⊢
  induction vmas with
  | nil => rfl
  | cons vma vmas ih =>
      obtain ⟨hnext, hsorted⟩ := List.pairwise_cons.mp hsorted
      by_cases hend : addr < vma.vmEnd
      · rw [List.find?_cons_of_pos (by simpa using hend), Option.bind_some]
        by_cases hstart : addr < vma.vmStart
        · rw [if_pos hstart, eq_comm, List.find?_eq_none]
          -- All areas begin behind the address.
          have hlater : ∀ next ∈ vma :: vmas, addr < next.vmStart := by
            intro next hmem
            rcases List.mem_cons.mp hmem with rfl | hmem
            · exact hstart
            · exact Nat.lt_of_lt_of_le hend (hnext next hmem)
          intro next hmem
          have := BitVec.not_le.mpr (hlater next hmem)
          simp [this]
        · have hle : vma.vmStart ≤ addr := BitVec.not_lt.mp hstart
          rw [if_neg hstart, List.find?_cons_of_pos (by simp [hle, hend])]
      · rw [List.find?_cons_of_neg (by simpa using hend), List.find?_cons_of_neg (by simp [hend])]
        exact ih hsorted

/-! ## The buffers -/

/-- What a buffer holds while the device shows a text: the text, terminated, and what is behind it is not
read. One of the ways to set the size of `/dev/pagebuffers` leaves out the zero. -/
structure Shows (d : Dev) (dev : Output) (text : List Char) : Prop where
  buf : ∃ rest, dev.buf = text ++ '\x00' :: rest
  size : dev.size = text.length + 1 ∨ d = .pagebuffers ∧ dev.size = text.length
  clear : '\x00' ∉ text
  short : text.length < 128
  nonempty : d = .pagebuffers → text ≠ []

def Good (k : World taskSize) (shown : Dev → List Char) : Prop := ∀ d ≠ .gupEvent, Shows d (k.output d) (shown d)

theorem snprintf_eq {buf text : List Char} {n : Nat} (h : text.length < n) :
    snprintf buf n text = (text ++ '\x00' :: buf.drop (text.length + 1), text.length) := by
  rw [snprintf, List.take_of_length_le (by omega)]

theorem shows_snprintf {buf text : List Char} {n : Nat} (hd : d ≠ .pagebuffers) (hn : text.length < n)
    (hclear : '\x00' ∉ text) (hshort : text.length < 128) :
    Shows d ⟨(snprintf buf n text).1, (snprintf buf n text).2 + 1⟩ text := by
  rw [snprintf_eq hn]
  exact ⟨⟨_, rfl⟩, .inl rfl, hclear, hshort, fun e => absurd e hd⟩

/-- A buffer that is reset. -/
theorem shows_reset {dev : Output} {text : List Char} (hd : d ≠ .pagebuffers) (h : Shows d dev text) :
    Shows d ⟨dev.buf.set 0 '\x00', 1⟩ [] := by
  obtain ⟨rest, hbuf⟩ := h.buf
  obtain ⟨c, cs, hcons⟩ : ∃ c cs, dev.buf = c :: cs := by
    rw [hbuf]
    cases text with
    | nil => exact ⟨_, _, rfl⟩
    | cons c cs => exact ⟨_, _, rfl⟩
  refine ⟨⟨cs, ?_⟩, .inl rfl, List.not_mem_nil, by decide, fun e => absurd e hd⟩
  rw [hcons]
  rfl

theorem zero_not_mem_hexadecimal {v : Word} : '\x00' ∉ hexadecimal v := not_mem_toDigits (by decide) (by decide)

theorem zero_not_mem_signedDecimal {r : BitVec 32} : '\x00' ∉ signedDecimal r := by
  have hdigits : '\x00' ∉ Nat.toDigits 10 r.toInt.natAbs := not_mem_toDigits (by decide) (by decide)
  rw [signedDecimal]
  split
  · rw [List.mem_cons, not_or]
    exact ⟨by decide, hdigits⟩
  · exact hdigits

/-- Flags are letters, and few. -/
theorem bufferFlags_spec (bState : Word) : '\x00' ∉ bufferFlags bState ∧ (bufferFlags bState).length < 64 := by
  have hsub : (bufferFlags bState).Sublist (bhFlags.flatMap Prod.snd) :=
    List.Sublist.flatMap List.filter_sublist _
  refine ⟨fun hmem => ?_, Nat.lt_of_le_of_lt hsub.length_le (by decide)⟩
  have := hsub.subset hmem
  revert this
  decide

/-! ## One write

Each handler, whatever it reads: it leaves a buffer that shows what `textAfter` says, and leaves the
buffers of the other devices alone. -/

section

variable (w : Write d taskSize) {off : Nat} {text : List Char}

theorem Write.output_of_ne {d' : Dev} (h : d' ≠ d) (off : Nat) :
    (w.call off).2.2.output d' = w.world.output d' := by
  cases d <;> cases d' <;> first | rfl | exact absurd rfl h

end

/-- What is said of the number that was read, if one was read. -/
theorem textAfter_eq (hd : d ≠ .gupEvent) {w : Write d taskSize} {off pos : Nat} {n : Option Word}
    (h : readNumber sscanfUll w.buf 254 off w.src = (n, pos)) (text : List Char) :
    w.textAfter off text = (n.bind (w.world.tells d)).getD (if d.Forgets then [] else text) := by
  obtain ⟨hn, -⟩ := Write.number_of_readNumber hd h
  rw [Write.textAfter, hn]
  cases n with
  | none => rfl
  | some n =>
      show (w.world.tells d (BitVec.ofInt 64 n.toNat)).getD _ = _
      rw [Write.ofInt_toNat]
      rfl

theorem shows_refcount (w : Write .refcount taskSize) (off : Nat) {text : List Char}
    (h : Shows .refcount (w.world.output .refcount) text) :
    Shows .refcount ((w.call off).2.2.output .refcount) (w.textAfter off text) := by
  have hne : Dev.refcount ≠ .gupEvent := by decide
  show Shows _ ⟨(refcountWrite w.world.pages w.buf w.world.refcount w.src off).2.2.refcountBuf,
    (refcountWrite w.world.pages w.buf w.world.refcount w.src off).2.2.refcountBufSize⟩ _
  rw [refcountWrite_eq]
  rcases hread : readNumber sscanfUll w.buf 254 off w.src with ⟨n, pos⟩
  rw [textAfter_eq hne hread]
  cases n with
  | none => exact h
  | some n =>
      show Shows _ _ ((w.world.tells .refcount n).getD text)
      rw [World.tells]
      cases hpage : w.world.pages n with
      | none =>
          simp only [hpage]
          exact h
      | some r =>
          simp only [hpage]
          apply shows_snprintf (by decide)
          · exact Nat.lt_of_le_of_lt length_signedDecimal (by decide)
          · exact zero_not_mem_signedDecimal
          · exact Nat.lt_of_le_of_lt length_signedDecimal (by decide)

theorem shows_pagebuffers (w : Write .pagebuffers taskSize) (off : Nat) {text : List Char}
    (h : Shows .pagebuffers (w.world.output .pagebuffers) text) :
    Shows .pagebuffers ((w.call off).2.2.output .pagebuffers) (w.textAfter off text) := by
  have hne : Dev.pagebuffers ≠ .gupEvent := by decide
  show Shows _ (pagebuffersWrite w.world.buffers w.buf w.world.pagebuffers w.src off).2.2 _
  unfold pagebuffersWrite
  rcases hread : readNumber sscanfUll w.buf 254 off w.src with ⟨n, pos⟩
  rw [textAfter_eq hne hread]
  cases n with
  | none => exact h
  | some n =>
      show Shows _ _ ((w.world.tells .pagebuffers n).getD text)
      rw [World.tells]
      cases hpage : w.world.buffers n with
      | noPage =>
          simp only [hpage]
          exact h
      | none =>
          simp only [hpage]
          show Shows _ _ "[]".toList
          exact ⟨⟨_, rfl⟩, .inl rfl, by decide, by decide, fun _ => by decide⟩
      | head bState =>
          obtain ⟨hclear, hshort⟩ := bufferFlags_spec bState
          simp only [hpage]
          refine ⟨⟨_, rfl⟩, .inr ⟨rfl, rfl⟩, ?_, ?_, fun _ => List.cons_ne_nil _ _⟩
          · show '\x00' ∉ '[' :: bufferFlags bState ++ [']']
            simp [hclear]
          · show ('[' :: bufferFlags bState ++ [']']).length < 128
            rw [List.length_append, List.length_cons, List.length_singleton]
            omega

/-- The texts of the other two devices fit, whatever the area. -/
theorem length_text_lt (vma : Vma) : ("start=".toList ++ hexadecimal vma.vmStart ++ ", end=".toList ++
    hexadecimal vma.vmEnd ++ ", flags=".toList ++ hexadecimal vma.vmFlags).length < 128 := by
  have h₁ : (hexadecimal vma.vmStart).length ≤ 16 := length_hexadecimal
  have h₂ : (hexadecimal vma.vmEnd).length ≤ 16 := length_hexadecimal
  have h₃ : (hexadecimal vma.vmFlags).length ≤ 16 := length_hexadecimal
  simp only [List.length_append]
  have h₄ : "start=".toList.length = 6 := rfl
  have h₅ : ", end=".toList.length = 6 := rfl
  have h₆ : ", flags=".toList.length = 8 := rfl
  omega

/-- `/dev/vmainfo` and `/dev/vmaflags`. -/
theorem shows_vma (hd : d.Forgets) (w : Write d taskSize) (off : Nat) {dev : Output} {text : List Char}
    {tell : Vma → List Char} (h : Shows d dev text)
    (htells : ∀ n, w.world.tells d n = (w.world.mm.area n).map tell)
    (hclear : ∀ vma, '\x00' ∉ tell vma) (hshort : ∀ vma, (tell vma).length < 128) :
    Shows d (vmaWrite tell w.world.mm w.buf dev w.src off).2.2 (w.textAfter off text) := by
  have hne : d ≠ .gupEvent ∧ d ≠ .pagebuffers := by
    rcases hd with rfl | rfl
    · exact ⟨by decide, by decide⟩
    · exact ⟨by decide, by decide⟩
  have hreset := shows_reset hne.2 h
  unfold vmaWrite
  rcases hread : readNumber sscanfUll w.buf 254 off w.src with ⟨n, pos⟩
  rw [textAfter_eq hne.1 hread, if_pos hd]
  cases n with
  | none => exact hreset
  | some n =>
      show Shows _ _ ((w.world.tells d n).getD [])
      rw [htells, ← findVma_area]
      cases hvma : findVma w.world.mm n with
      | none =>
          simp only [hvma]
          exact hreset
      | some vma =>
          by_cases hstart : n < vma.vmStart
          · simp only [hvma, if_pos hstart]
            simpa [hstart] using hreset
          · simp only [hvma, if_neg hstart]
            rw [Option.bind_some, if_neg hstart, Option.map_some, Option.getD_some, Nat.add_comm]
            have hlen := hshort vma
            exact shows_snprintf hne.2 (by omega) (hclear vma) hlen

theorem Write.shows (w : Write d taskSize) (off : Nat) {text : List Char} (hd : d ≠ .gupEvent)
    (h : Shows d (w.world.output d) text) : Shows d ((w.call off).2.2.output d) (w.textAfter off text) := by
  cases d with
  | gupEvent => exact absurd rfl hd
  | refcount => exact shows_refcount w off h
  | pagebuffers => exact shows_pagebuffers w off h
  | vmainfo =>
      refine shows_vma (.inl rfl) w off h (fun _ => rfl) (fun vma => ?_) length_text_lt
      simp only [List.mem_append, not_or]
      refine ⟨⟨⟨⟨⟨?_, zero_not_mem_hexadecimal⟩, ?_⟩, zero_not_mem_hexadecimal⟩, ?_⟩, zero_not_mem_hexadecimal⟩
      · decide
      · decide
      · decide
  | vmaflags =>
      refine shows_vma (.inr rfl) w off h (fun _ => rfl) (fun _ => zero_not_mem_hexadecimal) fun vma => ?_
      exact Nat.lt_of_le_of_lt length_hexadecimal (by decide)

/-! ## Runs -/

theorem World.Loaded.good (h : k.Loaded) : Good k shownAtFirst := by
  intro d hd
  cases d with
  | gupEvent => exact absurd rfl hd
  | refcount =>
      show Shows _ ⟨k.refcount.refcountBuf, k.refcount.refcountBufSize⟩ _
      rw [h.refcount]
      exact ⟨⟨_, rfl⟩, .inl rfl, by decide, by decide, by decide⟩
  | pagebuffers =>
      show Shows _ k.pagebuffers _
      rw [h.pagebuffers]
      exact ⟨⟨_, rfl⟩, .inl rfl, by decide, by decide, by decide⟩
  | vmainfo =>
      show Shows _ k.vmainfo _
      rw [h.vmainfo]
      exact ⟨⟨_, rfl⟩, .inl rfl, by decide, by decide, by decide⟩
  | vmaflags =>
      show Shows _ k.vmaflags _
      rw [h.vmaflags]
      exact ⟨⟨_, rfl⟩, .inl rfl, by decide, by decide, by decide⟩

theorem Good.after (h : Good k shown) (e : Happening taskSize) : Good (k.after e) (k.shownAfter shown e) := by
  intro d hd
  cases e with
  | write d' src buf hbuf off =>
      rw [World.after, World.shownAfter]
      by_cases hsame : d = d'
      · subst hsame
        rw [Function.update_self]
        exact Write.shows ⟨src, buf, hbuf, k⟩ off hd (h d hd)
      · rw [Function.update_of_ne hsame, Write.output_of_ne ⟨src, buf, hbuf, k⟩ hsame]
        exact h d hd
  | change pages buffers mm mad =>
      have hout : (k.after (.change pages buffers mm mad)).output d = k.output d := by
        cases d <;> rfl
      rw [hout]
      exact h d hd

theorem Good.run (h : Good k shown) (events : List (Happening taskSize)) :
    Good (k.run events) (k.showing shown events) := by
  induction events generalizing k shown with
  | nil => exact h
  | cons e events ih => exact ih (h.after e)

/-- What is read of a text that is shown. -/
theorem Shows.read {dev : Output} {text : List Char} {sizes : List Nat} (h : Shows d dev text)
    (hlen : text.length < sizes.sum) :
    readLoop dev.buf dev.size sizes 0 = text ++ ['\x00'] ∨
      d = .pagebuffers ∧ readLoop dev.buf dev.size sizes 0 = text := by
  obtain ⟨rest, hbuf⟩ := h.buf
  rw [readLoop_eq, List.drop_zero, hbuf]
  rcases h.size with hsize | ⟨hd, hsize⟩
  · left
    have hbytes : (text ++ '\x00' :: rest).take (text.length + 1) = text ++ ['\x00'] := by
      rw [List.take_append, List.take_of_length_le (Nat.le_succ _), Nat.add_sub_cancel_left]
      rfl
    rw [hsize, hbytes, List.take_of_length_le]
    rw [List.length_append, List.length_singleton]
    exact hlen
  · refine .inr ⟨hd, ?_⟩
    rw [hsize, List.take_left, List.take_of_length_le (Nat.le_of_lt hlen)]

/-- **A device shows the answer to the last number it accepted**, in every run of writes by any clients, whatever
changes in between and whatever the sizes of the reads: the whole answer and at most its terminator. A write that
fails empties `/dev/vmainfo` and `/dev/vmaflags` and leaves the other two alone. No answer comes near the end of a
buffer. -/
theorem device_answers (hk : k.Loaded) (events : List (Happening taskSize)) (hd : d ≠ .gupEvent) (sizes : List Nat)
    (hlen : (k.showing shownAtFirst events d).length < sizes.sum) :
    cString ((k.run events).read d sizes) = k.showing shownAtFirst events d ∧
    ((k.run events).read d sizes = k.showing shownAtFirst events d ++ ['\x00'] ∨
      d = .pagebuffers ∧ (k.run events).read d sizes = k.showing shownAtFirst events d) ∧
    ((k.run events).output d).size < 255 := by
  have hshows := hk.good.run events d hd
  have hread := hshows.read hlen
  refine ⟨?_, hread, ?_⟩
  · rcases hread with hread | ⟨-, hread⟩
    · rw [World.read, hread, cString_append hshows.clear]
    · rw [World.read, hread, cString_self hshows.clear]
  · have hshort := hshows.short
    rcases hshows.size with hsize | ⟨-, hsize⟩ <;> omega

def smallVmas : List Vma := [⟨0x400000, 0x401000, 0x75⟩, ⟨0x600000, 0x602000, 0x8100073⟩]

theorem smallVmas_nonempty : ∀ vma ∈ smallVmas, vma.vmStart < vma.vmEnd := by decide

theorem smallVmas_sorted : smallVmas.Pairwise fun vma next => vma.vmEnd ≤ next.vmStart := by decide

theorem smallVmas_below : ∀ vma ∈ smallVmas, vma.vmEnd ≤ 0x7ffffffff000#64 := by decide

def World.small : World 0x7ffffffff000#64 where
  mad := Mad.State.init
  pages := fun pfn => if pfn = 7 then some (-1) else none
  refcount := Exper.Device.init
  buffers := fun pfn => if pfn = 7 then .head 0x21 else .noPage
  pagebuffers := .brackets
  mm := ⟨smallVmas, smallVmas_nonempty, smallVmas_sorted, smallVmas_below⟩
  vmainfo := .empty
  vmaflags := .empty

theorem World.small_loaded : World.small.Loaded := ⟨rfl, rfl, rfl, rfl⟩

def stack : List Char := List.replicate 255 'x'

theorem length_stack : stack.length = 255 := List.length_replicate

def twoWrites : List (Happening 0x7ffffffff000#64) :=
  [.write .refcount ['7', '\n'] stack length_stack 0, .write .refcount ['8', '\n'] stack length_stack 0]

theorem showing_twoWrites : World.small.showing shownAtFirst twoWrites .refcount = ['-', '1'] := by
  decide +kernel

/-- The client reads one byte at a time. -/
theorem device_answers_refcount :
    cString ((World.small.run twoWrites).read .refcount [1, 1, 1, 1]) = ['-', '1'] := by
  have hlen : (World.small.showing shownAtFirst twoWrites .refcount).length < [1, 1, 1, 1].sum := by
    rw [showing_twoWrites]
    decide
  have h := device_answers World.small_loaded twoWrites (by decide) [1, 1, 1, 1] hlen
  rw [showing_twoWrites] at h
  exact h.1

/-! ## Clients

A client writes its number and reads the answer. In between, others may use other devices. -/

/-- The device is left alone. -/
def Happening.Spares (d : Dev) : Happening taskSize → Prop
  | .write d' .. => d' ≠ d
  | .change .. => True

theorem showing_spares {events : List (Happening taskSize)} (h : ∀ e ∈ events, e.Spares d) :
    k.showing shown events d = shown d := by
  induction events generalizing k shown with
  | nil => rfl
  | cons e events ih =>
      have hrest := fun e' he' => h e' (List.mem_cons_of_mem _ he')
      have he := h e List.mem_cons_self
      rw [World.showing, ih hrest]
      cases e with
      | write d' src buf hbuf off => exact Function.update_of_ne (Ne.symm he) _ _
      | change pages buffers mm mad => rfl

/-- A client writes a number as a line. -/
def ask (d : Dev) (n : Word) (buf : List Char) (hbuf : buf.length = d.size) : Happening taskSize :=
  .write d (Exper.request n) buf hbuf 0

/-- The size of the parts in which the C library reads. -/
def parts : List Nat := [Exper.bufsiz, Exper.bufsiz]

/-- `lookup_vma_flags()` of `shared.c`: what it prints, unless it exits. In between other things may happen.
`junk` is what `flags` holds at first, `buf` what the handler's buffer does. -/
def lookupVmaFlags (k : World taskSize) (buf : List Char) (hbuf : buf.length = Dev.vmaflags.size)
    (meanwhile : List (Happening taskSize)) (junk ptr : Word) : Option (List Char) :=
  -- That the write failed is not looked at.
  let k := (k.after (ask .vmaflags ptr buf hbuf)).run meanwhile
  match fscanfLx (k.read .vmaflags parts) with
  | none => none
  | some flags => some (Tools.printVmaFlagsShared (flags.getD junk))

/-- `print_page_buffers()` of `read-pageflags.c`: what it prints, unless it exits or writes behind its buffer. -/
def printPageBuffers (k : World taskSize) (buf : List Char) (hbuf : buf.length = Dev.pagebuffers.size)
    (meanwhile : List (Happening taskSize)) (pfn : Word) : Option (List Char) :=
  let k := (k.after (ask .pagebuffers pfn buf hbuf)).run meanwhile
  let bytes := (k.read .pagebuffers parts).take 255
  if bytes = [] ∨ 255 ≤ bytes.length then none
  else some ("page_buffers=".toList ++ cString (bytes ++ ['\x00']) ++ " ".toList)

section

variable {before meanwhile : List (Happening taskSize)} {buf : List Char}

theorem length_lt_parts {text : List Char} (h : text.length < 128) : text.length < parts.sum := by
  have hsum : parts.sum = 8192 := rfl
  omega

/-- What a client's own number makes of its device, when it comes to read. -/
theorem shows_ask (before : List (Happening taskSize)) (n : Word) (hk : k.Loaded) (hd : d ≠ .gupEvent)
    (hbuf : buf.length = d.size) (hquiet : ∀ e ∈ meanwhile, e.Spares d) :
    Shows d ((((k.run before).after (ask d n buf hbuf)).run meanwhile).output d)
      (((k.run before).tells d n).getD (if d.Forgets then [] else k.showing shownAtFirst before d)) := by
  have hgood := ((hk.good.run before).after (ask d n buf hbuf)).run meanwhile d hd
  rw [showing_spares hquiet] at hgood
  have hzero : '\x00' ∉ Exper.request n := by
    rw [Exper.request, List.mem_append, not_or]
    exact ⟨not_mem_zero_of_isDigit isDecimal_decimal.digits, by decide⟩
  have hne : Exper.request n ≠ [] := by simp [Exper.request]
  have hlen : (Exper.request n).length ≤ 254 := by
    have : (decimal n).length ≤ 20 := length_decimal
    rw [Exper.request, List.length_append, List.length_singleton]
    omega
  have hnumber : readNumber sscanfUll buf 254 0 (Exper.request n) = (some n, (Exper.request n).length) := by
    rw [readNumber_start hzero hne hlen, Exper.request, sscanfUll_decimal]
  have htext : (k.run before).shownAfter (k.showing shownAtFirst before) (ask d n buf hbuf) d =
      ((k.run before).tells d n).getD (if d.Forgets then [] else k.showing shownAtFirst before d) := by
    rw [ask, World.shownAfter, Function.update_self]
    exact textAfter_eq (w := ⟨Exper.request n, buf, hbuf, k.run before⟩) hd hnumber _
  rwa [htext] at hgood

/-- **A client of `shared.c` prints the flags of its own area**: for an address that is mapped, `lookup_vma_flags()`
prints the flags that the area of the address had when the client asked, if nobody else wrote to `/dev/vmaflags`
before the client read; for any other address it prints what it never initialised. -/
theorem lookup_vma_flags (hk : k.Loaded) (hbuf : buf.length = Dev.vmaflags.size)
    (hquiet : ∀ e ∈ meanwhile, e.Spares .vmaflags) (junk ptr : Word) :
    lookupVmaFlags (k.run before) buf hbuf meanwhile junk ptr =
      some (Tools.printVmaFlagsShared
        (match (k.run before).mm.area ptr with
          | some vma => vma.vmFlags
          | none => junk)) := by
  have hshows := shows_ask before ptr hk (by decide) hbuf hquiet
  have hread := hshows.read (length_lt_parts hshows.short)
  rw [lookupVmaFlags, World.read]
  rw [World.tells] at hread
  cases harea : (k.run before).mm.area ptr with
  | none =>
      rw [harea] at hread
      rcases hread with hread | ⟨hd, -⟩
      · rw [hread]
        rfl
      · cases hd
  | some vma =>
      rw [harea] at hread
      rcases hread with hread | ⟨hd, -⟩
      · rw [hread, Option.map_some, Option.getD_some, fscanfLx_hexadecimal]
        rfl
      · cases hd

/-- **`print_page_buffers()` prints the flags of its own page**, or, where the page does not exist, what the device
showed before. It never writes behind its buffer. -/
theorem print_page_buffers (hk : k.Loaded) (hbuf : buf.length = Dev.pagebuffers.size)
    (hquiet : ∀ e ∈ meanwhile, e.Spares .pagebuffers) (pfn : Word) :
    printPageBuffers (k.run before) buf hbuf meanwhile pfn =
      some ("page_buffers=".toList ++
        ((k.run before).tells .pagebuffers pfn).getD (k.showing shownAtFirst before .pagebuffers) ++ " ".toList) := by
  have hshows := shows_ask before pfn hk (by decide) hbuf hquiet
  rw [if_neg (by decide)] at hshows
  generalize ((k.run before).tells .pagebuffers pfn).getD (k.showing shownAtFirst before .pagebuffers) = text
    at hshows ⊢
  have hread := hshows.read (length_lt_parts hshows.short)
  have hne := hshows.nonempty rfl
  have hshort := hshows.short
  have hterm : cString (text ++ ['\x00']) = text := cString_append hshows.clear
  rw [printPageBuffers, World.read]
  rcases hread with hread | ⟨-, hread⟩
  · have hall : (text ++ ['\x00']).take 255 = text ++ ['\x00'] := by
      rw [List.take_of_length_le]
      rw [List.length_append, List.length_singleton]
      omega
    have hlen : (text ++ ['\x00']).length = text.length + 1 := by rw [List.length_append, List.length_singleton]
    have htwo : cString (text ++ ['\x00'] ++ ['\x00']) = text := by
      rw [List.append_assoc]
      exact cString_append hshows.clear
    rw [hread]
    simp only [hall, hlen, htwo]
    rw [if_neg]
    rintro (h | h)
    · exact hne (List.append_eq_nil_iff.mp h).1
    · omega
  · have hall : text.take 255 = text := List.take_of_length_le (by omega)
    rw [hread]
    simp only [hall, hterm]
    rw [if_neg]
    rintro (h | h)
    · exact hne h
    · omega

/-- An address in the second area, while somebody looks at a page. -/
theorem lookup_vma_flags_small : lookupVmaFlags (World.small.run twoWrites) stack length_stack twoWrites 0 0x601234 =
    some (Tools.printVmaFlagsShared 0x8100073) := by
  have hquiet : ∀ e ∈ twoWrites, e.Spares .vmaflags := by
    intro e he
    rcases List.mem_pair.mp he with rfl | rfl
    · exact Dev.noConfusion
    · exact Dev.noConfusion
  exact lookup_vma_flags World.small_loaded length_stack hquiet 0 0x601234

/-- A page with two flags, and then one that is not there. -/
theorem print_page_buffers_small :
    printPageBuffers (World.small.run twoWrites) stack length_stack twoWrites 7 = some "page_buffers=[UN] ".toList ∧
      printPageBuffers (World.small.run twoWrites) stack length_stack twoWrites 8 = some "page_buffers=[] ".toList := by
  have hquiet : ∀ e ∈ twoWrites, e.Spares .pagebuffers := by
    intro e he
    rcases List.mem_pair.mp he with rfl | rfl
    · exact Dev.noConfusion
    · exact Dev.noConfusion
  exact ⟨print_page_buffers World.small_loaded length_stack hquiet 7,
    print_page_buffers World.small_loaded length_stack hquiet 8⟩

end

end MmExper.Kernel
