import MmExper.Kernel.OpenFile
import MmExper.Lib.Runs

/-!
# Whose number a write acts on

A client writes numbers through an open file, one after the other. Until one of them succeeds, each is read from
the text that was written. What a later one acts on is whatever the stack holds, unless the position has reached
the end of the buffer already.
-/

namespace MmExper.Kernel

open Lib

/-- The number that a text begins with. -/
def spelled (src : List Char) : Nat := numeral 10 (src.takeWhile Char.isDigit)

/-- A decimal number and a new line, shorter than the buffer of the handler. -/
structure IsRequest (d : Dev) (src : List Char) : Prop where
  line : ∃ ds, IsDecimal ds ∧ src = ds ++ ['\n']
  shorter : src.length < d.size

/-- What the handler makes of a number. -/
def Dev.wrap : Dev → Nat → Int
  | .gupEvent, n => (BitVec.ofNat 32 n).toInt
  | _, n => (BitVec.ofNat 64 n).toNat

section

variable {d : Dev} {taskSize : Word} {off : Nat} {src : List Char} {texts : List (List Char)}

/-- A write through the open file, whose position is the state. -/
def step (off : Nat) (w : Write d taskSize) : Option Nat := some (w.position off)

/-- The number that the handler acts on is the one that the text spells, or the write fails. -/
def ActsOnOwn (off : Nat) (w : Write d taskSize) : Prop :=
  (w.call off).1 < 0 ∨ w.number off = some (spelled w.src : Int)

/-- There is a kernel that answers this text: the events are 0 and 1, and no area reaches behind user space. -/
def Dev.Answerable (d : Dev) (taskSize : Word) (src : List Char) : Prop :=
  match d with
  | .gupEvent => spelled src = 0 ∨ spelled src = 1
  | .refcount => True
  | .pagebuffers => True
  | _ => BitVec.ofNat 64 (spelled src) < taskSize

instance (d : Dev) (taskSize : Word) (src : List Char) : Decidable (d.Answerable taskSize src) :=
  match d with
  | .gupEvent => inferInstanceAs (Decidable (spelled src = 0 ∨ spelled src = 1))
  | .refcount => inferInstanceAs (Decidable True)
  | .pagebuffers => inferInstanceAs (Decidable True)
  | .vmainfo => inferInstanceAs (Decidable (BitVec.ofNat 64 (spelled src) < taskSize))
  | .vmaflags => inferInstanceAs (Decidable (BitVec.ofNat 64 (spelled src) < taskSize))

/-- A text that some kernel answers spells a number of 64 bits. Unless it is the last one, it fills the buffer. -/
def Dev.Clear (d : Dev) (taskSize : Word) : List (List Char) → Prop
  | [] => True
  | src :: texts =>
    (d.Answerable taskSize src → spelled src < 2 ^ 64 ∧ (texts = [] ∨ src.length + 1 = d.size)) ∧
      d.Clear taskSize texts

/-! ## What is read

The first write starts at the beginning of the handler's buffer, so the number is the one that the
text begins with, as the device reads numbers. -/

theorem spelled_line {ds : List Char} (h : IsDecimal ds) : spelled (ds ++ ['\n']) = numeral 10 ds := by
  rw [spelled, takeWhile_numeral h (stops_cons rfl)]

theorem Dev.scan_numeral {ds rest : List Char} (h : IsDecimal ds) (hr : Stops rest) :
    d.scan (ds ++ rest) = some (d.wrap (numeral 10 ds)) := by
  have hword : (sscanfUll (ds ++ rest)).map (fun n => (n.toNat : Int)) =
      some ((BitVec.ofNat 64 (numeral 10 ds)).toNat : Int) := by
    rw [sscanfUll_numeral h hr]
    rfl
  cases d with
  | gupEvent =>
      show (sscanfD (ds ++ rest)).map BitVec.toInt = _
      rw [sscanfD_numeral h hr]
      rfl
  | refcount => exact hword
  | pagebuffers => exact hword
  | vmainfo => exact hword
  | vmaflags => exact hword

namespace IsRequest

variable (hs : IsRequest d src)
include hs

theorem ne_nil : src ≠ [] := by
  obtain ⟨ds, -, rfl⟩ := hs.line
  simp

theorem two_le_length : 2 ≤ src.length := by
  obtain ⟨ds, hds, rfl⟩ := hs.line
  have : 0 < ds.length := List.length_pos_iff.mpr hds.ne_nil
  rw [List.length_append, List.length_singleton]
  omega

theorem not_mem_zero : '\x00' ∉ src := by
  obtain ⟨ds, hds, rfl⟩ := hs.line
  rw [List.mem_append, not_or]
  exact ⟨not_mem_zero_of_isDigit hds.digits, by decide⟩

theorem scan : d.scan src = some (d.wrap (spelled src)) := by
  obtain ⟨ds, hds, rfl⟩ := hs.line
  rw [Dev.scan_numeral hds (stops_cons rfl), spelled_line hds]

/-- An event has eight digits at most. -/
theorem wrap_gupEvent (hd : d = .gupEvent) : d.wrap (spelled src) = spelled src := by
  obtain ⟨ds, hds, rfl⟩ := hs.line
  subst hd
  have hlen : ds.length ≤ 8 := by
    have := hs.shorter
    rw [List.length_append, List.length_singleton] at this
    exact Nat.le_of_lt_succ (Nat.lt_of_succ_lt_succ this)
  have hlt : numeral 10 ds < 10 ^ 8 :=
    Nat.lt_of_lt_of_le (numeral_lt hds.digits) (Nat.pow_le_pow_right (by decide) hlen)
  have hnat : (BitVec.ofNat 32 (numeral 10 ds)).toNat = numeral 10 ds := Nat.mod_eq_of_lt (by omega)
  rw [spelled_line hds]
  show (BitVec.ofNat 32 (numeral 10 ds)).toInt = _
  rw [BitVec.toInt_eq_toNat_of_lt (by omega), hnat]

/-- The first write reads its own text. -/
theorem readNumber {w : Write d taskSize} (hw : w.src = src) :
    w.number 0 = some (d.wrap (spelled src)) ∧ w.copied 0 = src.length := by
  have hfit : src.length ≤ d.size - 1 := Nat.le_sub_one_of_lt hs.shorter
  unfold Write.number Write.copied
  rw [hw, readNumber_start hs.not_mem_zero hs.ne_nil hfit, hs.scan]
  exact ⟨rfl, rfl⟩

end IsRequest

/-! ## Numbers that are answered

The handler acts on the number that its variable holds, and that is the one of the text only if the text fits. Where
it does not fit, the kernel may have an answer all the same, to the number that is left of it.
-/

/-- Something comes of this number in some kernel. -/
def Dev.Reaches (d : Dev) (taskSize : Word) (n : Int) : Prop :=
  match d with
  | .gupEvent => n = 0 ∨ n = 1
  | .refcount => True
  | .pagebuffers => True
  | _ => BitVec.ofInt 64 n < taskSize

theorem Write.Accepts.reaches {w : Write d taskSize} {n : Word} (hacc : w.Accepts n.toNat) (hd : d ≠ .gupEvent) :
    d.Reaches taskSize n.toNat := by
  have hvma (hd : d = .vmainfo ∨ d = .vmaflags) : BitVec.ofInt 64 (n.toNat : Int) < taskSize := by
    obtain ⟨vma, hfind, -⟩ := (Write.accepts_vma hd).mp hacc
    exact findVma_lt hfind
  cases d with
  | gupEvent => exact absurd rfl hd
  | refcount => trivial
  | pagebuffers => trivial
  | vmainfo => exact hvma (.inl rfl)
  | vmaflags => exact hvma (.inr rfl)

/-- What the handler makes of a request reaches the kernel exactly if the text is answerable. -/
theorem IsRequest.reaches_iff (hs : IsRequest d src) :
    d.Reaches taskSize (d.wrap (spelled src)) ↔ d.Answerable taskSize src := by
  have hvma : BitVec.ofInt 64 ((BitVec.ofNat 64 (spelled src)).toNat : Int) < taskSize ↔
      BitVec.ofNat 64 (spelled src) < taskSize := by
    rw [Write.ofInt_toNat]
  cases d with
  | gupEvent =>
      show Dev.gupEvent.wrap (spelled src) = 0 ∨ Dev.gupEvent.wrap (spelled src) = 1 ↔ _
      rw [hs.wrap_gupEvent rfl]
      exact or_congr Int.natCast_eq_zero (by rw [← Int.natCast_one, Int.natCast_inj])
  | refcount => exact Iff.rfl
  | pagebuffers => exact Iff.rfl
  | vmainfo => exact hvma
  | vmaflags => exact hvma

theorem IsRequest.wrap_eq (hs : IsRequest d src) (hfits : spelled src < 2 ^ 64) :
    d.wrap (spelled src) = spelled src := by
  have hword : ((BitVec.ofNat 64 (spelled src)).toNat : Int) = spelled src :=
    congrArg Nat.cast (Nat.mod_eq_of_lt hfits)
  cases d with
  | gupEvent => exact hs.wrap_gupEvent rfl
  | refcount => exact hword
  | pagebuffers => exact hword
  | vmainfo => exact hword
  | vmaflags => exact hword

/-! ## Writes at the start of the buffer -/

/-- A write that succeeds has acted on what the handler makes of the text. -/
theorem IsRequest.answerable {w : Write d taskSize} (hs : IsRequest d w.src) (hret : ¬(w.call 0).1 < 0) :
    d.Answerable taskSize w.src := by
  obtain ⟨-, ⟨n, hn, hacc⟩, -⟩ := Write.succeeds hret
  rw [(hs.readNumber rfl).1] at hn
  obtain rfl : d.wrap (spelled w.src) = n := Option.some.inj hn
  rw [← hs.reaches_iff]
  by_cases hd : d = .gupEvent
  · subst hd
    exact hacc
  · have hwrap : d.wrap (spelled w.src) = ((BitVec.ofNat 64 (spelled w.src)).toNat : Int) := by
      cases d with
      | gupEvent => exact absurd rfl hd
      | refcount => rfl
      | pagebuffers => rfl
      | vmainfo => rfl
      | vmaflags => rfl
    rw [hwrap] at hacc ⊢
    exact hacc.reaches hd

theorem IsRequest.actsOnOwn {w : Write d taskSize} (hs : IsRequest d w.src)
    (hfits : d.Answerable taskSize w.src → spelled w.src < 2 ^ 64) : ActsOnOwn 0 w := by
  by_cases hret : (w.call 0).1 < 0
  · exact .inl hret
  · right
    rw [(hs.readNumber rfl).1, hs.wrap_eq (hfits (hs.answerable hret))]

/-- A write that succeeds moves the file behind its text. -/
theorem IsRequest.position_eq {w : Write d taskSize} (hs : IsRequest d w.src) (hret : ¬(w.call 0).1 < 0) :
    w.position 0 = w.src.length := by
  rcases Write.position_of_succeeds hret with h | h
  · exact h.trans (hs.readNumber rfl).2
  · exact h

/-! ## Writes at the end of the buffer

From there on nothing is copied, so no number is read and the write fails. -/

theorem not_number_of_full (h : d.size ≤ off + 1) (w : Write d taskSize) : w.number off = none := by
  unfold Write.number
  rw [readNumber_of_le (Nat.sub_le_of_le_add h)]

/-- They all fail. -/
theorem eachStep_full (h : d.size ≤ off + 1) (writes : List (Write d taskSize)) :
    EachStep step ActsOnOwn off writes := by
  induction writes with
  | nil => trivial
  | cons w writes ih =>
      have hret : (w.call off).1 < 0 := by
        by_contra hret
        obtain ⟨-, ⟨n, hsome, -⟩, -⟩ := Write.succeeds hret
        rw [not_number_of_full h w] at hsome
        cases hsome
      intro pos hpos
      obtain rfl : w.position off = pos := Option.some.inj hpos
      rw [Write.position_of_fails hret]
      exact ⟨.inl hret, ih⟩

/-! ## Writes into the middle of the buffer

For such a position there are a text on the stack and a kernel for which it goes wrong: the stack
holds a digit, and the kernel has an answer for every number. -/

def World.willing (h : 1 < taskSize) : World taskSize where
  mad := { (Mad.State.init : Mad.State Word) with currPage := some 0, pins := [0] }
  pages := fun _ => some 0
  refcount := Exper.Device.init
  buffers := fun _ => .none
  pagebuffers := .brackets
  mm :=
    { vmas := [⟨0, taskSize, 0⟩]
      nonempty := fun vma hvma => by
        rw [List.mem_singleton.mp hvma]
        exact Nat.lt_trans Nat.zero_lt_one h
      sorted := List.pairwise_singleton _ _
      below := fun vma hvma => by
        rw [List.mem_singleton.mp hvma]
        exact Nat.le_refl _ }
  vmainfo := .empty
  vmaflags := .empty

/-- A write of this text in that kernel, onto this buffer. -/
def Write.willing (h : 1 < taskSize) (src buf : List Char) (hbuf : buf.length = d.size) : Write d taskSize :=
  ⟨src, buf, hbuf, World.willing h⟩

variable {h : 1 < taskSize} {buf : List Char} {hbuf : buf.length = d.size}

theorem Write.willing_ready : (Write.willing h src buf hbuf).Ready := fun _ => rfl

theorem Write.willing_accepts {n : Int} (hn : d.Reaches taskSize n) : (Write.willing h src buf hbuf).Accepts n := by
  have hvma (hlt : BitVec.ofInt 64 n < taskSize) : ∃ vma, findVma (World.willing h).mm (BitVec.ofInt 64 n) =
      some vma ∧ vma.vmStart ≤ BitVec.ofInt 64 n := by
    refine ⟨⟨0, taskSize, 0⟩, ?_, Nat.zero_le _⟩
    unfold findVma World.willing
    exact List.find?_cons_of_pos (by simpa using hlt)
  cases d with
  | gupEvent => exact hn
  | refcount => exact Option.some_ne_none _
  | pagebuffers => exact nofun
  | vmainfo => exact hvma hn
  | vmaflags => exact hvma hn

/-- The handler acts on what it reads there, whatever the text spells. -/
theorem Write.not_actsOnOwn_willing {n : Int} (hn : (Write.willing h src buf hbuf).number off = some n)
    (hreach : d.Reaches taskSize n) (hne : n ≠ spelled src) :
    ¬ActsOnOwn off (Write.willing h src buf hbuf) := by
  rintro (hret | hown)
  · exact call_nonneg willing_ready hn (willing_accepts hreach) hret
  · rw [hn] at hown
    exact hne (Option.some.inj hown)

/-- A number that does not fit is not acted on as it is written. -/
theorem IsRequest.not_actsOnOwn (hs : IsRequest d src) (hans : d.Answerable taskSize src)
    (hfits : ¬spelled src < 2 ^ 64) : ¬ActsOnOwn 0 (Write.willing h src buf hbuf) := by
  have hword : ((BitVec.ofNat 64 (spelled src)).toNat : Int) ≠ spelled src := by
    intro heq
    have := (BitVec.ofNat 64 (spelled src)).isLt
    omega
  refine Write.not_actsOnOwn_willing (hs.readNumber rfl).1 (hs.reaches_iff.mpr hans) ?_
  cases d with
  | gupEvent =>
      rcases hans with hzero | hone
      · exact absurd (by omega) hfits
      · exact absurd (by omega) hfits
  | refcount => exact hword
  | pagebuffers => exact hword
  | vmainfo => exact hword
  | vmaflags => exact hword

/-- A buffer that holds a digit of an earlier call. -/
def Dev.junk (d : Dev) (c : Char) : List Char := c :: '\n' :: List.replicate (d.size - 2) '\x00'

theorem Dev.length_junk (c : Char) : (d.junk c).length = d.size := by
  have hsize : 2 ≤ d.size := by cases d <;> decide
  rw [junk, List.length_cons, List.length_cons, List.length_replicate]
  exact Nat.sub_add_cancel hsize

/-- A write that begins neither at the start nor at the end of the buffer may act on the digit. -/
theorem IsRequest.exists_later (hs : IsRequest d src) (h : 1 < taskSize) (hpos : 2 ≤ off) (hoff : off + 1 < d.size) :
    ∃ w : Write d taskSize, w.src = src ∧ ¬ActsOnOwn off w := by
  -- A digit for the stack that stands for a small number, and not for the one of the text.
  obtain ⟨c, n, hc, hn, hreach, hne⟩ : ∃ c n, IsDecimal [c] ∧ numeral 10 [c] = n ∧ (n = 0 ∨ n = 1) ∧
      n ≠ spelled src := by
    by_cases hzero : spelled src = 0
    · exact ⟨'1', 1, ⟨nofun, forall_mem_of_all (by decide)⟩, rfl, .inr rfl, by omega⟩
    · exact ⟨'0', 0, ⟨nofun, forall_mem_of_all (by decide)⟩, rfl, .inl rfl, fun h => hzero h.symm⟩
  have hwrap : d.wrap n = n := by
    rcases hreach with rfl | rfl
    · cases d <;> rfl
    · cases d <;> rfl
  have hbelow : BitVec.ofInt 64 (n : Int) < taskSize := by
    rcases hreach with rfl | rfl
    · exact Nat.lt_trans Nat.zero_lt_one h
    · exact h
  have hdigit : c ≠ '\x00' := by
    rintro rfl
    have := hc.digits '\x00' List.mem_cons_self
    cases this
  refine ⟨Write.willing h src (d.junk c) (d.length_junk c), rfl, ?_⟩
  apply Write.not_actsOnOwn_willing (n := n)
  · -- The copy starts behind the digit, so the digit is what `sscanf()` finds first.
    obtain ⟨rest, hrest, hread⟩ : ∃ rest, Stops rest ∧
        (Lib.readNumber d.scan (d.junk c) (d.size - 1) off src).1 = d.scan (c :: rest) :=
      readNumber_later hdigit hpos (Nat.lt_sub_of_add_lt hoff) hs.ne_nil
    show (Lib.readNumber d.scan (d.junk c) (d.size - 1) off src).1 = some (n : Int)
    have hscan : d.scan ([c] ++ rest) = some (d.wrap (numeral 10 [c])) := Dev.scan_numeral hc hrest
    rw [hread, ← hwrap, ← hn]
    exact hscan
  · cases d with
    | gupEvent =>
        rcases hreach with rfl | rfl
        · exact .inl rfl
        · exact .inr rfl
    | refcount => trivial
    | pagebuffers => trivial
    | vmainfo => exact hbelow
    | vmaflags => exact hbelow
  · exact fun heq => hne (Int.ofNat.inj heq)

/-! ## Whole runs

A text restricts the ones after it only if some kernel answers it: where every kernel refuses it, the file stays at
its start. But any text may be refused, and then the next one is the first that is copied to the start, so the
condition is the same on all of them.
-/

def Write.plain (h : 1 < taskSize) (src : List Char) : Write d taskSize :=
  Write.willing h src (d.junk '0') (d.length_junk '0')

theorem map_src_plain (h : 1 < taskSize) (texts : List (List Char)) :
    (texts.map fun src => (Write.plain h src : Write d taskSize)).map Write.src = texts := by
  rw [List.map_map]
  exact List.map_id texts

theorem IsRequest.position_plain (hs : IsRequest d src) (hans : d.Answerable taskSize src) :
    (Write.plain h src : Write d taskSize).position 0 = src.length :=
  IsRequest.position_eq (w := Write.plain h src) hs
    (Write.call_nonneg Write.willing_ready (hs.readNumber rfl).1 (Write.willing_accepts (hs.reaches_iff.mpr hans)))

def World.unwilling : World taskSize where
  mad := Mad.State.init
  pages := fun _ => none
  refcount := Exper.Device.init
  buffers := fun _ => .noPage
  pagebuffers := .brackets
  mm :=
    { vmas := []
      nonempty := nofun
      sorted := List.Pairwise.nil
      below := nofun }
  vmainfo := .empty
  vmaflags := .empty

/-- A write in that kernel, of any text, leaves the file where it was. -/
theorem exists_refused (d : Dev) (taskSize : Word) (src : List Char) (off : Nat) :
    ∃ w : Write d taskSize, w.src = src ∧ w.position off = off := by
  let w : Write d taskSize := ⟨src, d.junk '0', d.length_junk '0', World.unwilling⟩
  refine ⟨w, rfl, Write.position_of_fails ?_⟩
  by_contra hret
  obtain ⟨hready, ⟨n, -, hacc⟩, -⟩ := Write.succeeds hret
  cases d with
  | gupEvent => cases hready rfl
  | refcount => exact hacc rfl
  | pagebuffers => exact hacc rfl
  | vmainfo =>
      obtain ⟨vma, hfind, -⟩ := hacc
      cases hfind
  | vmaflags =>
      obtain ⟨vma, hfind, -⟩ := hacc
      cases hfind

/-- **When every write acts on its own text.** Over all that the stack may hold and all that the kernel may answer,
the writes of these texts through one open file act on their own numbers or fail if and only if the texts are
clear. -/
theorem act_on_own_iff (h : 1 < taskSize) (texts : List (List Char)) (ht : ∀ src ∈ texts, IsRequest d src) :
    (∀ writes : List (Write d taskSize), writes.map Write.src = texts → EachStep step ActsOnOwn 0 writes) ↔
      d.Clear taskSize texts := by
  induction texts with
  | nil =>
      refine iff_of_true (fun writes hwrites => ?_) trivial
      rw [List.map_eq_nil_iff.mp hwrites]
      trivial
  | cons src texts ih =>
      obtain ⟨hs, ht⟩ := List.forall_mem_cons.mp ht
      have ih := ih ht
      constructor
      · intro hall
        refine ⟨fun hans => ⟨?_, ?_⟩, ih.mp fun writes hwrites => ?_⟩
        · -- A number that does not fit is read as another one, and some kernel has an answer for that.
          by_contra hfits
          have hstep := hall (Write.plain h src :: texts.map (Write.plain h))
            (congrArg (src :: ·) (map_src_plain h texts)) _ rfl
          exact hs.not_actsOnOwn hans hfits hstep.1
        · -- The first write is answered, and the second one begins in the middle of the buffer.
          by_contra hlater
          obtain ⟨hmore, hlen⟩ := not_or.mp hlater
          obtain ⟨src', texts, rfl⟩ := List.exists_cons_of_ne_nil hmore
          have hs' : IsRequest d src' := ht src' List.mem_cons_self
          have hoff : src.length + 1 < d.size := Nat.lt_of_le_of_ne hs.shorter hlen
          obtain ⟨w, hw, hown⟩ := hs'.exists_later h hs.two_le_length hoff
          have hstep := hall (Write.plain h src :: w :: texts.map (Write.plain h))
            (by rw [List.map_cons, List.map_cons, map_src_plain, hw]; rfl) _ rfl
          have hlast := hstep.2
          rw [hs.position_plain hans] at hlast
          exact hown (hlast _ rfl).1
        · -- The first write is refused, and the second one is the first.
          obtain ⟨w, hw, hpos⟩ := exists_refused d taskSize src 0
          have hstep := hall (w :: writes) (by rw [List.map_cons, hw, hwrites]) 0 (congrArg Option.some hpos)
          exact hstep.2
      · rintro ⟨hclear, hrest⟩ writes hwrites
        cases writes with
        | nil => trivial
        | cons w writes =>
            obtain ⟨rfl, htexts⟩ : w.src = src ∧ writes.map Write.src = texts := List.cons.inj hwrites
            intro pos hpos
            obtain rfl : w.position 0 = pos := Option.some.inj hpos
            -- The first write acts on its own number. What is left depends on whether it was answered.
            refine ⟨hs.actsOnOwn fun hans => (hclear hans).1, ?_⟩
            by_cases hret : (w.call 0).1 < 0
            · rw [Write.position_of_fails hret]
              exact ih.mpr hrest writes htexts
            · rw [hs.position_eq hret]
              -- The buffer is full, or there is no other write.
              rcases (hclear (hs.answerable hret)).2 with rfl | hfull
              · rw [List.map_eq_nil_iff.mp htexts]
                trivial
              · exact eachStep_full (Nat.le_of_eq hfull.symm) writes

/-- Three events. The first one is none, and the second one fills the nine characters. -/
def fullEvents : List (Write .gupEvent 0x7ffffffff000#64) :=
  [.plain (by decide) ['2', '\n'], .plain (by decide) ['0', '0', '0', '0', '0', '0', '0', '1', '\n'],
    .plain (by decide) ['0', '\n']]

def farAddresses : List (Write .vmainfo 0x7ffffffff000#64) :=
  [.plain (by decide) "140737488351232\n".toList, .plain (by decide) "4096\n".toList]

theorem act_on_own_full : EachStep step ActsOnOwn 0 fullEvents ∧ EachStep step ActsOnOwn 0 farAddresses := by
  have hline {d : Dev} (ds : List Char) (hne : ds ≠ []) (hall : ds.all Char.isDigit = true)
      (hlen : ds.length + 1 < d.size) : IsRequest d (ds ++ ['\n']) := by
    refine ⟨⟨ds, ⟨hne, List.all_eq_true.mp hall⟩, rfl⟩, ?_⟩
    rwa [List.length_append]
  have hevents : Dev.gupEvent.Clear 0x7ffffffff000#64 (fullEvents.map Write.src) :=
    ⟨fun h => absurd h (by decide), fun _ => ⟨by decide, .inr rfl⟩, fun _ => ⟨by decide, .inl rfl⟩, trivial⟩
  have haddresses : Dev.vmainfo.Clear 0x7ffffffff000#64 (farAddresses.map Write.src) :=
    ⟨fun h => absurd h (by decide), fun _ => ⟨by decide, .inl rfl⟩, trivial⟩
  constructor
  · refine (act_on_own_iff (by decide) _ ?_).mpr hevents fullEvents rfl
    intro src hsrc
    rcases List.mem_cons.mp hsrc with rfl | hsrc
    · exact hline ['2'] nofun rfl (by decide)
    · rcases List.mem_pair.mp hsrc with rfl | rfl
      · exact hline ['0', '0', '0', '0', '0', '0', '0', '1'] nofun rfl (by decide)
      · exact hline ['0'] nofun rfl (by decide)
  · refine (act_on_own_iff (by decide) _ ?_).mpr haddresses farAddresses rfl
    intro src hsrc
    rcases List.mem_pair.mp hsrc with rfl | rfl
    · exact hline "140737488351232".toList nofun rfl (by decide)
    · exact hline "4096".toList nofun rfl (by decide)

/-- A client asks for the page 1 and then for the page 2. At the second write, the stack still holds what
the first one has copied: the text goes behind it, and the answer is about the page 1 again. -/
theorem act_on_own_stale : ∃ first second : Write .refcount 0x7ffffffff000#64,
    first.src = ['1', '\n'] ∧ second.src = ['2', '\n'] ∧ second.buf.take 2 = first.src ∧
      (first.call 0).2.1 = 2 ∧ (second.call 2).1 = 2 ∧ second.number 2 = some 1 ∧
      ¬EachStep step ActsOnOwn 0 [first, second] := by
  let first : Write .refcount 0x7ffffffff000#64 := .willing (by decide) ['1', '\n'] _ (Dev.length_junk '1')
  let second : Write .refcount 0x7ffffffff000#64 := .willing (by decide) ['2', '\n'] _ (Dev.length_junk '1')
  have hret : (second.call 2).1 = 2 := rfl
  have hnumber : second.number 2 = some 1 := rfl
  have hspelled : spelled second.src = 2 := rfl
  refine ⟨first, second, rfl, rfl, rfl, rfl, hret, hnumber, fun heach => ?_⟩
  rcases ((heach 2 rfl).2 2 rfl).1 with hneg | hown
  · rw [hret] at hneg
    cases hneg
  · rw [hnumber, hspelled] at hown
    cases hown

end

end MmExper.Kernel
