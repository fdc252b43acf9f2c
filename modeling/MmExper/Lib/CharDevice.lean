import Mathlib.Algebra.Group.Int.Defs
import Mathlib.Algebra.Ring.Nat
import MmExper.Lib.Numerals

/-!
# Character devices

The helpers with which the kernel's handlers for `read` and `write` copy text, the conversions of its
`sscanf`, and those of the C library that the clients of a device use. A buffer is a list of characters,
and the string in it ends at the first zero.
-/

namespace MmExper.Lib

variable {buf s rest : List Char} {available pos size : Nat} {v : BitVec 64} {r : BitVec 32}

def cString (buf : List Char) : List Char := buf.takeWhile (· ≠ '\x00')

/-- `simple_write_to_buffer()`: the number of bytes copied, the buffer, and the position. -/
def simpleWriteToBuffer (buf : List Char) (available pos : Nat) (src : List Char) :
    Nat × List Char × Nat :=
  if pos ≥ available ∨ src = [] then (0, buf, pos)
  else
    let src := src.take (available - pos)
    (src.length, buf.take pos ++ src ++ buf.drop (pos + src.length), pos + src.length)

/-- `simple_read_from_buffer()` into a user buffer of `size` bytes: the bytes, and the position. -/
def simpleReadFromBuffer (size pos : Nat) (buf : List Char) (available : Nat) : List Char × Nat :=
  if pos ≥ available ∨ size = 0 then ([], pos)
  else
    let bytes := ((buf.take available).drop pos).take size
    (bytes, pos + bytes.length)

/-- `snprintf()` of this text into a buffer of `n` bytes: the buffer, and the length of the text. -/
def snprintf (buf : List Char) (n : Nat) (text : List Char) : List Char × Nat :=
  let kept := text.take (n - 1)
  (kept ++ '\x00' :: buf.drop (kept.length + 1), text.length)

/-- `%llu` and `%lu` of the kernel's `sscanf()`. A value that does not fit wraps. -/
def sscanfUll (s : List Char) : Option (BitVec 64) :=
  let ds := (s.dropWhile isSpace).takeWhile Char.isDigit
  if ds = [] then none else some (BitVec.ofNat 64 (numeral 10 ds))

/-- `%d` of the kernel's `sscanf()`. -/
def sscanfD (s : List Char) : Option (BitVec 32) :=
  let s := s.dropWhile isSpace
  let neg := s.head? = some '-'
  let ds := (if neg then s.tail else s).takeWhile Char.isDigit
  if ds = [] then none
  else
    let z : Int := numeral 10 ds
    some (BitVec.ofInt 32 (if neg then -z else z))

/-- How the write handlers begin: the text is copied into a buffer on the stack, a zero is put after as
many bytes as were copied, and a number is read from the buffer. The number, unless this fails, and the
position. -/
def readNumber {α : Type*} (scan : List Char → Option α) (buf : List Char) (available pos : Nat)
    (src : List Char) : Option α × Nat :=
  let (count, buf, pos) := simpleWriteToBuffer buf available pos src
  (if count = 0 then none else scan (cString (buf.set count '\x00')), pos)

def signedDecimal (r : BitVec 32) : List Char :=
  if r.toInt < 0 then '-' :: Nat.toDigits 10 r.toInt.natAbs else Nat.toDigits 10 r.toInt.natAbs

/-- A `long`, clipped as `strtol()` does. -/
def clipLong (z : Int) : Int := max (-2 ^ 63) (min (2 ^ 63 - 1) z)

/-- `fscanf()` with `%d`: nothing at the end of the input, and nothing inside where no number is. -/
def fscanfD (s : List Char) : Option (Option (BitVec 32)) :=
  let s := s.dropWhile isSpace
  if s = [] then none
  else
    let neg := s.head? = some '-'
    let s := if neg ∨ s.head? = some '+' then s.tail else s
    let ds := s.takeWhile Char.isDigit
    if ds = [] then some none
    else
      let z : Int := numeral 10 ds
      some (some (BitVec.ofInt 32 (clipLong (if neg then -z else z))))

def isXDigit (c : Char) : Bool := c.isDigit || 'a' ≤ c && c ≤ 'f' || 'A' ≤ c && c ≤ 'F'

/-- `fscanf()` with `%lx`, like `fscanfD`. A prefix `0x` is skipped, and a value that is too large clipped as
`strtoul()` does. -/
def fscanfLx (s : List Char) : Option (Option (BitVec 64)) :=
  let s := s.dropWhile isSpace
  if s = [] then none
  else
    let neg := s.head? = some '-'
    let s := if neg ∨ s.head? = some '+' then s.tail else s
    let s := if s.head? = some '0' ∧ (s.tail.head? = some 'x' ∨ s.tail.head? = some 'X') then '0' :: s.tail.tail else s
    let ds := s.takeWhile isXDigit
    if ds = [] then some none
    else if 2 ^ 64 ≤ numeral 16 ds then some (some (-1#64))
    else some (some (if neg then -BitVec.ofNat 64 (numeral 16 ds) else BitVec.ofNat 64 (numeral 16 ds)))

/-- Reads of these sizes through an open file, one after the other. -/
def readLoop (buf : List Char) (available : Nat) : List Nat → Nat → List Char
  | [], _ => []
  | size :: sizes, pos =>
    let (bytes, pos) := simpleReadFromBuffer size pos buf available
    bytes ++ readLoop buf available sizes pos

/-! ## Texts that survive

A text that fits the buffer is copied as it is, and read to its end by a reader who asks often
enough. -/

theorem not_mem_zero_of_isDigit {ds : List Char} (h : ∀ c ∈ ds, c.isDigit = true) : '\x00' ∉ ds := by
  intro hmem
  have := h _ hmem
  cases this

theorem cString_cons {c : Char} (hc : c ≠ '\x00') : cString (c :: s) = c :: cString s := by
  rw [cString, List.takeWhile_cons_of_pos (by simpa using hc)]
  rfl

theorem cString_append (hs : '\x00' ∉ s) : cString (s ++ '\x00' :: rest) = s := by
  have hpos : ∀ c ∈ s, decide (c ≠ '\x00') = true := by
    intro c hc
    apply decide_eq_true
    rintro rfl
    exact hs hc
  rw [cString, List.takeWhile_append_of_pos hpos, List.takeWhile_cons_of_neg (by decide), List.append_nil]

theorem cString_self (hs : '\x00' ∉ s) : cString s = s := by
  refine List.takeWhile_eq_self_iff.mpr fun c hc => decide_eq_true ?_
  rintro rfl
  exact hs hc

/-- A whole text written at the start of a buffer is the string in it, once it is terminated. -/
theorem cString_write (buf : List Char) (hs : '\x00' ∉ s) (hne : s ≠ []) (hfit : s.length ≤ available) :
    ∃ buf', simpleWriteToBuffer buf available 0 s = (s.length, buf', s.length) ∧
      cString (buf'.set s.length '\x00') = s := by
  have hpos : 0 < s.length := List.length_pos_iff.mpr hne
  have htake : s.take (available - 0) = s := List.take_of_length_le (by omega)
  refine ⟨s ++ buf.drop s.length, ?_, ?_⟩
  · rw [simpleWriteToBuffer, if_neg, htake]
    · simp
    · rintro (h | h)
      · omega
      · exact hne h
  · rw [List.set_append_right _ _ (Nat.le_refl _), Nat.sub_self]
    cases buf.drop s.length with
    | nil => rw [List.set_nil, List.append_nil, cString_self hs]
    | cons c cs => rw [List.set_cons_zero, cString_append hs]

section

variable {α : Type*} {scan : List Char → Option α}

theorem readNumber_map {β : Type*} (f : α → β) : readNumber (fun s => (scan s).map f) buf available pos s =
    ((readNumber scan buf available pos s).1.map f, (readNumber scan buf available pos s).2) := by
  unfold readNumber
  split
  · split
    · rfl
    · rfl

/-- Nothing is read behind the end of the buffer. -/
theorem readNumber_of_le (h : available ≤ pos) : readNumber scan buf available pos s = (none, pos) := by
  unfold readNumber simpleWriteToBuffer
  rw [if_pos (.inl h)]
  rfl

/-- At the start of a file, the number is read from the text that was written. -/
theorem readNumber_start (hs : '\x00' ∉ s) (hne : s ≠ []) (hfit : s.length ≤ available) :
    readNumber scan buf available 0 s = (scan s, s.length) := by
  obtain ⟨buf', hwrite, hstr⟩ := cString_write buf hs hne hfit
  have hcount : s.length ≠ 0 := fun h => hne (List.eq_nil_of_length_eq_zero h)
  unfold readNumber
  rw [hwrite]
  simp only [hstr, if_neg hcount]

/-- Further on, it is read from what the buffer held before. -/
theorem readNumber_later {c : Char} (hc : c ≠ '\x00') (hpos : 2 ≤ pos) (h : pos < available) (hne : s ≠ []) :
    ∃ rest, Stops rest ∧ (readNumber scan (c :: '\n' :: buf) available pos s).1 = scan (c :: rest) := by
  obtain ⟨k, rfl⟩ : ∃ k, pos = k + 2 := ⟨pos - 2, (Nat.sub_add_cancel hpos).symm⟩
  obtain ⟨m, hm⟩ : ∃ m, (s.take (available - (k + 2))).length = m + 1 := by
    have : 0 < s.length := List.length_pos_iff.mpr hne
    refine ⟨(s.take (available - (k + 2))).length - 1, ?_⟩
    rw [List.length_take]
    omega
  have hwrite : ∃ tail pos', simpleWriteToBuffer (c :: '\n' :: buf) available (k + 2) s =
      (m + 1, c :: '\n' :: tail, pos') := by
    unfold simpleWriteToBuffer
    rw [if_neg (not_or.mpr ⟨Nat.not_le.mpr h, hne⟩)]
    simp only [hm]
    exact ⟨_, _, rfl⟩
  obtain ⟨tail, pos', hwrite⟩ := hwrite
  refine ⟨cString (('\n' :: tail).set m '\x00'), ?_, ?_⟩
  · -- The terminator is in the place of the new line, or behind it.
    cases m with
    | zero => exact fun _ hnone => by cases hnone
    | succ m => exact stops_cons rfl
  · unfold readNumber
    rw [hwrite]
    show scan (cString (c :: ('\n' :: tail).set m '\x00')) = _
    rw [cString_cons hc]

end

/-- A text that fits is in the buffer, with the zero after it, and can be read from the start. -/
theorem simpleReadFromBuffer_snprintf {n : Nat} (hn : s.length < n) (hsize : s.length < size) :
    simpleReadFromBuffer size 0 (snprintf buf n s).1 (s.length + 1) = (s ++ ['\x00'], s.length + 1) := by
  have hbytes : ((s ++ '\x00' :: buf.drop (s.length + 1)).take (s.length + 1)).drop 0 = s ++ ['\x00'] := by
    rw [List.drop_zero, List.take_append, List.take_of_length_le (by omega), Nat.add_sub_cancel_left]
    rfl
  have hall : (s ++ ['\x00']).take size = s ++ ['\x00'] := by
    apply List.take_of_length_le
    rw [List.length_append, List.length_singleton]
    omega
  have hkept : s.take (n - 1) = s := List.take_of_length_le (by omega)
  unfold snprintf simpleReadFromBuffer
  rw [if_neg (by omega), hkept]
  simp only [hbytes, hall, List.length_append, List.length_singleton, Nat.zero_add]

theorem length_signedDecimal : (signedDecimal r).length ≤ 11 := by
  have habs : r.toInt.natAbs < 10 ^ 10 := by
    have h₁ := r.le_toInt
    have h₂ := r.toInt_lt
    omega
  have hlen : (Nat.toDigits 10 r.toInt.natAbs).length ≤ 10 :=
    (Nat.length_toDigits_le_iff (by decide) (by decide)).mpr habs
  unfold signedDecimal
  split
  · exact Nat.succ_le_succ hlen
  · exact Nat.le_succ_of_le hlen

theorem length_decimal : (decimal v).length ≤ 20 :=
  (Nat.length_toDigits_le_iff (by decide) (by decide)).mpr (Nat.lt_trans v.isLt (by decide))

theorem takeWhile_decimal {ds : List Char} {c : Char} (h : IsDecimal ds) (hc : c.isDigit = false) :
    (ds ++ c :: rest).takeWhile Char.isDigit = ds := by
  rw [List.takeWhile_append_of_pos h.digits, List.takeWhile_cons_of_neg (by simp [hc]), List.append_nil]

theorem dropWhile_isSpace_cons {c : Char} (hc : isSpace c = false) :
    (c :: s).dropWhile isSpace = c :: s := by
  rw [List.dropWhile_cons_of_neg (by simp [hc])]

/-- The digits at the start of a text, up to the first white space. -/
theorem takeWhile_numeral {ds : List Char} (h : IsDecimal ds) (hr : Stops rest) :
    (ds ++ rest).takeWhile Char.isDigit = ds := by
  cases rest with
  | nil =>
      rw [List.append_nil]
      exact List.takeWhile_eq_self_iff.mpr h.digits
  | cons c rest => exact takeWhile_decimal h (isSpace_not_isDigit (hr c rfl))

theorem IsDecimal.exists_cons {ds : List Char} (h : IsDecimal ds) : ∃ d ds', ds = d :: ds' ∧ d.isDigit = true := by
  obtain ⟨d, ds', rfl⟩ := List.exists_cons_of_ne_nil h.ne_nil
  exact ⟨d, ds', rfl, h.digits d List.mem_cons_self⟩

/-- `%llu` and `%lu` read the numeral at the start of a text. -/
theorem sscanfUll_numeral {ds : List Char} (h : IsDecimal ds) (hr : Stops rest) :
    sscanfUll (ds ++ rest) = some (BitVec.ofNat 64 (numeral 10 ds)) := by
  have htake : (ds ++ rest).takeWhile Char.isDigit = ds := takeWhile_numeral h hr
  have hskip : (ds ++ rest).dropWhile isSpace = ds ++ rest := by
    obtain ⟨d, ds', rfl, hd⟩ := h.exists_cons
    exact dropWhile_isSpace_cons (isDigit_not_isSpace hd)
  unfold sscanfUll
  rw [hskip, htake]
  exact if_neg h.ne_nil

/-- `%d` reads the numeral at the start of a text. -/
theorem sscanfD_numeral {ds : List Char} (h : IsDecimal ds) (hr : Stops rest) :
    sscanfD (ds ++ rest) = some (BitVec.ofNat 32 (numeral 10 ds)) := by
  have htake : (ds ++ rest).takeWhile Char.isDigit = ds := takeWhile_numeral h hr
  obtain ⟨d, ds', rfl, hd⟩ := h.exists_cons
  have hskip : (d :: ds' ++ rest).dropWhile isSpace = d :: ds' ++ rest :=
    dropWhile_isSpace_cons (isDigit_not_isSpace hd)
  have hpos : ¬(d :: ds' ++ rest).head? = some '-' := by
    intro hminus
    cases Option.some.inj hminus
    cases hd
  unfold sscanfD
  simp only [hskip, hpos, if_false, htake, reduceCtorEq]
  rfl

/-- The kernel reads back the number of a line. -/
theorem sscanfUll_decimal : sscanfUll (decimal v ++ ['\n']) = some v := by
  rw [sscanfUll_numeral isDecimal_decimal (stops_cons rfl), decimal, numeral_toDigits, BitVec.ofNat_toNat,
    BitVec.setWidth_eq]

theorem clipLong_toInt : clipLong r.toInt = r.toInt := by
  have h₁ := r.le_toInt
  have h₂ := r.toInt_lt
  unfold clipLong
  omega

/-- A client reads back the `int` that was printed. -/
theorem fscanfD_signedDecimal : fscanfD (signedDecimal r ++ '\x00' :: rest) = some (some r) := by
  have hdec : IsDecimal (Nat.toDigits 10 r.toInt.natAbs) := isDecimal_toDigits
  have htake : (Nat.toDigits 10 r.toInt.natAbs ++ '\x00' :: rest).takeWhile Char.isDigit =
      Nat.toDigits 10 r.toInt.natAbs := takeWhile_decimal hdec rfl
  unfold fscanfD signedDecimal
  by_cases hneg : r.toInt < 0
  · rw [if_pos hneg, List.cons_append, dropWhile_isSpace_cons rfl]
    have habs : -(r.toInt.natAbs : Int) = r.toInt := by omega
    simp only [List.head?_cons, List.tail_cons, true_or, if_true, htake, hdec.ne_nil, if_false,
      numeral_toDigits, habs, clipLong_toInt, BitVec.ofInt_toInt, reduceCtorEq]
  · rw [if_neg hneg]
    obtain ⟨d, ds, hds⟩ := List.exists_cons_of_ne_nil hdec.ne_nil
    have hd := hdec.digits d (hds ▸ List.mem_cons_self)
    have hminus : d ≠ '-' := by
      rintro rfl
      cases hd
    have hplus : d ≠ '+' := by
      rintro rfl
      cases hd
    have habs : (r.toInt.natAbs : Int) = r.toInt := by omega
    have hnum : numeral 10 (d :: ds) = r.toInt.natAbs := hds ▸ numeral_toDigits
    rw [hds] at htake ⊢
    rw [List.cons_append, dropWhile_isSpace_cons (isDigit_not_isSpace hd)]
    rw [List.cons_append] at htake
    simp only [List.head?_cons, Option.some.injEq, hminus, hplus, or_self, if_false, htake, hnum, habs,
      clipLong_toInt, BitVec.ofInt_toInt, reduceCtorEq]

theorem isXDigit_hexadecimal : ∀ c ∈ hexadecimal v, isXDigit c = true :=
  forall_mem_toDigits (by decide) (by decide)

/-- A client reads back the `unsigned long` that was printed. -/
theorem fscanfLx_hexadecimal : fscanfLx (hexadecimal v ++ '\x00' :: rest) = some (some v) := by
  have hdigits : ∀ c ∈ hexadecimal v, isXDigit c = true := isXDigit_hexadecimal
  have hne : hexadecimal v ≠ [] := Nat.toDigits_ne_nil
  have htake : (hexadecimal v ++ '\x00' :: rest).takeWhile isXDigit = hexadecimal v := by
    rw [List.takeWhile_append_of_pos hdigits, List.takeWhile_cons_of_neg (by decide), List.append_nil]
  have hvalue : numeral 16 (hexadecimal v) = v.toNat := numeral_toDigits_of_le (by decide) (by decide)
  -- White space, signs and the `x` of a prefix are not digits.
  have hother : ∀ c : Char, isXDigit c = false → ∀ d ∈ hexadecimal v, d ≠ c := by
    rintro c hc d hd rfl
    rw [hdigits d hd] at hc
    cases hc
  obtain ⟨d, ds, hds⟩ := List.exists_cons_of_ne_nil hne
  have hd : d ∈ hexadecimal v := hds ▸ List.mem_cons_self
  have hspace : isSpace d = false := by
    have : ∀ c ∈ hexadecimal v, isSpace c = false := forall_mem_toDigits (by decide) (by decide)
    exact this d hd
  have hx : ∀ c : Char, isXDigit c = false → c ≠ '\x00' → (ds ++ '\x00' :: rest).head? ≠ some c := by
    intro c hc hzero he
    cases ds with
    | nil => exact hzero (Option.some.inj he).symm
    | cons e ds => exact hother c hc e (hds ▸ by simp) (Option.some.inj he)
  rw [hds] at htake hvalue ⊢
  rw [List.cons_append] at htake ⊢
  unfold fscanfLx
  rw [dropWhile_isSpace_cons hspace]
  simp only [List.head?_cons, List.tail_cons, Option.some.injEq, hother '-' (by decide) d hd,
    hother '+' (by decide) d hd, hx 'x' (by decide) (by decide), hx 'X' (by decide) (by decide), or_self,
    and_false, if_false, htake, hvalue, Nat.not_le.mpr v.isLt, reduceCtorEq, BitVec.ofNat_toNat,
    BitVec.setWidth_eq]

theorem simpleReadFromBuffer_eq (size pos : Nat) (buf : List Char) (available : Nat) :
    simpleReadFromBuffer size pos buf available =
      (((buf.take available).drop pos).take size,
        pos + (((buf.take available).drop pos).take size).length) := by
  rw [simpleReadFromBuffer]
  split
  · next h =>
    have hnone : ((buf.take available).drop pos).take size = [] := by
      rcases h with h | rfl
      · rw [List.drop_eq_nil_of_le (Nat.le_trans (List.length_take_le _ _) h), List.take_nil]
      · rw [List.take_zero]
    rw [hnone]
    rfl
  · rfl

/-- Together they read what is there from the position on, as far as the sizes go. -/
theorem readLoop_eq (buf : List Char) (available : Nat) (sizes : List Nat) (pos : Nat) :
    readLoop buf available sizes pos = ((buf.take available).drop pos).take sizes.sum := by
  induction sizes generalizing pos with
  | nil => rfl
  | cons size sizes ih =>
      rw [readLoop, simpleReadFromBuffer_eq, List.sum_cons, List.take_add]
      simp only [ih]
      rw [← List.drop_drop]
      congr 2
      by_cases hlen : size ≤ ((buf.take available).drop pos).length
      · rw [List.length_take_of_le hlen]
      · have hend : ((buf.take available).drop pos).length ≤ size := Nat.le_of_not_le hlen
        rw [List.take_of_length_le hend, List.drop_length, List.drop_eq_nil_of_le hend]

end MmExper.Lib
