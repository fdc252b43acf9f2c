import MmExper.Lib.Scan
import MmExper.Bitwise

/-!
# Address ranges

The first word of a header line of `maps` and `smaps` is an address range, two hexadecimal numbers
with a dash in between. `pagestat.c` and `read-pageflags.c` read it with the same two functions.
-/

namespace MmExper.Pagestat

open Lib

def invalidValue : Word := -1#64

/-- The loop of `parse_hex()`, with the number read so far. -/
def parseHexFrom (ret : Word) : List Char → Word
  | [] => ret
  | chr :: str =>
    let ret := ret <<< 4
    if 'a' ≤ chr ∧ chr ≤ 'f' then
      parseHexFrom (ret + BitVec.ofNat 64 (10 + chr.toNat - 'a'.toNat)) str
    else if 'A' ≤ chr ∧ chr ≤ 'F' then
      parseHexFrom (ret + BitVec.ofNat 64 (10 + chr.toNat - 'A'.toNat)) str
    else if '0' ≤ chr ∧ chr ≤ '9' then
      parseHexFrom (ret + BitVec.ofNat 64 (chr.toNat - '0'.toNat)) str
    else invalidValue

def parseHex (str : List Char) : Word := parseHexFrom 0#64 str

/-- `extract_address_range()`: the string it leaves behind, cut at the dash, and the range. -/
def extractAddressRange (str : List Char) : List Char × Option (Word × Word) :=
  match str.dropWhile (· ≠ '-') with
  | [] => (str, none)
  | _ :: rest =>
    let str := str.takeWhile (· ≠ '-')
    let first := parseHex str
    if first = invalidValue then (str, none)
    else
      let last := parseHex rest
      if last = invalidValue then (str, none) else (str, some (first, last))

/-- `extract_address_range()` with its out parameters: whether it succeeds, the string it leaves behind, and
what `*from_ptr` and `*to_ptr` hold then, when they held `range` before. -/
def extractAddressRangeInto (str : List Char) (range : Word × Word) : Bool × List Char × Word × Word :=
  match str.dropWhile (· ≠ '-') with
  | [] => (false, str, range)
  | _ :: rest =>
    let str := str.takeWhile (· ≠ '-')
    let first := parseHex str
    if first = invalidValue then (false, str, range)
    else
      let last := parseHex rest
      if last = invalidValue then (false, str, range) else (true, str, first, last)

/-! ## Ranges as they are printed

A numeral is read as it is, whatever the case of its digits and the number of zeros in front, if its
value is not all ones, which is how a failure is reported. -/

def isHexDigit (c : Char) : Bool :=
  '0' ≤ c && c ≤ '9' || 'a' ≤ c && c ≤ 'f' || 'A' ≤ c && c ≤ 'F'

/-- The numeral of an address: one that is not `INVALID_VALUE`. -/
structure IsAddress (ds : List Char) : Prop where
  ne_nil : ds ≠ []
  digits : ∀ c ∈ ds, isHexDigit c = true
  lt : numeral 16 ds < 2 ^ 64 - 1

variable {ds ds' : List Char}

/-- The three blocks of hexadecimal digits, as code points. -/
theorem isHexDigit_iff {c : Char} : isHexDigit c = true ↔
    (48 ≤ c.toNat ∧ c.toNat ≤ 57 ∨ 97 ≤ c.toNat ∧ c.toNat ≤ 102) ∨ 65 ≤ c.toNat ∧ c.toNat ≤ 70 := by
  simp only [isHexDigit, Bool.or_eq_true, Bool.and_eq_true, decide_eq_true_eq, Char.le_def,
    UInt32.le_iff_toNat_le]
  rfl

theorem isHexDigit_ne {c : Char} (h : isHexDigit c = true) :
    c ≠ '-' ∧ c ≠ ':' ∧ isSpace c = false := by
  have hc := isHexDigit_iff.mp h
  refine ⟨?_, ?_, ?_⟩
  · rintro rfl
    cases h
  · rintro rfl
    cases h
  · simp only [isSpace, Bool.or_eq_false_iff, Bool.and_eq_false_iff, decide_eq_false_iff_not,
      Char.le_def, UInt32.le_iff_toNat_le]
    refine ⟨?_, .inr ?_⟩
    · rintro rfl
      cases h
    · change ¬c.toNat ≤ 13
      omega

/-- One step of the loop is one digit of the numeral. -/
theorem parseHexFrom_cons {c : Char} (hc : isHexDigit c = true) (ret : Word) (str : List Char) :
    parseHexFrom ret (c :: str) = parseHexFrom (16#64 * ret + BitVec.ofNat 64 (digitVal c)) str := by
  have hshift : ret <<< 4 = 16#64 * ret := by
    apply BitVec.eq_of_toNat_eq
    rw [BitVec.toNat_shiftLeft, BitVec.toNat_mul, Nat.shiftLeft_eq, Nat.mul_comm]
    rfl
  have hblock := isHexDigit_iff.mp hc
  have ha : 'a' ≤ c ↔ 97 ≤ c.toNat := UInt32.le_iff_toNat_le
  have hf : c ≤ 'f' ↔ c.toNat ≤ 102 := UInt32.le_iff_toNat_le
  have hA : 'A' ≤ c ↔ 65 ≤ c.toNat := UInt32.le_iff_toNat_le
  have hF : c ≤ 'F' ↔ c.toNat ≤ 70 := UInt32.le_iff_toNat_le
  have h0 : '0' ≤ c ↔ 48 ≤ c.toNat := UInt32.le_iff_toNat_le
  have h9 : c ≤ '9' ↔ c.toNat ≤ 57 := UInt32.le_iff_toNat_le
  have hdigit : c.isDigit = true ↔ 48 ≤ c.toNat ∧ c.toNat ≤ 57 := by
    rw [Char.isDigit, Bool.and_eq_true, decide_eq_true_eq, decide_eq_true_eq]
    exact and_congr h0 h9
  rw [parseHexFrom, hshift, digitVal]
  simp only [ha, hf, hA, hF, h0, h9, hdigit]
  rcases hblock with (hb | hb) | hb
  · rw [if_neg (by omega), if_neg (by omega), if_pos hb, if_pos hb]
  · rw [if_pos hb, if_neg (by omega), if_pos hb.1]
    congr 3
    change 10 + c.toNat - 97 = c.toNat - 97 + 10
    omega
  · rw [if_neg (by omega), if_pos hb, if_neg (by omega), if_neg (by omega)]
    congr 3
    change 10 + c.toNat - 65 = c.toNat - 65 + 10
    omega

theorem parseHexFrom_numeral (h : ∀ c ∈ ds, isHexDigit c = true) (n : Nat) :
    parseHexFrom (BitVec.ofNat 64 n) ds =
      BitVec.ofNat 64 (ds.foldl (fun n d => 16 * n + digitVal d) n) := by
  induction ds generalizing n with
  | nil => rfl
  | cons c ds ih =>
      rw [parseHexFrom_cons (h c List.mem_cons_self), List.foldl_cons,
        ← ih fun d hd => h d (List.mem_cons_of_mem _ hd)]
      congr 1
      rw [BitVec.ofNat_add, BitVec.ofNat_mul]

/-- `parse_hex` reads a numeral, modulo `2 ^ 64`. -/
theorem parseHex_numeral (h : ∀ c ∈ ds, isHexDigit c = true) :
    parseHex ds = BitVec.ofNat 64 (numeral 16 ds) :=
  parseHexFrom_numeral h 0

theorem IsAddress.parseHex_ne (h : IsAddress ds) : parseHex ds ≠ invalidValue := by
  have hlt := h.lt
  rw [parseHex_numeral h.digits]
  intro e
  have := congrArg BitVec.toNat e
  rw [BitVec.toNat_ofNat, Nat.mod_eq_of_lt (by omega)] at this
  have hinv : invalidValue.toNat = 2 ^ 64 - 1 := rfl
  omega

/-- A string with a dash is cut at the first one. -/
theorem extractAddressRange_append (h : '-' ∉ ds) :
    extractAddressRange (ds ++ '-' :: ds') =
      if parseHex ds = invalidValue then (ds, none)
      else if parseHex ds' = invalidValue then (ds, none)
      else (ds, some (parseHex ds, parseHex ds')) := by
  have hne : ∀ c ∈ ds, decide (c ≠ '-') = true := fun c hc =>
    decide_eq_true (fun e => h (e ▸ hc))
  have hdrop : (ds ++ '-' :: ds').dropWhile (· ≠ '-') = '-' :: ds' := by
    rw [List.dropWhile_append_of_pos hne]
    simp
  have htake : (ds ++ '-' :: ds').takeWhile (· ≠ '-') = ds := by
    rw [List.takeWhile_append_of_pos hne]
    simp
  simp only [extractAddressRange, hdrop, htake]

theorem dash_notMem_of_digits (h : ∀ c ∈ ds, isHexDigit c = true) : '-' ∉ ds :=
  fun hmem => (isHexDigit_ne (h _ hmem)).1 rfl

/-- The range that was printed is extracted. -/
theorem extractAddressRange_printed (h : IsAddress ds) (h' : IsAddress ds') :
    extractAddressRange (ds ++ '-' :: ds') =
      (ds, some (BitVec.ofNat 64 (numeral 16 ds), BitVec.ofNat 64 (numeral 16 ds'))) := by
  rw [extractAddressRange_append (dash_notMem_of_digits h.digits), if_neg h.parseHex_ne,
    if_neg h'.parseHex_ne, parseHex_numeral h.digits, parseHex_numeral h'.digits]

/-! ## Out parameters

What the caller's variables hold after a call that fails. -/

section

variable {str : List Char} {range : Word × Word}

/-- The variables are stored to exactly when there is a range. -/
theorem extractAddressRangeInto_eq (str : List Char) (range : Word × Word) :
    extractAddressRangeInto str range =
      ((extractAddressRange str).2.isSome, (extractAddressRange str).1,
        (extractAddressRange str).2.getD range) := by
  unfold extractAddressRangeInto extractAddressRange
  split
  · rfl
  · simp only []
    split
    · rfl
    · split
      · rfl
      · rfl

theorem extractAddressRangeInto_failed (h : (extractAddressRangeInto str range).1 = false) :
    (extractAddressRangeInto str range).2.2 = range := by
  rw [extractAddressRangeInto_eq] at h ⊢
  show (extractAddressRange str).2.getD range = range
  rw [Option.isSome_eq_false_iff.mp h |> Option.isNone_iff_eq_none.mp]
  rfl

/-- A numeral of this address, in either case and with any number of zeros in front. -/
structure Spells (ds : List Char) (v : Word) : Prop where
  ne_nil : ds ≠ []
  digits : ∀ c ∈ ds, isHexDigit c = true
  value : numeral 16 ds = v.toNat

theorem Spells.isAddress {v : Word} (h : Spells ds v) (hv : v ≠ invalidValue) : IsAddress ds := by
  refine ⟨h.ne_nil, h.digits, ?_⟩
  have hinv : invalidValue.toNat = 2 ^ 64 - 1 := rfl
  have hne : v.toNat ≠ invalidValue.toNat := fun e => hv (BitVec.eq_of_toNat_eq e)
  rw [h.value]
  omega

theorem Spells.ofNat_numeral {v : Word} (h : Spells ds v) : BitVec.ofNat 64 (numeral 16 ds) = v := by
  rw [h.value, BitVec.ofNat_toNat, BitVec.setWidth_eq]

/-- Both addresses are stored. -/
theorem extractAddressRangeInto_printed {first last : Word} (h : Spells ds first) (h' : Spells ds' last)
    (hfirst : first ≠ invalidValue) (hlast : last ≠ invalidValue) (range : Word × Word) :
    extractAddressRangeInto (ds ++ '-' :: ds') range = (true, ds, first, last) := by
  rw [extractAddressRangeInto_eq, extractAddressRange_printed (h.isAddress hfirst) (h'.isAddress hlast),
    h.ofNat_numeral, h'.ofNat_numeral]
  rfl

end

/-! ## What is accepted

A bound is any string of hexadecimal digits, the empty one included, and it is taken modulo `2 ^
64`. -/

section

variable {str : List Char}

/-- What `parse_hex()` does not tell from an address: hexadecimal digits, possibly none, whose value is not
`INVALID_VALUE` modulo `2 ^ 64`. -/
structure IsParsed (ds : List Char) : Prop where
  digits : ∀ c ∈ ds, isHexDigit c = true
  ne_invalid : numeral 16 ds % 2 ^ 64 ≠ 2 ^ 64 - 1

/-- A text without digits, and a numeral that does not fit in 64 bits. -/
def Malformed (ds : List Char) : Prop := ds = [] ∨ 2 ^ 64 ≤ numeral 16 ds

/-- The loop gives up at the first character that is no digit. -/
theorem parseHexFrom_invalid {c : Char} (hc : isHexDigit c = false) (ret : Word) (str : List Char) :
    parseHexFrom ret (c :: str) = invalidValue := by
  simp only [isHexDigit, Bool.or_eq_false_iff, Bool.and_eq_false_iff, decide_eq_false_iff_not,
    ← Decidable.not_and_iff_or_not] at hc
  rw [parseHexFrom, if_neg hc.1.2, if_neg hc.2, if_neg hc.1.1]

theorem digits_of_parseHexFrom_ne {ret : Word} (h : parseHexFrom ret str ≠ invalidValue) :
    ∀ c ∈ str, isHexDigit c = true := by
  induction str generalizing ret with
  | nil =>
      intro c hc
      cases hc
  | cons c str ih =>
      cases hc : isHexDigit c with
      | false => exact absurd (parseHexFrom_invalid hc ret str) h
      | true =>
          rw [parseHexFrom_cons hc] at h
          exact List.forall_mem_cons.mpr ⟨hc, ih h⟩

/-- `parse_hex` reports an error for everything else. -/
theorem parseHex_ne_iff : parseHex str ≠ invalidValue ↔ IsParsed str := by
  have hinv : ∀ n, BitVec.ofNat 64 n = invalidValue ↔ n % 2 ^ 64 = 2 ^ 64 - 1 := by
    intro n
    rw [← BitVec.toNat_inj, BitVec.toNat_ofNat]
    rfl
  constructor
  · intro h
    have hdigits := digits_of_parseHexFrom_ne h
    rw [parseHex_numeral hdigits, ne_eq, hinv] at h
    exact ⟨hdigits, h⟩
  · intro h
    rw [parseHex_numeral h.digits, ne_eq, hinv]
    exact h.ne_invalid

/-- The value that is read is right unless the text is malformed. -/
theorem IsParsed.spells_iff (h : IsParsed ds) :
    Spells ds (parseHex ds) ↔ ¬Malformed ds := by
  have hval : (parseHex ds).toNat = numeral 16 ds % 2 ^ 64 := by
    rw [parseHex_numeral h.digits, BitVec.toNat_ofNat]
  rw [Malformed, not_or, Nat.not_le]
  constructor
  · intro hs
    refine ⟨hs.ne_nil, ?_⟩
    rw [hs.value]
    exact (parseHex ds).isLt
  · intro ⟨hne, hlt⟩
    refine ⟨hne, h.digits, ?_⟩
    rw [hval, Nat.mod_eq_of_lt hlt]

/-- The strings that are accepted, and what is read from them. -/
theorem extractAddressRange_eq_some_iff {r : Word × Word} :
    (extractAddressRange str).2 = some r ↔
      ∃ ds ds', str = ds ++ '-' :: ds' ∧ IsParsed ds ∧ IsParsed ds' ∧ r = (parseHex ds, parseHex ds') := by
  constructor
  · intro h
    cases hdrop : str.dropWhile (· ≠ '-') with
    | nil =>
        simp only [extractAddressRange, hdrop] at h
        cases h
    | cons c rest =>
        have hdash : c = '-' := by
          have hhead := List.head?_dropWhile_not (· ≠ '-') str
          rw [hdrop] at hhead
          simpa using hhead
        have hstr : str.takeWhile (· ≠ '-') ++ '-' :: rest = str := by
          have := List.takeWhile_append_dropWhile (p := (· ≠ '-')) (l := str)
          rwa [hdrop, hdash] at this
        simp only [extractAddressRange, hdrop] at h
        split at h
        · cases h
        · next hfirst =>
          split at h
          · cases h
          · next hlast =>
            exact ⟨_, rest, hstr.symm, parseHex_ne_iff.mp hfirst, parseHex_ne_iff.mp hlast,
              (Option.some.inj h).symm⟩
  · intro ⟨ds, ds', hstr, hds, hds', hr⟩
    rw [hstr, hr, extractAddressRange_append (dash_notMem_of_digits hds.digits),
      if_neg (parseHex_ne_iff.mpr hds), if_neg (parseHex_ne_iff.mpr hds')]

/-- What is accepted is two numerals with a dash in between, and their values are stored. -/
def Sound (str : List Char) (out : Bool × List Char × Word × Word) : Prop :=
  out.1 = true → ∃ ds ds', str = ds ++ '-' :: ds' ∧ Spells ds out.2.2.1 ∧ Spells ds' out.2.2.2

/-- A malformed text before or behind the dash, and nothing that `parse_hex()` reports. -/
def Overlooked (str : List Char) : Prop :=
  ∃ ds ds', str = ds ++ '-' :: ds' ∧ IsParsed ds ∧ IsParsed ds' ∧ (Malformed ds ∨ Malformed ds')

theorem sound_extractAddressRangeInto_iff (str : List Char) (range : Word × Word) :
    Sound str (extractAddressRangeInto str range) ↔ ¬Overlooked str := by
  rw [extractAddressRangeInto_eq]
  constructor
  · intro h ⟨ds, ds', hstr, hds, hds', hbad⟩
    have hsome := extractAddressRange_eq_some_iff.mpr ⟨ds, ds', hstr, hds, hds', rfl⟩
    rw [hsome] at h
    obtain ⟨es, es', hes, hfirst, hlast⟩ := h rfl
    -- There is no dash but this one.
    have hdash := dash_notMem_of_digits hds.digits
    have hdash' := dash_notMem_of_digits hds'.digits
    obtain ⟨rfl, -, rfl⟩ := (List.append_cons_inj_of_notMem hdash hdash').mp (hstr.symm.trans hes)
    rcases hbad with hbad | hbad
    · exact hds.spells_iff.mp hfirst hbad
    · exact hds'.spells_iff.mp hlast hbad
  · intro h hsome
    obtain ⟨r, hr⟩ := Option.isSome_iff_exists.mp hsome
    obtain ⟨ds, ds', hstr, hds, hds', rfl⟩ := extractAddressRange_eq_some_iff.mp hr
    rw [hr]
    refine ⟨ds, ds', hstr, hds.spells_iff.mpr ?_, hds'.spells_iff.mpr ?_⟩
    · intro hbad
      exact h ⟨ds, ds', hstr, hds, hds', .inl hbad⟩
    · intro hbad
      exact h ⟨ds, ds', hstr, hds, hds', .inr hbad⟩

end

end MmExper.Pagestat
