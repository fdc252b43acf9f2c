import MmExper.Pagestat.Smaps

/-!
# Reading the lines of a well-formed `smaps`

What each `sscanf` of `pagestat.c` makes of a header line and of a field line. The field loop's
`sscanf` tells the two apart by the first word only: the second word of a header line is no number, so
the unit of the line before stays where it is.
-/

namespace MmExper.Pagestat

open Lib

variable {h : Header} {f : Field} {ds w rest : List Char} {fmt : List Conv} {cap : Nat} {b : Junk}

/-! ## Words -/

theorem IsHex.isWord (hd : IsHex ds) : IsWord ds :=
  ⟨hd.ne_nil, fun c hc => (isHexDigit_ne (hd.digits c hc)).2.2⟩

theorem IsWord.append_cons {w' : List Char} {c : Char} (hw : IsWord w) (hc : isSpace c = false)
    (hw' : IsWord w') : IsWord (w ++ c :: w') := by
  refine ⟨by simp, fun d hd => ?_⟩
  rcases List.mem_append.mp hd with hd | hd
  · exact hw.chars d hd
  · rcases List.mem_cons.mp hd with rfl | hd
    · exact hc
    · exact hw'.chars d hd

theorem Header.WellFormed.range (hw : h.WellFormed) :
    IsWord h.range ∧ h.range.length < 255 ∧ isSmapHeaderField h.range = true := by
  have hfirst := hw.first.1.short
  have hlast := hw.last.1.short
  refine ⟨IsWord.append_cons hw.first.1.isWord rfl hw.last.1.isWord, ?_, ?_⟩
  · simp only [Header.range, List.length_append, List.length_cons]
    omega
  · have hne := hw.last.1.ne_nil
    have hmem := List.getLast_mem hne
    have hcolon := (isHexDigit_ne (hw.last.1.digits _ hmem)).2.1
    rw [isSmapHeaderField, Header.range, List.getLast?_append_of_ne_nil _ (by simp),
      List.getLast?_cons, List.getLast?_eq_getLast_of_ne_nil hne]
    simpa using hcolon

theorem isPerm_spec {c : Char} (hc : isPerm c = true) :
    isSpace c = false ∧ c.isDigit = false ∧ c ≠ '+' ∧ c ≠ '\n' := by
  simp only [isPerm, decide_eq_true_eq, List.mem_cons, List.not_mem_nil, or_false] at hc
  revert hc
  rintro (rfl | rfl | rfl | rfl | rfl | rfl) <;> decide

theorem Header.WellFormed.perms_word (hw : h.WellFormed) : IsWord h.perms := by
  refine ⟨fun e => ?_, fun c hc => (isPerm_spec (hw.perms.2 c hc)).1⟩
  have := hw.perms.1
  rw [e] at this
  cases this

theorem Header.WellFormed.dev_word (hw : h.WellFormed) : IsWord h.dev ∧ h.dev.length < 64 := by
  obtain ⟨major, minor, hmaj, hmin, hdev⟩ := hw.dev
  have h₁ := hmaj.short
  have h₂ := hmin.short
  rw [hdev]
  refine ⟨IsWord.append_cons hmaj.isWord rfl hmin.isWord, ?_⟩
  simp only [List.length_append, List.length_cons]
  omega

theorem isAlpha_spec {c : Char} (hc : c.isAlpha = true) :
    isSpace c = false ∧ c.isDigit = false ∧ c ≠ '+' ∧ c ≠ '-' ∧ c ≠ '\n' := by
  have h65 : 65 ≤ c.toNat := by
    rcases Bool.or_eq_true_iff.mp hc with hupper | hlower
    · exact (of_decide_eq_true hupper).1
    · have h97 : 97 ≤ c.toNat := of_decide_eq_true (Bool.and_eq_true_iff.mp hlower).1
      omega
  refine ⟨?_, ?_, ?_, ?_, ?_⟩
  · simp only [isSpace, Bool.or_eq_false_iff, Bool.and_eq_false_iff, decide_eq_false_iff_not,
      Char.le_def, UInt32.le_iff_toNat_le]
    refine ⟨?_, .inr ?_⟩
    · rintro rfl
      cases hc
    · change ¬c.toNat ≤ 13
      omega
  · simp only [Char.isDigit, Bool.and_eq_false_iff, decide_eq_false_iff_not, UInt32.le_iff_toNat_le]
    change _ ∨ ¬c.toNat ≤ 57
    omega
  all_goals
    rintro rfl
    cases hc

/-! ## Fields

A field line begins with its key. A number follows, with or without a unit, or mnemonics. -/

theorem IsKey.spec (hk : IsKey w) : IsWord w ∧ w.length < 255 ∧ isSmapHeaderField w = false :=
  ⟨hk.word, hk.short, by simp [isSmapHeaderField, hk.colon]⟩

theorem Field.WellFormed.key (hf : f.WellFormed) :
    IsWord f.key ∧ f.key.length < 255 ∧ isSmapHeaderField f.key = false := by
  cases f with
  | kb key pad value => exact hf.1.spec
  | plain key pad value => exact hf.1.spec
  | vmFlags flags =>
      rw [Field.key]
      exact ⟨⟨by decide, forall_mem_of_all (by decide)⟩, by decide, by decide⟩

/-- A space comes after the key. -/
theorem Field.rest_stops (f : Field) : Stops (f.rest ++ ['\n']) := by
  cases f with
  | kb key pad value => exact stops_cons rfl
  | plain key pad value => exact stops_cons rfl
  | vmFlags flags => exact stops_cons rfl

/-- The first word of a field line is its key. -/
theorem Field.WellFormed.sscanf_key (hf : f.WellFormed) (fmt : List Conv) :
    sscanf (.str 255 :: fmt) f.line = (sscanf fmt (f.rest ++ ['\n'])).map (.str f.key :: ·) := by
  obtain ⟨hw, hlen, -⟩ := hf.key
  rw [Field.line, sscanf_word hw f.rest_stops, if_pos hlen]

/-- The buffers after a field line: the value of the line, and the unit stays unless the line has one. -/
theorem Field.WellFormed.scanField (hf : f.WellFormed) (b : Junk) :
    ∃ size unit, Pagestat.scanField b f.line = some { b with key := f.key, size := size, unit := unit } ∧
      (unit = if f.isKb then "kB".toList else b.unit) ∧ ∀ value ∈ f.value, size = ulongVal value := by
  have hkey := hf.sscanf_key [.ulong, .str 16]
  rw [Pagestat.scanField, hkey]
  cases f with
  | kb key pad value =>
      have hunit : sscanf [.str 16] [' ', 'k', 'B', '\n'] = some [.str ['k', 'B']] := rfl
      have hval : sscanf [.ulong, .str 16] ((Field.kb key pad value).rest ++ ['\n']) =
          some [.ulong (ulongVal value), .str ['k', 'B']] := by
        have hstop : Stops [' ', 'k', 'B', '\n'] := stops_cons rfl
        rw [Field.rest, List.append_assoc, List.append_assoc]
        exact (sscanf_ulong (isGap_replicate (pad + 1)) hf.2 hstop).trans (by rw [hunit]; rfl)
      rw [hval]
      refine ⟨_, _, rfl, rfl, ?_⟩
      rintro _ ⟨⟩
      rfl
  -- The unit is the buffer's, which holds that of a field before.
  | plain key pad value =>
      have hval : sscanf [.ulong, .str 16] ((Field.plain key pad value).rest ++ ['\n']) =
          some [.ulong (ulongVal value)] := by
        have hstop : Stops ['\n'] := stops_cons rfl
        rw [Field.rest, List.append_assoc]
        exact (sscanf_ulong (isGap_replicate (pad + 1)) hf.2 hstop).trans rfl
      rw [hval]
      refine ⟨_, _, rfl, rfl, ?_⟩
      rintro _ ⟨⟩
      rfl
  -- A mnemonic begins with a letter, so no number is read and the buffers stay.
  | vmFlags flags =>
      obtain ⟨⟨c, d⟩, fs, rfl⟩ := List.exists_cons_of_ne_nil hf.1
      obtain ⟨hspace, hdigit, hplus, hminus, -⟩ := isAlpha_spec (hf.2 (c, d) List.mem_cons_self).1
      have hval : sscanf [.ulong, .str 16] ((Field.vmFlags ((c, d) :: fs)).rest ++ ['\n']) = some [] := by
        rw [Field.rest, List.flatMap_cons]
        exact sscanf_ulong_fail (g := [' ']) (c := c) (isGap_replicate 1) hspace hdigit hplus
          fun e => absurd e hminus
      rw [hval]
      exact ⟨b.size, b.unit, rfl, rfl, fun value hvalue => by cases hvalue⟩

/-- One turn of the loop over the fields, as long as there is a unit and the line is accepted. -/
theorem Field.WellFormed.turn (hf : f.WellFormed) (ms : PageStat) {b : Junk}
    (hunit : f.isKb = true ∨ b.unit = "kB".toList) :
    ∃ b', b'.unit = "kB".toList ∧ b'.key = f.key ∧ (∀ value ∈ f.value, b'.size = ulongVal value) ∧
      ∀ ms', Pagestat.setField ms b' f.line = some ms' → ∀ fp,
        getSmapOtherFields ms b (f.line :: fp) = getSmapOtherFields ms' b' fp := by
  obtain ⟨size, unit, hscan, hu, hsize⟩ := hf.scanField b
  have hkb : unit = "kB".toList := by
    rw [hu]
    split
    · rfl
    · next hno => exact hunit.resolve_left hno
  refine ⟨{ b with key := f.key, size := size, unit := unit }, hkb, rfl, hsize, fun ms' hset fp => ?_⟩
  rw [getSmapOtherFields, hscan]
  simp only [if_neg (not_not.mpr hkb), hf.key.2.2, hset, Bool.false_eq_true, if_false]

/-! ## Headers

For the conversions of the field loop a header line is one word and a failure: after the range come
the permissions, which are no number. It leaves the other buffers alone. -/

def Header.nameText (h : Header) : List Char := List.replicate h.pad ' ' ++ (h.name ++ ['\n'])

def Header.afterRange (h : Header) : List Char :=
  ' ' :: (h.perms ++ (' ' :: (h.offset ++ (' ' :: (h.dev ++ (' ' :: (h.inode ++ h.nameText)))))))

theorem Header.line_eq (h : Header) : h.line = h.range ++ h.afterRange := by
  simp only [Header.line, Header.text, Header.afterRange, Header.nameText, List.append_assoc,
    List.cons_append]

theorem Header.afterRange_stops (h : Header) : Stops h.afterRange := stops_cons rfl

/-- The first word of a header line is the range. -/
theorem Header.WellFormed.sscanf_range (hw : h.WellFormed) (fmt : List Conv) :
    sscanf (.str 255 :: fmt) h.line = (sscanf fmt h.afterRange).map (.str h.range :: ·) := by
  obtain ⟨hword, hlen, -⟩ := hw.range
  rw [h.line_eq, sscanf_word hword h.afterRange_stops, if_pos hlen]

/-- The permissions are no number. -/
theorem Header.WellFormed.sscanf_perms (hw : h.WellFormed) (fmt : List Conv) :
    sscanf (.ulong :: fmt) h.afterRange = some [] := by
  obtain ⟨hlen, hperms⟩ := hw.perms
  rw [Header.afterRange]
  match hp : h.perms with
  | [] => simp [hp] at hlen
  | [_] => simp [hp] at hlen
  | c :: d :: ps =>
      obtain ⟨hspace, hdigit, hplus, -⟩ := isPerm_spec (hperms c (by simp [hp]))
      obtain ⟨-, hdigit', -⟩ := isPerm_spec (hperms d (by simp [hp]))
      refine sscanf_ulong_fail (g := [' ']) (c := c) (isGap_replicate 1) hspace hdigit hplus fun _ => ?_
      rintro e ⟨⟩
      exact hdigit'

/-- The field loop sees a header line as a key, and its unit is the one of the line before. -/
theorem Header.WellFormed.scanField (hw : h.WellFormed) (b : Junk) :
    Pagestat.scanField b h.line = some { b with key := h.range } := by
  rw [Pagestat.scanField, hw.sscanf_range, hw.sscanf_perms]
  rfl

/-- The loop over the fields ends at a header line, and has read it. -/
theorem Header.WellFormed.getSmapOtherFields (hw : h.WellFormed) (ms : PageStat)
    (hunit : b.unit = "kB".toList) (fp : File) :
    Pagestat.getSmapOtherFields ms b (h.line :: fp) = some (some ms, fp) := by
  rw [Pagestat.getSmapOtherFields, hw.scanField]
  simp only [if_neg (not_not.mpr hunit), hw.range.2.2, if_true]

theorem Header.WellFormed.nameText_stops (hw : h.WellFormed) : Stops h.nameText := by
  cases hp : h.pad with
  | succ n =>
      rw [Header.nameText, hp]
      exact stops_cons rfl
  | zero =>
      cases hn : h.name with
      | nil =>
          rw [Header.nameText, hp, hn]
          exact stops_cons rfl
      | cons c cs =>
          have := (hw.name_word c (by simp [hn])).2
          omega

/-- The last conversion of the header line. -/
theorem Header.WellFormed.sscanf_name (hw : h.WellFormed) :
    sscanf [.str 255] h.nameText = if h.NameFits then
      some (if h.name = [] then [] else [.str (h.name.takeWhile (!isSpace ·))]) else none := by
  by_cases hn : h.name = []
  · -- No name: the conversion runs to the end of the line.
    have hgap : IsGap h.nameText := by
      rw [Header.nameText, hn]
      intro c hc
      rcases List.mem_append.mp hc with hc | hc
      · exact isGap_replicate _ c hc
      · rw [List.mem_singleton.mp hc]
        rfl
    have hfits : h.NameFits := by
      rw [Header.NameFits, hn]
      decide
    rw [sscanf_str_end hgap, if_pos hfits, if_pos hn]
  · obtain ⟨c, cs, hc⟩ := List.exists_cons_of_ne_nil hn
    have hspace := (hw.name_word c (by simp [hc])).1
    -- The first word of the name, up to a space or the end of the line.
    have hword : IsWord (h.name.takeWhile (!isSpace ·)) := by
      refine ⟨by simp [hc, hspace], fun d hd => ?_⟩
      simpa using List.mem_takeWhile_imp hd
    have hstops : Stops (h.name.dropWhile (!isSpace ·) ++ ['\n']) := by
      cases hd : h.name.dropWhile (!isSpace ·) with
      | nil => exact stops_cons rfl
      | cons d ds =>
          have hmem := List.head_dropWhile_not (p := (!isSpace ·)) (l := h.name) (by simp [hd])
          simp only [hd, List.head_cons] at hmem
          exact stops_cons (by simpa using hmem)
    rw [Header.nameText, ← List.takeWhile_append_dropWhile (p := (!isSpace ·)) (l := h.name),
      List.append_assoc, sscanf_str (isGap_replicate _) hword hstops]
    rw [List.takeWhile_append_dropWhile, if_neg hn]
    rfl

/-- The values in a header line: the last one is the first word of the name, if there is a name. -/
theorem Header.WellFormed.sscanf_line (hw : h.WellFormed) :
    sscanf [.str 255, .str 5, .str 64, .str 64, .ulong, .str 255] h.line = if h.NameFits then
      some (.str h.range :: .str h.perms :: .str h.offset :: .str h.dev :: .ulong (ulongVal h.inode) ::
        if h.name = [] then [] else [.str (h.name.takeWhile (!isSpace ·))]) else none := by
  have hperms : h.perms.length < 5 := by
    have := hw.perms.1
    omega
  have hoffset : h.offset.length < 64 := by
    have := hw.offset.short
    omega
  obtain ⟨hdev, hdevlen⟩ := hw.dev_word
  have hinode : sscanf [.ulong, .str 255] (' ' :: (h.inode ++ h.nameText)) =
      (sscanf [.str 255] h.nameText).map (.ulong (ulongVal h.inode) :: ·) :=
    sscanf_ulong (g := [' ']) (isGap_replicate 1) hw.inode hw.nameText_stops
  rw [hw.sscanf_range, Header.afterRange, sscanf_space_word hw.perms_word (stops_cons rfl),
    if_pos hperms, sscanf_space_word hw.offset.isWord (stops_cons rfl), if_pos hoffset,
    sscanf_space_word hdev (stops_cons rfl), if_pos hdevlen, hinode, hw.sscanf_name]
  by_cases hf : h.NameFits
  · simp only [if_pos hf, Option.map_some]
  · simp only [if_neg hf, Option.map_none]

/-- What `get_smap_header_fields` reads, unless the name is too long for its buffer. -/
theorem Header.WellFormed.getSmapHeaderFields (hw : h.WellFormed) (ms : PageStat) :
    Pagestat.getSmapHeaderFields ms h.line = if h.NameFits then
      some (some { ms with
        offset := parseHex h.offset
        perms := h.perms
        name := if h.name = [] then ms.name else some (h.name.takeWhile (!isSpace ·)) })
      else none := by
  rw [Pagestat.getSmapHeaderFields, hw.sscanf_line]
  by_cases hf : h.NameFits
  · by_cases hn : h.name = []
    · simp only [if_pos hf, if_pos hn]
    · simp only [if_pos hf, if_neg hn]
  · simp only [if_neg hf]

/-! ## Setting a field

A field line leaves the addresses of the record alone, and its size unless the key is that of the
size. -/

/-- After each flag comes a space. -/
theorem flatMap_flags {flags : List (Char × Char)} (hne : flags ≠ []) :
    (flags.flatMap fun f => [f.1, f.2, ' ']) = mnemonics flags ++ [' '] := by
  induction flags with
  | nil => exact absurd rfl hne
  | cons f fs ih =>
      cases fs with
      | nil => rfl
      | cons g gs =>
          rw [List.flatMap_cons, ih (by simp)]
          simp [mnemonics, List.intercalate]

theorem length_mnemonics {flags : List (Char × Char)} (hne : flags ≠ []) :
    (mnemonics flags).length + 1 = 3 * flags.length := by
  have hlen := congrArg List.length (flatMap_flags hne)
  rw [List.length_flatMap, List.length_append, List.length_singleton] at hlen
  rw [← hlen]
  simp [Nat.mul_comm]

/-- The loop over `count` steps over the space and the newline, and stops at the last letter. -/
theorem flagsCount_letter (text : List Char) {d : Char} (hlen : 10 ≤ text.length)
    (hspace : isSpace d = false) :
    flagsCount (text ++ [d, ' ', '\n']) (text.length - 10 + 3) = text.length - 10 + 1 := by
  have hget : ∀ i, (text ++ [d, ' ', '\n']).getD (10 + (text.length - 10 + i)) '\n' =
      [d, ' ', '\n'].getD i '\n' := by
    intro i
    have hi : 10 + (text.length - 10 + i) - text.length = i := by omega
    rw [List.getD_eq_getElem?_getD, List.getElem?_append_right (by omega), hi,
      ← List.getD_eq_getElem?_getD]
  have hd : d ≠ '\n' ∧ d ≠ ' ' := by
    constructor <;>
      rintro rfl <;>
      cases hspace
  have hletter := hget 0
  rw [Nat.add_zero] at hletter
  rw [flagsCount, hget 2, flagsCount, hget 1, flagsCount, hletter]
  simp only [List.getD_cons_succ, List.getD_cons_zero]
  rw [if_neg (by simp), if_neg (by simp), if_pos hd]

/-- The flags are read without the space before them and the one after them. -/
theorem Field.WellFormed.flagsText {flags : List (Char × Char)} (hf : (Field.vmFlags flags).WellFormed) :
    Pagestat.flagsText (Field.vmFlags flags).line = some (mnemonics flags) := by
  have hlen := length_mnemonics hf.1
  have hline : (Field.vmFlags flags).line = flagsKey ++ [' '] ++ (mnemonics flags ++ [' ', '\n']) := by
    rw [Field.line, Field.key, Field.rest, flatMap_flags hf.1]
    simp
  obtain ⟨init, f, rfl⟩ := (List.eq_nil_or_concat' flags).resolve_left hf.1
  obtain ⟨hspace, -⟩ := isAlpha_spec (hf.2 f (by simp)).2
  -- Everything before the second letter of the last flag.
  have hsplit : (Field.vmFlags (init ++ [f])).line =
      (flagsKey ++ ' ' :: (init.flatMap fun f => [f.1, f.2, ' ']) ++ [f.1]) ++ [f.2, ' ', '\n'] := by
    rw [Field.line, Field.key, Field.rest, List.flatMap_append]
    simp
  have hinit : (init.flatMap fun f => [f.1, f.2, ' ']).length = 3 * init.length := by
    rw [List.length_flatMap]
    simp [Nat.mul_comm]
  have hcount : flagsCount (Field.vmFlags (init ++ [f])).line
      ((Field.vmFlags (init ++ [f])).line.length - 10) = 3 * init.length + 1 := by
    have hstop := flagsCount_letter (flagsKey ++ ' ' :: (init.flatMap fun f => [f.1, f.2, ' ']) ++ [f.1])
      (by simp [flagsKey]) hspace
    rw [← hsplit] at hstop
    have hlength : (flagsKey ++ ' ' :: (init.flatMap fun f => [f.1, f.2, ' ']) ++ [f.1]).length =
        3 * init.length + 10 := by
      simp [flagsKey, hinit]
    have hline : (Field.vmFlags (init ++ [f])).line.length = 3 * init.length + 13 := by
      rw [hsplit, List.length_append, hlength]
      rfl
    rw [hlength, Nat.add_sub_cancel] at hstop
    rw [hline]
    exact hstop
  rw [Pagestat.flagsText, hcount]
  rw [List.length_append, List.length_singleton] at hlen
  have hdrop : (Field.vmFlags (init ++ [f])).line.drop 9 = mnemonics (init ++ [f]) ++ [' ', '\n'] := by
    rw [hline]
    rfl
  rw [hdrop]
  simp only [Nat.add_eq_zero_iff, one_ne_zero, and_false, if_false]
  rw [List.take_left' (by omega)]

/-- `vm_size` after these fields: the last size that is given. -/
def sizeAfter (size : Word) (fs : List Field) : Word :=
  fs.foldl (fun size f => if f.key = "Size:".toList then (f.value.map ulongVal).getD size else size) size

/-- There is a record with the addresses of the one before and the size that these fields give. -/
def Reads (fs : List Field) (ms : PageStat) (r : Option PageStat) : Prop :=
  ∃ ms', r = some ms' ∧ ms'.vmaStart = ms.vmaStart ∧ ms'.vmaEnd = ms.vmaEnd ∧
    ms'.vmSize = sizeAfter ms.vmSize fs

/-- A field line is accepted, and leaves the addresses alone. -/
theorem Field.WellFormed.setField (hf : f.WellFormed) (ms : PageStat) {b : Junk} (hb : b.key = f.key)
    (hsize : ∀ value ∈ f.value, b.size = ulongVal value) : Reads [f] ms (Pagestat.setField ms b f.line) := by
  have hflags : b.key = "VmFlags:".toList → ∃ text, Pagestat.flagsText f.line = some text := by
    intro e
    rw [hb] at e
    cases f with
    | kb key pad value => exact absurd e hf.1.notFlags
    | plain key pad value => exact absurd e hf.1.notFlags
    | vmFlags flags => exact ⟨_, hf.flagsText⟩
  rw [Pagestat.setField]
  refine iteInduction (motive := Reads [f] ms) (fun hkey => ⟨_, rfl, rfl, rfl, ?_⟩) fun hkey => ?_
  · rw [hb] at hkey
    show b.size = if f.key = "Size:".toList then _ else _
    rw [if_pos hkey]
    cases f with
    | kb key pad value => exact hsize value rfl
    | plain key pad value => exact hsize value rfl
    | vmFlags flags => cases hkey
  · rw [hb] at hkey
    have hkept : ms.vmSize = sizeAfter ms.vmSize [f] := (if_neg hkey).symm
    -- The other keys with a number.
    iterate 6 refine iteInduction (motive := Reads [f] ms) (fun _ => ⟨_, rfl, rfl, rfl, hkept⟩) fun _ => ?_
    refine iteInduction (motive := Reads [f] ms) (fun hkey => ?_) fun _ => ⟨_, rfl, rfl, rfl, hkept⟩
    obtain ⟨text, ht⟩ := hflags hkey
    rw [ht]
    exact ⟨_, rfl, rfl, rfl, hkept⟩

/-! ## Lines -/

theorem isWord_noNewline (hw : IsWord w) : '\n' ∉ w := fun hm => by
  have := hw.chars _ hm
  cases this

theorem Header.WellFormed.isLine (hw : h.WellFormed) : IsLine h.line := by
  refine ⟨h.text, ?_, rfl⟩
  have hspaces : '\n' ∉ List.replicate h.pad ' ' := fun hm => by
    cases List.eq_of_mem_replicate hm
  simp only [Header.text, List.mem_append, List.mem_cons, not_or]
  exact ⟨isWord_noNewline hw.range.1, by decide, isWord_noNewline hw.perms_word, by decide,
    isWord_noNewline hw.offset.isWord, by decide, isWord_noNewline hw.dev_word.1, by decide,
    isWord_noNewline hw.inode.isWord, hspaces, hw.name_line⟩

theorem Field.WellFormed.isLine (hf : f.WellFormed) : IsLine f.line := by
  refine ⟨f.key ++ f.rest, ?_, by rw [Field.line, List.append_assoc]⟩
  have hspaces : ∀ n, '\n' ∉ List.replicate n ' ' := fun n hm => by
    cases List.eq_of_mem_replicate hm
  rw [List.mem_append, not_or]
  refine ⟨isWord_noNewline hf.key.1, ?_⟩
  cases f with
  | kb key pad value =>
      simp only [Field.rest, List.mem_append, not_or]
      exact ⟨hspaces _, isWord_noNewline hf.2.isWord, by decide⟩
  | plain key pad value =>
      simp only [Field.rest, List.mem_append, not_or]
      exact ⟨hspaces _, isWord_noNewline hf.2.isWord⟩
  | vmFlags flags =>
      simp only [Field.rest, List.mem_cons, List.mem_flatMap, List.not_mem_nil, or_false, not_or,
        not_exists, not_and]
      refine ⟨by decide, fun g hg => ⟨?_, ?_, by decide⟩⟩
      · exact (isAlpha_spec (hf.2 g hg).1).2.2.2.2.symm
      · exact (isAlpha_spec (hf.2 g hg).2).2.2.2.2.symm

/-! ## Skipping field lines

The search for a header line looks at the last character of the first word. -/

/-- A line whose first word is a key, one that ends in a colon. -/
structure IsFieldLine (l : List Char) : Prop where
  line : IsLine l
  key : ∃ g key rest, l = g ++ (key ++ rest) ∧ IsGap g ∧ IsWord key ∧ key.length < 255 ∧
    key.getLast? = some ':' ∧ Stops rest

theorem Field.WellFormed.isFieldLine (hf : f.WellFormed) : IsFieldLine f.line := by
  obtain ⟨hword, hlen, hcolon⟩ := hf.key
  refine ⟨hf.isLine, [], f.key, f.rest ++ ['\n'], rfl, by simp [IsGap], hword, hlen, ?_, f.rest_stops⟩
  simpa [isSmapHeaderField] using hcolon

/-- The search for a header line goes on to the next line. -/
theorem IsFieldLine.findHeader {l : List Char} (hl : IsFieldLine l) (vaddr : Word) (buf : List Char) :
    ∃ key, ∀ fp, Pagestat.findHeader vaddr buf (l :: fp) = Pagestat.findHeader vaddr key fp := by
  obtain ⟨g, key, rest, rfl, hg, hword, hlen, hcolon, hstops⟩ := hl.key
  refine ⟨key, fun fp => ?_⟩
  have hno : isSmapHeaderField key = false := by simp [isSmapHeaderField, hcolon]
  rw [Pagestat.findHeader, sscanf_str hg hword hstops, if_pos hlen]
  simp [sscanf, hno]

theorem findHeader_fieldLines {ls : List (List Char)} (hls : ∀ l ∈ ls, IsFieldLine l) (vaddr : Word)
    (buf : List Char) : ∃ buf', ∀ fp, findHeader vaddr buf (ls ++ fp) = findHeader vaddr buf' fp := by
  induction ls generalizing buf with
  | nil => exact ⟨buf, fun _ => rfl⟩
  | cons l ls ih =>
      obtain ⟨key, hkey⟩ := (hls l List.mem_cons_self).findHeader vaddr buf
      obtain ⟨buf', hfind⟩ := ih (fun m hm => hls m (List.mem_cons_of_mem _ hm)) key
      exact ⟨buf', fun fp => (hkey _).trans (hfind fp)⟩

/-- A header line is taken if the address is in its range. -/
theorem Header.WellFormed.findHeader_line (hw : h.WellFormed) (vaddr : Word) (buf : List Char) (fp : File) :
    Pagestat.findHeader vaddr buf (h.line :: fp) =
      if vaddr = invalidValue ∨ vaddr ≥ h.addresses.1 ∧ vaddr < h.addresses.2 then
        some (some (h.addresses.1, h.addresses.2, h.line), fp)
      else Pagestat.findHeader vaddr h.first fp := by
  have hfirst : IsAddress h.first := ⟨hw.first.1.ne_nil, hw.first.1.digits, hw.first.2⟩
  have hlast : IsAddress h.last := ⟨hw.last.1.ne_nil, hw.last.1.digits, hw.last.2⟩
  rw [Pagestat.findHeader, hw.sscanf_range]
  simp only [sscanf, Option.map_some, hw.range.2.2, Bool.not_true, Bool.false_eq_true, if_false]
  rw [Header.range, extractAddressRange_printed hfirst hlast]
  rfl

end MmExper.Pagestat
