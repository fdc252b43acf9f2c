import Mathlib.Data.List.Induction
import MmExper.Lib.Scan

/-!
# Writing numbers with `printf`

The numerals that C's formatted output writes for integers, and what the conversions that read numbers
make of them.
-/

namespace MmExper.Lib

variable {b n : Nat} {c : Char} {v : BitVec 64}

/-- `%lu` and `%llu`. -/
def decimal (v : BitVec 64) : List Char := Nat.toDigits 10 v.toNat

/-- `%lx`. -/
def hexadecimal (v : BitVec 64) : List Char := Nat.toDigits 16 v.toNat

/-- `%016lx`. -/
def hexadecimal16 (v : BitVec 64) : List Char := (hexadecimal v).leftpad 16 '0'

/-- `%0*lx` with this width. -/
def hexadecimalTo (width : Nat) (v : BitVec 64) : List Char := (hexadecimal v).leftpad width '0'

/-! ## Digits -/

/-- What holds of every digit of the base holds of the digits of a numeral. -/
theorem forall_mem_toDigits {p : Char → Prop} (hb : 1 < b) (h : ∀ d < b, p (Nat.digitChar d)) :
    ∀ c ∈ Nat.toDigits b n, p c := by
  induction n using Nat.strongRecOn with
  | ind n ih =>
      intro c hc
      rw [Nat.toDigits_eq_if hb] at hc
      split at hc
      · next hn =>
        rw [List.mem_singleton.mp hc]
        exact h n hn
      · next hn =>
        rcases List.mem_append.mp hc with hc | hc
        · exact ih (n / b) (Nat.div_lt_self (by omega) hb) c hc
        · rw [List.mem_singleton.mp hc]
          exact h (n % b) (Nat.mod_lt n (by omega))

theorem not_mem_toDigits (hb : 1 < b) (hc : ∀ d < b, Nat.digitChar d ≠ c) : c ∉ Nat.toDigits b n :=
  fun hmem => forall_mem_toDigits (p := (· ≠ c)) hb hc c hmem rfl

theorem newline_not_mem_decimal : '\n' ∉ decimal v :=
  not_mem_toDigits (by decide) (by decide)

theorem newline_not_mem_hexadecimal : '\n' ∉ hexadecimal v :=
  not_mem_toDigits (by decide) (by decide)

theorem newline_not_mem_hexadecimal16 : '\n' ∉ hexadecimal16 v := by
  rw [hexadecimal16, List.leftpad, List.mem_append, not_or]
  refine ⟨fun h => ?_, newline_not_mem_hexadecimal⟩
  exact absurd (List.eq_of_mem_replicate h) (by decide)

/-! ## Reading them back

A printed numeral has the value it was printed from, in any base up to 16. -/

theorem isDecimal_toDigits : IsDecimal (Nat.toDigits 10 n) :=
  ⟨Nat.toDigits_ne_nil, fun _ hc => Nat.isDigit_of_mem_toDigits (by decide) (by decide) hc⟩

theorem digitVal_digitChar {d : Nat} (h : d < 16) : digitVal (Nat.digitChar d) = d := by
  revert d
  decide

theorem numeral_append_singleton (ds : List Char) (c : Char) :
    numeral b (ds ++ [c]) = b * numeral b ds + digitVal c := by
  rw [numeral, List.foldl_append]
  rfl

/-- The digits have the value that was written. -/
theorem numeral_toDigits_of_le (hb : 1 < b) (hb' : b ≤ 16) : numeral b (Nat.toDigits b n) = n := by
  induction n using Nat.strongRecOn with
  | ind n ih =>
      rw [Nat.toDigits_eq_if hb]
      split
      · next hn =>
        show b * 0 + digitVal (Nat.digitChar n) = n
        rw [digitVal_digitChar (by omega), Nat.mul_zero, Nat.zero_add]
      · next hn =>
        have hmod : n % b < b := Nat.mod_lt n (by omega)
        rw [numeral_append_singleton, ih (n / b) (Nat.div_lt_self (by omega) hb),
          digitVal_digitChar (by omega)]
        exact Nat.div_add_mod n b

theorem numeral_toDigits : numeral 10 (Nat.toDigits 10 n) = n :=
  numeral_toDigits_of_le (by decide) (by decide)

theorem digitVal_lt_of_isDigit (hc : c.isDigit = true) : digitVal c < 10 := by
  have hle : c.toNat ≤ '9'.toNat := (Char.isDigit_iff_toNat.mp hc).2
  rw [digitVal, if_pos hc]
  show c.toNat - 48 < 10
  have : '9'.toNat = 57 := rfl
  omega

/-- A numeral is below the power of ten that its length says. -/
theorem numeral_lt {ds : List Char} (h : ∀ c ∈ ds, c.isDigit = true) : numeral 10 ds < 10 ^ ds.length := by
  induction ds using List.reverseRecOn with
  | nil => exact Nat.one_pos
  | append_singleton ds d ih =>
      have hds : numeral 10 ds < 10 ^ ds.length := ih fun c hc => h c (List.mem_append_left _ hc)
      have hd : digitVal d < 10 := digitVal_lt_of_isDigit (h d (List.mem_append_right _ List.mem_cons_self))
      rw [numeral_append_singleton, List.length_append, List.length_singleton, Nat.pow_succ]
      omega

/-- Zeros in front do not change a numeral. -/
theorem numeral_replicate_append (k : Nat) (ds : List Char) :
    numeral b (List.replicate k '0' ++ ds) = numeral b ds := by
  induction k with
  | zero => rfl
  | succ k ih =>
      rw [← ih, List.replicate_succ, List.cons_append, numeral, List.foldl_cons]
      rfl

theorem numeral_hexadecimalTo {width : Nat} : numeral 16 (hexadecimalTo width v) = v.toNat := by
  rw [hexadecimalTo, List.leftpad, numeral_replicate_append, hexadecimal,
    numeral_toDigits_of_le (by decide) (by decide)]

theorem length_hexadecimal : (hexadecimal v).length ≤ 16 :=
  (Nat.length_toDigits_le_iff (by decide) (by decide)).mpr v.isLt

theorem length_hexadecimalTo {width : Nat} (hw : width ≤ 16) : (hexadecimalTo width v).length ≤ 16 := by
  have hlen : (hexadecimal v).length ≤ 16 := length_hexadecimal
  rw [hexadecimalTo, List.length_leftpad]
  exact Nat.max_le.mpr ⟨hw, hlen⟩

theorem hexadecimalTo_ne_nil {width : Nat} : hexadecimalTo width v ≠ [] := by
  intro h
  have hnil : hexadecimal v = [] := (List.append_eq_nil_iff.mp h).2
  exact Nat.toDigits_ne_nil hnil

theorem isDecimal_decimal : IsDecimal (decimal v) := isDecimal_toDigits

end MmExper.Lib
