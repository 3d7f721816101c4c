import WasmMachine.Proofs.Floating.Rounding
import WasmMachine.Proofs.Json.Scanning

/-!
# Natural numbers in JSON

A natural number that is written in decimal is read back as itself. The only thing that could
prevent it is the float that the number must have: below `2 ^ 64` all digits are taken, so that the
power of ten is one, and the product with it is far from the greatest float.

* `wholeForm_decimal`: the decimal digits of a number, which start with a zero only if they are one.
* `overflows_of_lt`: such a number has a float.
* `natBelow_form`: it is read.
-/

namespace WasmMachine.Json

open Floating

/-! ## Decimal digits -/

/-- The digits of a number. -/
def decimal (n : Nat) : List Char := (toString n).toList

theorem decimal_eq (n : Nat) : decimal n = Nat.toDigits 10 n := by
  rw [decimal, Nat.toString_eq_ofList_toDigits, String.toList_ofList]

theorem digitsValue_decimal (n : Nat) : digitsValue (decimal n) = n := by
  rw [decimal_eq]
  exact Nat.ofDigitChars_toDigits (by decide) (by decide)

theorem head?_toDigits {n : Nat} (h : (Nat.toDigits 10 n).head? = some '0') : n = 0 := by
  induction n using Nat.strongRecOn with
  | ind n ih =>
    rcases Nat.lt_or_ge n 10 with hLess | hMore
    · rw [Nat.toDigits_of_lt_base hLess] at h
      exact Nat.digitChar_eq_zero.1 (Option.some.inj h)
    · have hFirst : (Nat.toDigits 10 (n / 10)).head? = some '0' := by
        rwa [Nat.toDigits_of_base_le (by decide) hMore,
          List.head?_append_of_ne_nil _ Nat.toDigits_ne_nil] at h
      have hZero := ih (n / 10) (by omega) hFirst
      omega

theorem wholeForm_decimal (n : Nat) : WholeForm (decimal n) := by
  rw [decimal_eq]
  refine ⟨⟨Nat.toDigits_ne_nil, fun c hMem => ?_⟩, fun hZero => ?_⟩
  · exact Nat.isDigit_of_mem_toDigits (by decide) (by decide) hMem
  · rw [head?_toDigits hZero, Nat.toDigits_zero]

/-! ## Leading digits -/

theorem le_ofDigitChars (ds : List Char) (n : Nat) : n ≤ Nat.ofDigitChars 10 ds n := by
  induction ds generalizing n with
  | nil => exact Nat.le_refl n
  | cons c ds ih =>
    calc n ≤ 10 * n + (c.toNat - '0'.toNat) := by omega
      _ ≤ Nat.ofDigitChars 10 ds (10 * n + (c.toNat - '0'.toNat)) := ih _

/-- All digits of a number of 64 bits are taken. -/
theorem takeDigits_of_lt {ds : List Char} {n : Nat}
    (h : Nat.ofDigitChars 10 ds n < UInt64.size) :
    takeDigits n ds = (Nat.ofDigitChars 10 ds n, []) := by
  induction ds generalizing n with
  | nil => rfl
  | cons c ds ih =>
    have hNext : 10 * n + (c.toNat - '0'.toNat) < UInt64.size :=
      Nat.lt_of_le_of_lt (le_ofDigitChars ds _) h
    exact (if_pos hNext).trans (ih h)

/-! ## The float of a number -/

theorem decode_one : decode .f64 (ofInt .f64 1) = .finite false (2 ^ 52) (-52) := by
  decide +kernel

/-- A number of 64 bits is not rounded to an infinity, and the product of a float with one is that
float. -/
theorem mul_one_ne_infinity {v : Nat} (h : v < UInt64.size) :
    mul .f64 (ofInt .f64 v) (ofInt .f64 1) ≠ infinity .f64 false := by
  have hValue : (((v : ℤ).natAbs : Nat) : ℚ) / (1 : Nat) ≤ 2 ^ (64 : ℤ) := by
    rw [Nat.cast_one, div_one, Int.natAbs_natCast]
    exact_mod_cast h.le
  obtain ⟨hFinite, -⟩ := magnitudeNumber_roundRatio_le (t := .f64) (decide ((v : ℤ) < 0))
    Nat.one_pos hValue (by decide) (by decide)
  obtain ⟨mantissa, exponent, hDecode, hBits, hExponent, hMagnitude⟩ :=
    @decode_of_lt .f64 (ofInt .f64 v) hFinite
  have hProduct : mul .f64 (ofInt .f64 v) (ofInt .f64 1) =
      roundScaled .f64 (isNegative .f64 (ofInt .f64 v) != false) (mantissa * 2 ^ 52)
        (exponent + -52) := by
    rw [mul, hDecode, decode_one]
  have hScaled : (((mantissa * 2 ^ 52 : Nat) : ℚ) * 2 ^ (exponent + -52)) =
      mantissa * 2 ^ exponent := by
    rw [zpow_add₀ two_ne_zero]
    push_cast
    ring
  have hBound : (((mantissa * 2 ^ 52 : Nat) : ℚ) * 2 ^ (exponent + -52)) <
      2 ^ overflowExponent .f64 := by
    rw [hScaled, hMagnitude, ← magnitudeNumber_infinityMagnitude]
    exact strictMono_magnitudeNumber .f64 hFinite
  have hNumber := isNumber_roundScaled (t := .f64) (isNegative .f64 (ofInt .f64 v) != false) hScaled
    hBits hExponent hBound
  rw [hProduct]
  intro hInfinite
  have hMagnitude := hNumber.1
  rw [hInfinite] at hMagnitude
  exact absurd hMagnitude (by decide +kernel)

/-- A number that is written as its digits. -/
def plainNumeral (n : Nat) : Numeral where
  negative := false
  whole := decimal n
  fraction := []
  isFloat := false
  exponent := 0

/-- Below `2 ^ 64` every number has a float. -/
theorem overflows_of_lt {n : Nat} (h : n < UInt64.size) : (plainNumeral n).overflows = false := by
  have hValue : Nat.ofDigitChars 10 (decimal n) 0 = n := digitsValue_decimal n
  have hTaken : takeDigits 0 (decimal n) = (n, []) := by
    rw [takeDigits_of_lt (hValue.symm ▸ h), hValue]
  have hScaled : (plainNumeral n).scaled = (n, 0) := by
    simp only [Numeral.scaled, plainNumeral, hTaken, takeDigits]
    rfl
  rw [Numeral.overflows, hScaled]
  dsimp only
  split
  · rfl
  · exact decide_eq_false (mul_one_ne_infinity h)

/-! ## Reading -/

variable {blank rest : List Char}

/-- Behind white space, a decimal number starts with a digit. -/
theorem exists_skipSpace_decimal (n : Nat) (hBlank : Blank blank) (rest : List Char) :
    ∃ d ds, d.isDigit = true ∧ decimal n ++ rest = d :: ds ∧
      skipSpace (blank ++ decimal n ++ rest) = d :: ds := by
  have hWhole := wholeForm_decimal n
  obtain ⟨d, ds, hDigits⟩ := List.exists_cons_of_ne_nil hWhole.1.1
  have hDigit : d.isDigit = true := hWhole.1.2 d (hDigits ▸ List.mem_cons_self)
  have hText : decimal n ++ rest = d :: (ds ++ rest) := by rw [hDigits, List.cons_append]
  refine ⟨d, ds ++ rest, hDigit, hText, ?_⟩
  rw [List.append_assoc, skipSpace_append hBlank, hText]
  exact skipSpace_cons (starts_of_isDigit hDigit).1 _

/-- A decimal number is read. -/
theorem natBelow_form {n bound : Nat} (hBound : n < bound) (hSize : n < UInt64.size)
    (hBlank : Blank blank) (hRest : Ends rest) :
    natBelow bound (blank ++ decimal n ++ rest) = .ok (n, rest) := by
  have hRead : wantedNumeral (decimal n ++ rest) = .ok (plainNumeral n, rest) := by
    have hFloat : ¬ (plainNumeral n).overflows = true := by
      rw [overflows_of_lt hSize]
      exact Bool.false_ne_true
    rw [wantedNumeral, bind_of_ok (numeral_digits false (wholeForm_decimal n) hRest)]
    exact if_neg hFloat
  have hNat : (plainNumeral n).nat? = some n := congrArg some (digitsValue_decimal n)
  obtain ⟨d, ds, hDigit, hText, hStart⟩ := exists_skipSpace_decimal n hBlank rest
  rw [hText] at hRead
  rw [natBelow, hStart]
  dsimp only
  rw [if_pos (.inr hDigit), bind_of_ok hRead]
  dsimp only
  rw [hNat]
  exact if_pos hBound

end WasmMachine.Json
