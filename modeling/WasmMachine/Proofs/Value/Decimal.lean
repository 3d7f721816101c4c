import Mathlib.Data.Int.ModEq
import WasmMachine.Proofs.Json.Numbers
import WasmMachine.Value.Text

/-!
# Integers in decimal

An integer argument is read in two attempts, in the signed range of its type and then in the
unsigned one. The attempts differ in the signs that they allow, and each one has its own way with a
single character. Together they accept exactly the decimal texts of the integers from the least
signed one up to the greatest unsigned one, with any number of leading zeros, and an accepted
integer is reduced to the width of the type.

* `IntegerForm`: the decimal texts of an integer.
* `parseMagnitude_eq_ok_iff`: digits are read where the number that they denote is within the bound.
* `parseSigned_eq_ok_iff`, `parseUnsigned_eq_ok_iff`: the two attempts.
* `Value.parse_integer`: both together, and the text of a value is read back.
-/

namespace WasmMachine

open Json (Digits decimal decimal_eq le_ofDigitChars wholeForm_decimal)

/-! ## Decimal texts -/

/-- The decimal texts of an integer: one digit or more, after a sign or none. -/
inductive IntegerForm : List Char → Int → Prop where
  | plain {ds : List Char} (hDigits : Digits ds) : IntegerForm ds (Nat.ofDigitChars 10 ds 0)
  | plus {ds : List Char} (hDigits : Digits ds) :
    IntegerForm ('+' :: ds) (Nat.ofDigitChars 10 ds 0)
  | minus {ds : List Char} (hDigits : Digits ds) :
    IntegerForm ('-' :: ds) (-(Nat.ofDigitChars 10 ds 0 : Nat))

namespace IntegerForm

/-- A sign is no digit. -/
theorem not_digits {c : Char} (hSign : c = '+' ∨ c = '-') (ds : List Char) :
    ¬ Digits (c :: ds) := by
  intro hDigits
  have hDigit := hDigits.2 c List.mem_cons_self
  rcases hSign with rfl | rfl <;> exact absurd hDigit (by decide)

variable {text ds : List Char} {n n' : Int}

theorem plus_iff : IntegerForm ('+' :: ds) n ↔ Digits ds ∧ n = Nat.ofDigitChars 10 ds 0 := by
  constructor
  · intro h
    cases h with
    | plain hDigits => exact (not_digits (.inl rfl) _ hDigits).elim
    | plus hDigits => exact ⟨hDigits, rfl⟩
  · rintro ⟨hDigits, rfl⟩
    exact .plus hDigits

theorem minus_iff :
    IntegerForm ('-' :: ds) n ↔ Digits ds ∧ n = -(Nat.ofDigitChars 10 ds 0 : Nat) := by
  constructor
  · intro h
    cases h with
    | plain hDigits => exact (not_digits (.inr rfl) _ hDigits).elim
    | minus hDigits => exact ⟨hDigits, rfl⟩
  · rintro ⟨hDigits, rfl⟩
    exact .minus hDigits

/-- Without a sign there are only digits. -/
theorem plain_iff (hPlus : ∀ ds, text ≠ '+' :: ds) (hMinus : ∀ ds, text ≠ '-' :: ds) :
    IntegerForm text n ↔ Digits text ∧ n = Nat.ofDigitChars 10 text 0 := by
  constructor
  · intro h
    cases h with
    | plain hDigits => exact ⟨hDigits, rfl⟩
    | plus _ => exact absurd rfl (hPlus _)
    | minus _ => exact absurd rfl (hMinus _)
  · rintro ⟨hDigits, rfl⟩
    exact .plain hDigits

theorem ne_nil (h : IntegerForm text n) : text ≠ [] := by
  cases h with
  | plain hDigits => exact hDigits.1
  | plus _ => exact List.cons_ne_nil _ _
  | minus _ => exact List.cons_ne_nil _ _

/-- A single character is a digit. -/
theorem singleton_iff {c : Char} :
    IntegerForm [c] n ↔ c.isDigit = true ∧ n = (c.toNat - '0'.toNat : Nat) := by
  have hEmpty : ¬ Digits [] := fun h => h.1 rfl
  by_cases hPlus : c = '+'
  · subst hPlus
    simp [plus_iff, hEmpty]
  · by_cases hMinus : c = '-'
    · subst hMinus
      simp [minus_iff, hEmpty]
    · rw [plain_iff (by simp [hPlus]) (by simp [hMinus])]
      simp [Digits, Nat.ofDigitChars]

/-- A text denotes one integer. -/
theorem unique (h : IntegerForm text n) (h' : IntegerForm text n') : n = n' := by
  cases h with
  | plain hDigits =>
    cases h' with
    | plain _ => rfl
    | plus _ => exact (not_digits (.inl rfl) _ hDigits).elim
    | minus _ => exact (not_digits (.inr rfl) _ hDigits).elim
  | plus _ => exact (plus_iff.1 h').2.symm
  | minus _ => exact (minus_iff.1 h').2.symm

/-- An integer is written in one of its decimal texts. -/
theorem toList_toString (n : Int) : IntegerForm (toString n).toList n := by
  have hDigits : ∀ k : Nat, Digits (toString k).toList ∧
      Nat.ofDigitChars 10 (toString k).toList 0 = k := fun k =>
    ⟨(wholeForm_decimal k).1, Json.digitsValue_decimal k⟩
  cases n with
  | ofNat k =>
    obtain ⟨hForm, hValue⟩ := hDigits k
    have hPlain := IntegerForm.plain hForm
    rwa [hValue] at hPlain
  | negSucc k =>
    obtain ⟨hForm, hValue⟩ := hDigits (k + 1)
    have hMinus := IntegerForm.minus hForm
    rw [hValue] at hMinus
    have hText : (toString (Int.negSucc k)).toList = '-' :: (toString (k + 1)).toList := by
      change ("-" ++ toString (k + 1)).toList = _
      rw [String.toList_append]
      rfl
    rw [hText]
    exact hMinus

end IntegerForm

/-! ## The two attempts -/

section

variable {text : List Char}

/-- Digits are read where the number that they denote is within the bound. Whether the bound is
passed early or late makes no difference, since more digits do not make a number smaller. -/
theorem parseMagnitude_eq_ok_iff {overflow : IntParseError} {bound n m : Nat} (hn : n ≤ bound) :
    parseMagnitude overflow bound text n = .ok m ↔
      (∀ c ∈ text, c.isDigit = true) ∧ m = Nat.ofDigitChars 10 text n ∧ m ≤ bound := by
  induction text generalizing n with
  | nil =>
    constructor
    · intro h
      cases h
      exact ⟨nofun, rfl, hn⟩
    · rintro ⟨-, rfl, -⟩
      rfl
  | cons c rest ih =>
    rw [parseMagnitude]
    by_cases hDigit : c.isDigit = true
    · have hValue : Nat.ofDigitChars 10 (c :: rest) n =
          Nat.ofDigitChars 10 rest (10 * n + (c.toNat - '0'.toNat)) := rfl
      simp only [hDigit, Bool.not_true, Bool.false_eq_true, if_false, hValue]
      by_cases hPassed : bound < 10 * n + (c.toNat - '0'.toNat)
      · rw [if_pos hPassed]
        have hGrows := le_ofDigitChars rest (10 * n + (c.toNat - '0'.toNat))
        constructor
        · intro h
          cases h
        · rintro ⟨-, rfl, hBound⟩
          omega
      · rw [if_neg hPassed, ih (Nat.le_of_not_lt hPassed), List.forall_mem_cons]
        simp only [hDigit, true_and]
    · simp only [hDigit, Bool.not_false, if_true]
      constructor
      · intro h
        cases h
      · rintro ⟨hDigits, -⟩
        exact absurd (hDigits c List.mem_cons_self) hDigit

theorem map_eq_ok_iff {ε α β : Type} {x : Except ε α} {f : α → β} {b : β} :
    x.map f = .ok b ↔ ∃ a, x = .ok a ∧ f a = b := by
  cases x <;> simp [Except.map]

/-- Reading digits from the start. -/
theorem parseMagnitude_zero {overflow : IntParseError} {bound m : Nat} (hText : text ≠ []) :
    parseMagnitude overflow bound text 0 = .ok m ↔
      Digits text ∧ m = Nat.ofDigitChars 10 text 0 ∧ m ≤ bound := by
  rw [parseMagnitude_eq_ok_iff (Nat.zero_le bound), Digits]
  simp only [hText, ne_eq, not_false_iff, true_and]

/-- Every digit is in the signed range, so a single one needs no test against a bound. -/
theorem digit_lt (t : IntType) {c : Char} (hDigit : c.isDigit = true) :
    c.toNat - '0'.toNat < 2 ^ (t.width - 1) := by
  have hTen : 10 ≤ 2 ^ (t.width - 1) := by cases t <;> decide
  have hNine : c.toNat ≤ '9'.toNat := by
    simp only [Char.isDigit, Bool.and_eq_true, decide_eq_true_eq] at hDigit
    exact hDigit.2
  have hTwo : '9'.toNat - '0'.toNat = 9 := by decide
  omega

/-- The unsigned attempt refuses a minus sign, also before a zero. -/
theorem parseUnsigned_eq_ok_iff (t : IntType) {m : Nat} :
    parseUnsigned t.width text = .ok m ↔
      IntegerForm text m ∧ (∀ ds, text ≠ '-' :: ds) ∧ m < 2 ^ t.width := by
  have hPos : 0 < 2 ^ t.width := Nat.two_pow_pos _
  have hBound : ∀ k, k ≤ Nat.pow 2 t.width - 1 ↔ k < 2 ^ t.width := by
    intro k
    change k ≤ 2 ^ t.width - 1 ↔ _
    omega
  unfold parseUnsigned
  split
  · constructor
    · intro h
      cases h
    · rintro ⟨hForm, -⟩
      exact absurd rfl hForm.ne_nil
  · rename_i c
    rw [IntegerForm.singleton_iff]
    split
    · rename_i hDigit
      have hSmall := digit_lt t hDigit
      have hWide : 2 ^ (t.width - 1) ≤ 2 ^ t.width := Nat.pow_le_pow_right (by decide) (by omega)
      simp only [Except.ok.injEq, hDigit, true_and, Nat.cast_inj]
      constructor
      · rintro rfl
        refine ⟨rfl, ?_, by omega⟩
        intro ds hMinus
        obtain ⟨rfl, -⟩ := List.cons.inj hMinus
        exact absurd hDigit (by decide)
      · rintro ⟨rfl, -⟩
        rfl
    · rename_i hDigit
      simp [hDigit]
  · rename_i rest hRest
    have hMore : rest ≠ [] := by
      rintro rfl
      exact hRest rfl
    rw [parseMagnitude_zero hMore, IntegerForm.plus_iff, hBound]
    simp [and_assoc]
  · rename_i hEmpty hSingle hPlus
    rw [parseMagnitude_zero hEmpty, hBound]
    constructor
    · rintro ⟨hDigits, rfl, hLess⟩
      refine ⟨.plain hDigits, ?_, hLess⟩
      rintro ds rfl
      exact IntegerForm.not_digits (.inr rfl) ds hDigits
    · rintro ⟨hForm, hMinus, hLess⟩
      rw [IntegerForm.plain_iff hPlus hMinus, Nat.cast_inj] at hForm
      exact ⟨hForm.1, hForm.2, hLess⟩

/-- The signed attempt has a bound for each sign. -/
theorem parseSigned_eq_ok_iff (t : IntType) {n : Int} :
    parseSigned t.width text = .ok n ↔
      IntegerForm text n ∧ -2 ^ (t.width - 1) ≤ n ∧ n < 2 ^ (t.width - 1) := by
  have hPos : 0 < 2 ^ (t.width - 1) := Nat.two_pow_pos _
  have hBound : ∀ k, k ≤ Nat.pow 2 (t.width - 1) - 1 ↔ k < 2 ^ (t.width - 1) := by
    intro k
    change k ≤ 2 ^ (t.width - 1) - 1 ↔ _
    omega
  have hLeast : ∀ k, k ≤ Nat.pow 2 (t.width - 1) ↔ k ≤ 2 ^ (t.width - 1) := fun k => Iff.rfl
  have hCast : (2 : Int) ^ (t.width - 1) = (2 ^ (t.width - 1) : Nat) := by push_cast; rfl
  rw [hCast]
  -- A plus sign changes nothing.
  have hRead : ∀ ds, ds ≠ [] →
      ((parseMagnitude .tooLarge (Nat.pow 2 (t.width - 1) - 1) ds 0).map Int.ofNat = .ok n ↔
        (Digits ds ∧ n = Nat.ofDigitChars 10 ds 0) ∧
          -(2 ^ (t.width - 1) : Nat) ≤ n ∧ n < (2 ^ (t.width - 1) : Nat)) := by
    intro ds hMore
    rw [map_eq_ok_iff]
    simp only [parseMagnitude_zero hMore, hBound, Int.ofNat_eq_natCast]
    constructor
    · rintro ⟨_, ⟨hDigits, rfl, hLess⟩, rfl⟩
      exact ⟨⟨hDigits, rfl⟩, by omega, by omega⟩
    · rintro ⟨⟨hDigits, rfl⟩, -, hLess⟩
      exact ⟨_, ⟨hDigits, rfl, by omega⟩, rfl⟩
  unfold parseSigned
  split
  · constructor
    · intro h
      cases h
    · rintro ⟨hForm, -⟩
      exact absurd rfl hForm.ne_nil
  · rename_i c
    rw [IntegerForm.singleton_iff]
    split
    · rename_i hDigit
      have hSmall := digit_lt t hDigit
      simp only [Except.ok.injEq, hDigit, true_and]
      constructor
      · rintro rfl
        exact ⟨rfl, by omega, by omega⟩
      · rintro ⟨rfl, -⟩
        rfl
    · rename_i hDigit
      simp [hDigit]
  · rename_i rest hRest
    have hMore : rest ≠ [] := by
      rintro rfl
      exact hRest rfl
    rw [IntegerForm.plus_iff]
    exact hRead rest hMore
  · rename_i rest hRest
    have hMore : rest ≠ [] := by
      rintro rfl
      exact hRest rfl
    have hMap : ∀ x : Except IntParseError Nat,
        ((do return ((← x : Nat) : Int)) : Except IntParseError Int).map (-·) =
          Except.map (fun k : Nat => -(k : Int)) x := by
      rintro (_ | _) <;> rfl
    rw [hMap, map_eq_ok_iff, IntegerForm.minus_iff]
    simp only [parseMagnitude_zero hMore, hLeast]
    constructor
    · rintro ⟨_, ⟨hDigits, rfl, hLess⟩, rfl⟩
      exact ⟨⟨hDigits, rfl⟩, by omega, by omega⟩
    · rintro ⟨⟨hDigits, rfl⟩, hLess, -⟩
      exact ⟨_, ⟨hDigits, rfl, by omega⟩, rfl⟩
  · rename_i hEmpty hSingle hPlus hMinus
    rw [IntegerForm.plain_iff hPlus hMinus]
    exact hRead text hEmpty

/-- Both attempts together accept the integers of both ranges. A text that the signed attempt
refuses and the unsigned one accepts has no minus sign, and one that starts with a minus sign
denotes no integer beyond the signed range. -/
theorem parseInteger_eq_ok_iff (t : IntType) {bits : BitVec t.width} :
    parseInteger t.width text = .ok bits ↔
      ∃ n : Int, IntegerForm text n ∧ -2 ^ (t.width - 1) ≤ n ∧ n < 2 ^ t.width ∧
        bits = BitVec.ofInt t.width n := by
  have hWide : (2 : Int) ^ (t.width - 1) ≤ 2 ^ t.width :=
    pow_le_pow_right₀ (by decide) (Nat.sub_le _ _)
  have hPos : (0 : Int) < 2 ^ (t.width - 1) := by positivity
  unfold parseInteger
  cases hSigned : parseSigned t.width text with
  | ok v =>
    obtain ⟨hForm, hLeast, hLess⟩ := (parseSigned_eq_ok_iff t).1 hSigned
    simp only [Except.ok.injEq]
    constructor
    · rintro rfl
      exact ⟨v, hForm, hLeast, hLess.trans_le hWide, rfl⟩
    · rintro ⟨n, hForm', -, -, rfl⟩
      rw [hForm.unique hForm']
  | error e =>
    have hRefused : ∀ n, IntegerForm text n → -2 ^ (t.width - 1) ≤ n → 2 ^ (t.width - 1) ≤ n := by
      intro n hForm hLeast
      by_contra hLess
      rw [(parseSigned_eq_ok_iff t).2 ⟨hForm, hLeast, not_le.1 hLess⟩] at hSigned
      cases hSigned
    simp only [map_eq_ok_iff, parseUnsigned_eq_ok_iff]
    constructor
    · rintro ⟨m, ⟨hForm, -, hLess⟩, rfl⟩
      refine ⟨m, hForm, by omega, by exact_mod_cast hLess, ?_⟩
      rw [BitVec.ofInt_natCast]
    · rintro ⟨n, hForm, hLeast, hLess, rfl⟩
      have hBeyond := hRefused n hForm hLeast
      obtain ⟨m, rfl⟩ := Int.eq_ofNat_of_zero_le (hPos.le.trans hBeyond)
      refine ⟨m, ⟨hForm, ?_, by exact_mod_cast hLess⟩, (BitVec.ofInt_natCast _ _).symm⟩
      rintro ds rfl
      obtain ⟨-, hNegative⟩ := IntegerForm.minus_iff.1 hForm
      omega

end

/-! ## Values -/

/-- The bits that are congruent to an integer. -/
theorem eq_ofInt_iff_modEq {w : Nat} {bits : BitVec w} {n : Int} :
    bits = BitVec.ofInt w n ↔ (bits.toNat : Int) ≡ n [ZMOD 2 ^ w] := by
  have hLess : (bits.toNat : Int) < 2 ^ w := by exact_mod_cast bits.isLt
  rw [← BitVec.toNat_inj, BitVec.toNat_ofInt, Int.ModEq,
    Int.emod_eq_of_lt (Int.natCast_nonneg _) hLess]
  push_cast
  have hPos : (0 : Int) < 2 ^ w := by positivity
  have hNonneg := Int.emod_nonneg n hPos.ne'
  constructor
  · intro h
    rw [h, Int.toNat_of_nonneg hNonneg]
  · intro h
    rw [← h, Int.toNat_natCast]

namespace Value

/-- The name of the type stands before the first colon. -/
theorem parse_type (t : IntType) (s : String) :
    parse (t.text ++ ":" ++ s) = parseInt t s.toList := by
  cases t <;>
    simp [parse, IntType.text, IntType.valueType, ValueType.text, String.toList_append, parseAs]

theorem display_ofInt (t : IntType) (bits : BitVec t.width) :
    display (ofInt t bits) = t.text ++ ":" ++ toString bits.toInt := by
  cases t <;> rfl

theorem parseInt_eq_ok_iff (t : IntType) {text : List Char} {v : Value} :
    parseInt t text = .ok v ↔ ∃ bits, parseInteger t.width text = .ok bits ∧ v = ofInt t bits := by
  unfold parseInt
  cases parseInteger t.width text with
  | ok bits => simp [eq_comm]
  | error e => simp

/-- An integer argument is accepted exactly if it is a decimal text of an integer in the signed or
in the unsigned range of its type, and gives the value of that type which is congruent to it. In
particular, what is displayed for a value is read back as that value. -/
theorem parse_integer (t : IntType) (s : String) :
    (∀ v, parse (t.text ++ ":" ++ s) = .ok v ↔
      ∃ (n : Int) (bits : BitVec t.width), IntegerForm s.toList n ∧
        -2 ^ (t.width - 1) ≤ n ∧ n < 2 ^ t.width ∧
        v = ofInt t bits ∧ (bits.toNat : Int) ≡ n [ZMOD 2 ^ t.width]) ∧
    ∀ bits : BitVec t.width, parse (display (ofInt t bits)) = .ok (ofInt t bits) := by
  constructor
  · intro v
    rw [parse_type, parseInt_eq_ok_iff]
    simp only [parseInteger_eq_ok_iff, eq_ofInt_iff_modEq]
    constructor
    · rintro ⟨bits, ⟨n, hForm, hLeast, hLess, hBits⟩, hValue⟩
      exact ⟨n, bits, hForm, hLeast, hLess, hValue, hBits⟩
    · rintro ⟨n, bits, hForm, hLeast, hLess, hValue, hBits⟩
      exact ⟨bits, ⟨n, hForm, hLeast, hLess, hBits⟩, hValue⟩
  · intro bits
    have hSigned : parseSigned t.width (toString bits.toInt).toList = .ok bits.toInt :=
      (parseSigned_eq_ok_iff t).2
        ⟨.toList_toString bits.toInt, bits.le_toInt, bits.toInt_lt⟩
    rw [display_ofInt, parse_type, parseInt, parseInteger, hSigned]
    simp only [BitVec.ofInt_toInt]

/-- A zero may have a minus sign, and a plus sign may stand before an unsigned number. -/
example : parse "i32:-000" = .ok (.i32 0) ∧ parse "i32:+4294967295" = .ok (.i32 (-1)) := by
  decide +kernel

end Value

end WasmMachine
