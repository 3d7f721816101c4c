import WasmMachine.Proofs.Floating.Rounding
import WasmMachine.Proofs.Numeric.Integers

/-!
# Truncation

The instructions that make an integer of a float test its range on doubles. The tests are exact: the
instructions give the integer part of exactly those floats that are numbers whose integer part is in
the range of the target, and refuse all others. The bounds of the tests are integers that have a
double. So is the least integer of 64 bits, but not the one below it, and there the bound belongs to
the range.

* `wholePart`, `IntType.range`: the integer part of a number, and the integers of a type.
* `truncToInt?_of_some`, `truncToInt?_of_none`: what the tests decide for numbers and for the rest.
* `dispatch_trunc`: what the instructions do.
-/

namespace WasmMachine

open Floating Stack

/-! ## Integer parts -/

/-- The integer part of a number, which is what is left of it without its fraction. -/
def wholePart (q : ℚ) : ℤ := if 0 ≤ q then ⌊q⌋ else ⌈q⌉

theorem wholePart_intCast (v : ℤ) : wholePart v = v := by
  unfold wholePart
  split
  · exact Int.floor_intCast v
  · exact Int.ceil_intCast v

theorem wholePart_neg (q : ℚ) : wholePart (-q) = -wholePart q := by
  unfold wholePart
  rcases lt_trichotomy q 0 with hNegative | rfl | hPositive
  · rw [if_pos (by linarith), if_neg hNegative.not_ge, Int.floor_neg]
  · simp
  · rw [if_neg (by linarith), if_pos hPositive.le, Int.ceil_neg]

theorem signed_cast (negative : Bool) (n : Nat) : (signed negative n : ℚ) = sign negative * n := by
  cases negative <;> simp [signed, sign]

theorem integerPart_eq (negative : Bool) (mantissa : Nat) (exponent : ℤ) :
    integerPart negative mantissa exponent =
      wholePart (sign negative * (mantissa * 2 ^ exponent)) := by
  have hFloor : wholePart (mantissa * 2 ^ exponent) =
      (mantissa * 2 ^ exponent.toNat / 2 ^ (-exponent).toNat : Nat) := by
    rw [wholePart, if_pos (by positivity), ← ratio_eq, Rat.floor_natCast_div_natCast]
    exact (Int.natCast_ediv _ _).symm
  cases negative with
  | false => rw [sign, if_neg Bool.false_ne_true, one_mul, hFloor]; rfl
  | true => rw [sign, if_pos rfl, neg_one_mul, wholePart_neg, hFloor]; rfl

/-! ## Integral floats -/

section

variable {t : FloatType} {x : BitVec t.width}

/-- Rounding toward zero gives the float of the integer part. -/
theorem isNumber_roundIntegral (h : magnitude t x < infinityMagnitude t) :
    IsNumber t (roundIntegral t .towardZero x) (wholePart (number t x)) := by
  obtain ⟨mantissa, exponent, hDecode, hBits, -, hMagnitude⟩ := decode_of_lt h
  have hNumber : number t x = sign (isNegative t x) * (mantissa * 2 ^ exponent) := by
    rw [hMagnitude, number]
  have hWhole : (wholePart (number t x) : ℚ) = sign (isNegative t x) *
      (mantissa * 2 ^ exponent.toNat / 2 ^ (-exponent).toNat : Nat) := by
    rw [hNumber, ← integerPart_eq]
    exact signed_cast _ _
  rw [roundIntegral, hDecode]
  dsimp only
  by_cases hExponent : 0 ≤ exponent
  · -- Without places below one, the float is its own integer part.
    have hOne : (-exponent).toNat = 0 := by omega
    have hPower : (2 : ℚ) ^ exponent = 2 ^ exponent.toNat := by
      rw [← zpow_natCast, Int.toNat_of_nonneg hExponent]
    rw [if_pos hExponent]
    refine ⟨h, ?_⟩
    rw [hWhole, hNumber, hOne, hPower]
    simp
  · have hOne : exponent.toNat = 0 := by omega
    have hLess : mantissa / 2 ^ (-exponent).toNat < 2 ^ (t.fractionBits + 1) :=
      (Nat.div_le_self _ _).trans_lt hBits
    have hBound : ((mantissa / 2 ^ (-exponent).toNat : Nat) : ℚ) / (1 : Nat) <
        2 ^ overflowExponent t := by
      rw [Nat.cast_one, div_one]
      exact_mod_cast hLess.trans_le (Nat.pow_le_pow_right two_pos (by cases t <;> decide))
    obtain ⟨hFinite, hRounded⟩ := isNumber_roundRatio (k := 0) (isNegative t x) Nat.one_pos
      (by simp) hLess (by cases t <;> decide) hBound
    rw [if_neg hExponent]
    refine ⟨hFinite, hRounded.trans ?_⟩
    rw [hWhole, hOne]
    simp

theorem roundIntegral_of_infinite (direction : Direction)
    (h : magnitude t x = infinityMagnitude t) : roundIntegral t direction x = x := by
  rw [roundIntegral, decode_of_eq h]

end

/-! ## Range tests -/

section

variable {lower upper x : BitVec FloatType.f64.width} {lo hi : ℤ}

theorem le_roundIntegral_iff (hUpper : IsNumber .f64 upper hi)
    (h : magnitude .f64 x < infinityMagnitude .f64) :
    le .f64 upper (roundIntegral .f64 .towardZero x) = true ↔ hi ≤ wholePart (number .f64 x) := by
  have hTruncated := isNumber_roundIntegral h
  rw [le_iff hUpper.isNan hTruncated.isNan, hTruncated.2, hUpper.2, Int.cast_le]

/-- The test with two bounds accepts the numbers whose integer part is strictly between them. -/
theorem truncBetween?_of_finite (hLower : IsNumber .f64 lower lo) (hUpper : IsNumber .f64 upper hi)
    (h : magnitude .f64 x < infinityMagnitude .f64) :
    truncBetween? lower upper x =
      if lo < wholePart (number .f64 x) ∧ wholePart (number .f64 x) < hi
      then some (roundIntegral .f64 .towardZero x) else none := by
  have hTruncated := isNumber_roundIntegral h
  have hLow : le .f64 (roundIntegral .f64 .towardZero x) lower = true ↔
      wholePart (number .f64 x) ≤ lo := by
    rw [le_iff hTruncated.isNan hLower.isNan, hTruncated.2, hLower.2, Int.cast_le]
  have hHigh := le_roundIntegral_iff hUpper h
  have hNan : isNan .f64 x = false := isNan_eq_false_iff.2 h.le
  simp only [truncBetween?, hNan, Bool.or_eq_true, hLow, hHigh, Bool.false_eq_true, if_false]
  split_ifs <;> first | rfl | omega

theorem truncFrom?_of_finite (hUpper : IsNumber .f64 upper hi)
    (h : magnitude .f64 x < infinityMagnitude .f64) :
    truncFrom? upper x =
      if -hi ≤ wholePart (number .f64 x) ∧ wholePart (number .f64 x) < hi
      then some (roundIntegral .f64 .towardZero x) else none := by
  have hTruncated := isNumber_roundIntegral h
  have hLow : lt .f64 (roundIntegral .f64 .towardZero x) (neg .f64 upper) = true ↔
      wholePart (number .f64 x) < -hi := by
    rw [lt_iff hTruncated.isNan hUpper.neg.isNan, hTruncated.2, hUpper.neg.2, ← Int.cast_neg,
      Int.cast_lt]
  have hHigh := le_roundIntegral_iff hUpper h
  have hNan : isNan .f64 x = false := isNan_eq_false_iff.2 h.le
  simp only [truncFrom?, hNan, Bool.or_eq_true, hLow, hHigh, Bool.false_eq_true, if_false]
  split_ifs <;> first | rfl | omega

/-- The two tests differ at the least integer alone, which belongs to the range of one of them. -/
theorem truncFrom?_eq_truncBetween? (hUpper : IsNumber .f64 upper hi)
    (h : magnitude .f64 x < infinityMagnitude .f64) (hLeast : wholePart (number .f64 x) ≠ -hi) :
    truncFrom? upper x = truncBetween? (neg .f64 upper) upper x := by
  have hLower : IsNumber .f64 (neg .f64 upper) (-hi : ℤ) := by
    rw [Int.cast_neg]
    exact hUpper.neg
  rw [truncFrom?_of_finite hUpper h, truncBetween?_of_finite hLower hUpper h]
  congr 1
  exact propext ⟨fun hRange => ⟨lt_of_le_of_ne hRange.1 hLeast.symm, hRange.2⟩,
    fun hRange => ⟨hRange.1.le, hRange.2⟩⟩

/-- The tests accept no infinity and no NaN. -/
theorem truncBetween?_of_not_finite (hLower : IsNumber .f64 lower lo)
    (hUpper : IsNumber .f64 upper hi) (h : infinityMagnitude .f64 ≤ magnitude .f64 x) :
    truncBetween? lower upper x = none := by
  rcases h.eq_or_lt with hInfinite | hNan
  · have hNan : isNan .f64 x = false := isNan_eq_false_iff.2 hInfinite.symm.le
    have hRefused : (le .f64 x lower || le .f64 upper x) = true := by
      rw [Bool.or_eq_true, le_iff hNan hLower.isNan, le_iff hUpper.isNan hNan, hLower.2, hUpper.2]
      exact (infinite_beyond hInfinite.symm).imp (fun hBefore => (hBefore hLower).le)
        fun hAfter => (hAfter hUpper).le
    simp only [truncBetween?, hNan, roundIntegral_of_infinite _ hInfinite.symm, hRefused,
      Bool.false_eq_true, if_false, if_true]
  · rw [truncBetween?, isNan, decide_eq_true hNan, if_pos rfl]

theorem truncFrom?_of_not_finite (hUpper : IsNumber .f64 upper hi)
    (h : infinityMagnitude .f64 ≤ magnitude .f64 x) : truncFrom? upper x = none := by
  rcases h.eq_or_lt with hInfinite | hNan
  · have hNan : isNan .f64 x = false := isNan_eq_false_iff.2 hInfinite.symm.le
    have hRefused : (lt .f64 x (neg .f64 upper) || le .f64 upper x) = true := by
      rw [Bool.or_eq_true, lt_iff hNan hUpper.neg.isNan, le_iff hUpper.isNan hNan, hUpper.neg.2,
        hUpper.2]
      exact (infinite_beyond hInfinite.symm).imp (fun hBefore => hBefore hUpper.neg)
        fun hAfter => (hAfter hUpper).le
    simp only [truncFrom?, hNan, roundIntegral_of_infinite _ hInfinite.symm, hRefused,
      Bool.false_eq_true, if_false, if_true]
  · rw [truncFrom?, isNan, decide_eq_true hNan, if_pos rfl]

end

/-! ## Words -/

/-- The integers that words of a type stand for. -/
def IntType.range : IntType → Signedness → Set ℤ
  | .i32, .signed => Set.Icc (-2 ^ 31) (2 ^ 31 - 1)
  | .i32, .unsigned => Set.Icc 0 (2 ^ 32 - 1)
  | .i64, .signed => Set.Icc (-2 ^ 63) (2 ^ 63 - 1)
  | .i64, .unsigned => Set.Icc 0 (2 ^ 64 - 1)

theorem IntType.range_eq (target : IntType) (s : Signedness) :
    target.range s = Set.Icc (Integer.least target.width s) (Integer.greatest target.width s) := by
  cases target <;> cases s <;> rfl

instance (target : IntType) (s : Signedness) : DecidablePred (· ∈ target.range s) := fun v =>
  decidable_of_iff (Integer.least target.width s ≤ v ∧ v ≤ Integer.greatest target.width s)
    (target.range_eq s ▸ Iff.rfl)

theorem saturate_of_mem {target : IntType} {s : Signedness} {v : ℤ} (h : v ∈ target.range s) :
    Integer.saturate target.width s v = BitVec.ofInt target.width v := by
  rw [IntType.range_eq] at h
  rw [Integer.saturate, min_eq_left h.2, max_eq_right h.1]

section

variable {x : BitVec FloatType.f64.width}

/-- The bounds of a test are the integers next to the range, or its own least integer. -/
theorem truncInRange?_test (target : IntType) (s : Signedness) :
    (∃ lower upper lo hi, IsNumber .f64 lower (lo : ℤ) ∧ IsNumber .f64 upper (hi : ℤ) ∧
      truncInRange? target s = truncBetween? lower upper ∧
      ∀ v, v ∈ target.range s ↔ lo < v ∧ v < hi) ∨
    ∃ upper hi, IsNumber .f64 upper (hi : ℤ) ∧ truncInRange? target s = truncFrom? upper ∧
      ∀ v, v ∈ target.range s ↔ -hi ≤ v ∧ v < hi := by
  have hMinusOne : IsNumber .f64 (ofInt .f64 (-1)) (-1 : ℤ) :=
    isNumber_ofInt 1 0 rfl (by decide) (by decide)
  cases target with
  | i32 =>
    cases s with
    | signed =>
      refine .inl ⟨_, _, _, _, isNumber_ofInt 2147483649 0 rfl (by decide) (by decide),
        isNumber_ofInt 1 31 rfl (by decide) (by decide), rfl, fun v => ?_⟩
      rw [IntType.range, Set.mem_Icc]
      omega
    | unsigned =>
      refine .inl ⟨_, _, _, _, hMinusOne, isNumber_ofInt 1 32 rfl (by decide) (by decide), rfl,
        fun v => ?_⟩
      rw [IntType.range, Set.mem_Icc]
      omega
  | i64 =>
    cases s with
    | signed =>
      refine .inr ⟨_, _, isNumber_ofInt 1 63 rfl (by decide) (by decide), rfl, fun v => ?_⟩
      rw [IntType.range, Set.mem_Icc]
      omega
    | unsigned =>
      refine .inl ⟨_, _, _, _, hMinusOne, isNumber_ofInt 1 64 rfl (by decide) (by decide), rfl,
        fun v => ?_⟩
      rw [IntType.range, Set.mem_Icc]
      omega

theorem truncInRange?_of_finite (target : IntType) (s : Signedness)
    (h : magnitude .f64 x < infinityMagnitude .f64) :
    truncInRange? target s x =
      if wholePart (number .f64 x) ∈ target.range s
      then some (roundIntegral .f64 .towardZero x) else none := by
  obtain ⟨lower, upper, lo, hi, hLower, hUpper, hTest, hRange⟩ |
      ⟨upper, hi, hUpper, hTest, hRange⟩ := truncInRange?_test target s
  · rw [hTest, truncBetween?_of_finite hLower hUpper h]
    exact if_congr (hRange _).symm rfl rfl
  · rw [hTest, truncFrom?_of_finite hUpper h]
    exact if_congr (hRange _).symm rfl rfl

theorem truncInRange?_of_not_finite (target : IntType) (s : Signedness)
    (h : infinityMagnitude .f64 ≤ magnitude .f64 x) : truncInRange? target s x = none := by
  obtain ⟨lower, upper, lo, hi, hLower, hUpper, hTest, -⟩ | ⟨upper, hi, hUpper, hTest, -⟩ :=
    truncInRange?_test target s
  · rw [hTest, truncBetween?_of_not_finite hLower hUpper h]
  · rw [hTest, truncFrom?_of_not_finite hUpper h]

/-- The word of an integral double in the range is that of its integer. -/
theorem wordOfDouble_eq {target : IntType} {s : Signedness} {v : ℤ} (h : IsNumber .f64 x v)
    (hRange : v ∈ target.range s) : wordOfDouble target s x = BitVec.ofInt target.width v := by
  obtain ⟨mantissa, exponent, hDecode, -, -, hMagnitude⟩ := decode_of_lt h.1
  have hInteger : integerPart (isNegative .f64 x) mantissa exponent = v := by
    rw [integerPart_eq, hMagnitude, ← number, h.2, wholePart_intCast]
  rw [wordOfDouble, hDecode]
  dsimp only
  rw [hInteger, saturate_of_mem hRange]

/-! ## Widening -/

/-- Every float has a double. -/
theorem isNumber_convert {bits : BitVec FloatType.f32.width}
    (h : magnitude .f32 bits < infinityMagnitude .f32) :
    IsNumber .f64 (convert .f32 .f64 bits) (number .f32 bits) := by
  obtain ⟨mantissa, exponent, hDecode, hBits, hExponent, hMagnitude⟩ := decode_of_lt h
  have hBound : (mantissa * 2 ^ exponent : ℚ) < 2 ^ overflowExponent .f64 := by
    rw [hMagnitude]
    refine (strictMono_magnitudeNumber .f32 h).trans ?_
    rw [magnitudeNumber_infinityMagnitude]
    exact pow_lt_pow_right₀ one_lt_two (by decide)
  rw [convert, hDecode, number, ← hMagnitude]
  exact isNumber_roundScaled (isNegative .f32 bits) rfl (hBits.trans (by decide))
    (le_trans (by decide) hExponent) hBound

/-- A float and its double stand for the same number, or both for none. -/
theorem number?_widen (source : FloatType) (bits : BitVec source.width) :
    (decode .f64 (widen source bits)).number? = (decode source bits).number? := by
  cases source with
  | f64 => rfl
  | f32 =>
    rcases Nat.lt_trichotomy (magnitude .f32 bits) (infinityMagnitude .f32) with
      hFinite | hInfinite | hNan
    · have hWide := isNumber_convert hFinite
      rw [number?_decode hFinite, widen, number?_decode hWide.1, hWide.2]
    · rw [widen, convert, decode_of_eq hInfinite]
      cases isNegative .f32 bits <;> decide +kernel
    · rw [widen, convert, decode_of_isNan (decide_eq_true hNan)]
      decide +kernel

end

/-! ## Truncation of a float -/

section

variable {target : IntType} {source : FloatType} {s : Signedness} {bits : BitVec source.width}

theorem truncToInt?_of_some {q : ℚ} (h : (decode source bits).number? = some q) :
    truncToInt? target source s bits =
      if wholePart q ∈ target.range s then some (BitVec.ofInt target.width (wholePart q))
      else none := by
  rw [← number?_widen] at h
  rw [truncToInt?]
  obtain ⟨hFinite, hNumber⟩ | ⟨-, hNone⟩ := number?_cases .f64 (widen source bits)
  · obtain rfl : number .f64 (widen source bits) = q := Option.some.inj (hNumber.symm.trans h)
    rw [truncInRange?_of_finite target s hFinite]
    split
    · rename_i hRange
      exact congrArg some (wordOfDouble_eq (isNumber_roundIntegral hFinite) hRange)
    · rfl
  · rw [hNone] at h
    cases h

-- The least integer of 64 bits is a double, and the test accepts it.
example : truncToInt? .i64 .f64 .signed (Floating.ofInt .f64 (-2 ^ 63)) =
    some (BitVec.ofInt 64 (-2 ^ 63)) := by decide +kernel

theorem truncToInt?_of_none (h : (decode source bits).number? = none) :
    truncToInt? target source s bits = none := by
  rw [← number?_widen] at h
  rw [truncToInt?]
  obtain ⟨-, hNumber⟩ | ⟨hNotFinite, -⟩ := number?_cases .f64 (widen source bits)
  · rw [hNumber] at h
    cases h
  · rw [truncInRange?_of_not_finite target s hNotFinite]
    rfl

end

/-! ## Instructions -/

/-- The byte of a truncation. -/
def truncByte : IntType → FloatType → Signedness → UInt8
  | .i32, .f32, .signed => 0xa8
  | .i32, .f32, .unsigned => 0xa9
  | .i32, .f64, .signed => 0xaa
  | .i32, .f64, .unsigned => 0xab
  | .i64, .f32, .signed => 0xae
  | .i64, .f32, .unsigned => 0xaf
  | .i64, .f64, .signed => 0xb0
  | .i64, .f64, .unsigned => 0xb1

/-- The byte of `f64.promote_f32`. -/
def promoteByte : UInt8 := 0xbb

theorem ofByte?_truncByte (target : IntType) (source : FloatType) (s : Signedness) :
    Opcode.ofByte? (truncByte target source s) =
      some (.numeric (.convert (.trunc target source s))) := by
  cases target <;> cases source <;> cases s <;> decide +kernel

theorem ofByte?_promoteByte : Opcode.ofByte? promoteByte = some (.numeric (.convert .promote)) := by
  decide +kernel

theorem popFloat_push (t : FloatType) (s : Stack) (bits : BitVec t.width) :
    popFloat t (s.push (.value (.ofFloat t bits))) = .ok bits s := by
  cases t <;> exact run_bind_of_ok (popTyped_push s _) _

section

variable (target : IntType) (s : Signedness) (env : Env) (m : Machine)

theorem dispatch_trunc_eq (source : FloatType) (bits : BitVec source.width) :
    dispatch env (truncByte target source s) (m.push (.ofFloat source bits)) =
      match truncToInt? target source s bits with
      | some v => .ok () (m.push (.ofInt target v))
      | none => .error (.floatUnrepresentable (widen source bits)) m := by
  have hRun : Conversion.run (.trunc target source s)
      (m.stack.push (.value (.ofFloat source bits))) =
        match truncToInt? target source s bits with
        | some v => .ok () (m.stack.push (.value (.ofInt target v)))
        | none => .error (.floatUnrepresentable (widen source bits)) m.stack := by
    refine (run_bind_of_ok (popFloat_push source m.stack bits) _).trans ?_
    cases truncToInt? target source s bits <;> rfl
  rw [dispatch_numeric (ofByte?_truncByte target source s)]
  simp only [Numeric.run, Exec.onStack, Machine.push, hRun]
  cases truncToInt? target source s bits <;> rfl

theorem dispatch_promote (bits : BitVec FloatType.f32.width) :
    dispatch env promoteByte (m.push (.f32 bits)) = .ok () (m.push (.f64 (widen .f32 bits))) := by
  have hRun : Conversion.run .promote (m.stack.push (.value (.f32 bits))) =
      .ok () (m.stack.push (.value (.f64 (widen .f32 bits)))) :=
    run_bind_of_ok (popFloat_push .f32 m.stack bits) _
  rw [dispatch_numeric ofByte?_promoteByte]
  simp only [Numeric.run, Exec.onStack, Machine.push, hRun]

/-- A truncation gives the integer part of its operand, as a word, if the operand stands for a
number whose integer part is in the range of the target. All other operands are refused. Promoting
an operand first changes neither what it stands for nor what becomes of it. -/
theorem dispatch_trunc :
    (∀ (source : FloatType) (bits : BitVec source.width),
      (∃ q, (decode source bits).number? = some q ∧ wholePart q ∈ target.range s ∧
        dispatch env (truncByte target source s) (m.push (.ofFloat source bits)) =
          .ok () (m.push (.ofInt target (BitVec.ofInt target.width (wholePart q))))) ∨
      (∀ q, (decode source bits).number? = some q → wholePart q ∉ target.range s) ∧
        ∃ trap, trap.code = "FLOAT_UNREPRESENTABLE" ∧
          dispatch env (truncByte target source s) (m.push (.ofFloat source bits)) =
            .error trap m) ∧
    ∀ bits : BitVec FloatType.f32.width,
      (decode .f64 (widen .f32 bits)).number? = (decode .f32 bits).number? ∧
      (dispatch env promoteByte >>= fun _ => dispatch env (truncByte target .f64 s))
          (m.push (.f32 bits)) =
        dispatch env (truncByte target .f32 s) (m.push (.f32 bits)) := by
  refine ⟨fun source bits => ?_, fun bits => ⟨number?_widen .f32 bits, ?_⟩⟩
  · rw [dispatch_trunc_eq]
    cases hNumber : (decode source bits).number? with
    | none =>
      rw [truncToInt?_of_none hNumber]
      exact .inr ⟨fun q h => (Option.some_ne_none q h.symm).elim, _, rfl, rfl⟩
    | some q =>
      rw [truncToInt?_of_some hNumber]
      by_cases hRange : wholePart q ∈ target.range s
      · rw [if_pos hRange]
        exact .inl ⟨q, rfl, hRange, rfl⟩
      · rw [if_neg hRange]
        exact .inr ⟨fun r h => Option.some.inj h ▸ hRange, _, rfl, rfl⟩
  · rw [run_bind_of_ok (dispatch_promote env m bits)]
    exact (dispatch_trunc_eq target s env m .f64 (widen .f32 bits)).trans
      (dispatch_trunc_eq target s env m .f32 bits).symm

end

end WasmMachine
