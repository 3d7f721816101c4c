import Mathlib
import WasmMachine.Floating.Arithmetic

/-!
# Floats as numbers

The bit pattern of a float is a sign over a magnitude. Magnitudes are read as rational numbers, one
after the other in strictly increasing order, with the magnitude of the infinities as the power of
two that follows the greatest float. So floats are compared like the numbers that they stand for.

* `Floating.number?`: the number that a meaning stands for.
* `Floating.number?_decode`: it is that of the magnitude, with the sign.
* `Floating.le_iff`, `Floating.lt_iff`: the order of floats is that of numbers.
-/

namespace WasmMachine.Floating

variable {t : FloatType}

/-! ## Magnitudes -/

/-- The factor that a sign stands for. -/
def sign (negative : Bool) : ℚ := if negative then -1 else 1

/-- The number that a meaning stands for. -/
def number? : Floating → Option ℚ
  | .nan => none
  | .infinite _ => none
  | .finite negative mantissa exponent => some (sign negative * (mantissa * 2 ^ exponent))

/-- The number that a magnitude stands for. -/
def magnitudeNumber (t : FloatType) (m : Nat) : ℚ :=
  if m / 2 ^ t.fractionBits = 0 then (m % 2 ^ t.fractionBits : Nat) * 2 ^ t.leastExponent
  else (m % 2 ^ t.fractionBits + 2 ^ t.fractionBits : Nat) *
    2 ^ (t.leastExponent + (m / 2 ^ t.fractionBits : Nat) - 1)

/-- The number of a bit pattern, which for the infinities is that of their magnitude. -/
def number (t : FloatType) (bits : BitVec t.width) : ℚ :=
  sign (isNegative t bits) * magnitudeNumber t (magnitude t bits)

theorem magnitudeNumber_subnormal {m : Nat} (h : m < 2 ^ t.fractionBits) :
    magnitudeNumber t m = m * 2 ^ t.leastExponent := by
  rw [magnitudeNumber, if_pos (Nat.div_eq_of_lt h), Nat.mod_eq_of_lt h]

theorem magnitudeNumber_normal {j fraction : Nat} (h : fraction < 2 ^ t.fractionBits) :
    magnitudeNumber t ((j + 1) * 2 ^ t.fractionBits + fraction) =
      (fraction + 2 ^ t.fractionBits : Nat) * 2 ^ (t.leastExponent + j) := by
  have hPos : 0 < 2 ^ t.fractionBits := Nat.two_pow_pos _
  have hField : ((j + 1) * 2 ^ t.fractionBits + fraction) / 2 ^ t.fractionBits = j + 1 := by
    rw [Nat.mul_comm, Nat.mul_add_div hPos, Nat.div_eq_of_lt h, Nat.add_zero]
  have hFraction : ((j + 1) * 2 ^ t.fractionBits + fraction) % 2 ^ t.fractionBits = fraction := by
    rw [Nat.mul_comm, Nat.mul_add_mod, Nat.mod_eq_of_lt h]
  rw [magnitudeNumber, hField, hFraction, if_neg (Nat.succ_ne_zero j)]
  congr 2
  push_cast
  ring

/-- A magnitude counts places of the size that its exponent gives. The count may reach the next
exponent. -/
theorem magnitudeNumber_places {j q : Nat} (hMost : q ≤ 2 ^ (t.fractionBits + 1))
    (hNormal : j = 0 ∨ 2 ^ t.fractionBits ≤ q) :
    magnitudeNumber t (j * 2 ^ t.fractionBits + q) = q * 2 ^ (t.leastExponent + j) := by
  have hDouble : 2 ^ (t.fractionBits + 1) = 2 ^ t.fractionBits + 2 ^ t.fractionBits := by ring
  rcases Nat.lt_or_ge q (2 ^ t.fractionBits) with hLess | hUnit
  · obtain rfl : j = 0 := by omega
    rw [Nat.zero_mul, Nat.zero_add, magnitudeNumber_subnormal hLess, Nat.cast_zero, add_zero]
  · obtain ⟨fraction, rfl⟩ := Nat.exists_eq_add_of_le hUnit
    rcases Nat.lt_or_ge fraction (2 ^ t.fractionBits) with hFraction | hNext
    · have hParts : j * 2 ^ t.fractionBits + (2 ^ t.fractionBits + fraction) =
          (j + 1) * 2 ^ t.fractionBits + fraction := by ring
      rw [hParts, magnitudeNumber_normal hFraction, Nat.add_comm]
    · obtain rfl : fraction = 2 ^ t.fractionBits := by omega
      have hParts : j * 2 ^ t.fractionBits + (2 ^ t.fractionBits + 2 ^ t.fractionBits) =
          (j + 1 + 1) * 2 ^ t.fractionBits + 0 := by ring
      rw [hParts, magnitudeNumber_normal (Nat.two_pow_pos _)]
      push_cast
      rw [← add_assoc, zpow_add_one₀ (two_ne_zero)]
      ring

/-- Every magnitude is a count of places. -/
theorem exists_places (t : FloatType) (m : Nat) : ∃ j q, m = j * 2 ^ t.fractionBits + q ∧
    q < 2 ^ (t.fractionBits + 1) ∧ (j = 0 ∨ 2 ^ t.fractionBits ≤ q) := by
  have hDouble : 2 ^ (t.fractionBits + 1) = 2 ^ t.fractionBits + 2 ^ t.fractionBits := by ring
  have hFraction : m % 2 ^ t.fractionBits < 2 ^ t.fractionBits := Nat.mod_lt _ (Nat.two_pow_pos _)
  have hParts := Nat.div_add_mod' m (2 ^ t.fractionBits)
  cases hField : m / 2 ^ t.fractionBits with
  | zero =>
    rw [hField] at hParts
    exact ⟨0, m, by omega, by omega, .inl rfl⟩
  | succ j =>
    rw [hField, Nat.succ_mul] at hParts
    exact ⟨j, 2 ^ t.fractionBits + m % 2 ^ t.fractionBits, by omega, by omega,
      .inr (Nat.le_add_right _ _)⟩

theorem strictMono_magnitudeNumber (t : FloatType) : StrictMono (magnitudeNumber t) := by
  refine strictMono_nat_of_lt_succ fun m => ?_
  obtain ⟨j, q, rfl, hMost, hNormal⟩ := exists_places t m
  have hNext : j = 0 ∨ 2 ^ t.fractionBits ≤ q + 1 := hNormal.imp_right fun h => by omega
  have hPlace : (0 : ℚ) < 2 ^ (t.leastExponent + j) := by positivity
  rw [Nat.add_assoc, magnitudeNumber_places hMost.le hNormal, magnitudeNumber_places hMost hNext]
  push_cast
  nlinarith

theorem magnitudeNumber_zero (t : FloatType) : magnitudeNumber t 0 = 0 := by
  rw [magnitudeNumber_subnormal (Nat.two_pow_pos _), Nat.cast_zero, zero_mul]

theorem magnitudeNumber_nonneg (t : FloatType) (m : Nat) : 0 ≤ magnitudeNumber t m := by
  rw [← magnitudeNumber_zero t]
  exact (strictMono_magnitudeNumber t).monotone (Nat.zero_le m)

/-- The exponent of the power of two that follows the greatest float. -/
def overflowExponent : FloatType → Nat
  | .f32 => 128
  | .f64 => 1024

theorem magnitudeNumber_infinityMagnitude (t : FloatType) :
    magnitudeNumber t (infinityMagnitude t) = 2 ^ overflowExponent t := by
  have hFields : infinityMagnitude t =
      (2 ^ t.exponentBits - 2 + 1) * 2 ^ t.fractionBits + 0 := by cases t <;> rfl
  have hExponent : t.leastExponent + (2 ^ t.exponentBits - 2 : Nat) =
      (overflowExponent t : ℤ) - t.fractionBits := by cases t <;> rfl
  rw [hFields, magnitudeNumber_normal (Nat.two_pow_pos _), hExponent, zpow_sub₀ two_ne_zero]
  push_cast
  rw [zero_add, zpow_natCast, zpow_natCast, mul_div_cancel₀ _ (by positivity)]

/-! ## Bit patterns -/

theorem infinityMagnitude_lt (t : FloatType) : infinityMagnitude t < 2 ^ (t.width - 1) := by
  cases t <;> decide

theorem magnitude_lt (bits : BitVec t.width) : magnitude t bits < 2 ^ (t.width - 1) :=
  Nat.mod_lt _ (Nat.two_pow_pos _)

theorem toNat_ofMagnitude (negative : Bool) {m : Nat} (h : m < 2 ^ (t.width - 1)) :
    (ofMagnitude t negative m).toNat = m + if negative then 2 ^ (t.width - 1) else 0 := by
  have hDouble : 2 ^ t.width = 2 ^ (t.width - 1) + 2 ^ (t.width - 1) := by cases t <;> rfl
  have hBound : (m + if negative then 2 ^ (t.width - 1) else 0) < 2 ^ t.width := by
    split <;> omega
  exact Nat.mod_eq_of_lt hBound

theorem magnitude_ofMagnitude (negative : Bool) {m : Nat} (h : m < 2 ^ (t.width - 1)) :
    magnitude t (ofMagnitude t negative m) = m := by
  rw [magnitude, toNat_ofMagnitude negative h]
  cases negative with
  | false => exact Nat.mod_eq_of_lt h
  | true => exact (Nat.add_mod_right _ _).trans (Nat.mod_eq_of_lt h)

theorem isNegative_ofMagnitude (negative : Bool) {m : Nat} (h : m < 2 ^ (t.width - 1)) :
    isNegative t (ofMagnitude t negative m) = negative := by
  rw [isNegative, toNat_ofMagnitude negative h]
  cases negative with
  | false => exact decide_eq_false (Nat.not_le.2 h)
  | true => exact decide_eq_true (Nat.le_add_left _ _)

theorem number_ofMagnitude (negative : Bool) {m : Nat} (h : m < 2 ^ (t.width - 1)) :
    number t (ofMagnitude t negative m) = sign negative * magnitudeNumber t m := by
  rw [number, isNegative_ofMagnitude negative h, magnitude_ofMagnitude negative h]

theorem number_neg (bits : BitVec t.width) : number t (neg t bits) = -number t bits := by
  rw [neg, number_ofMagnitude _ (magnitude_lt bits), number]
  cases isNegative t bits <;> simp [sign]

/-! ## Meanings -/

section

variable {bits : BitVec t.width}

theorem decode_of_isNan (h : isNan t bits = true) : decode t bits = .nan :=
  if_pos (of_decide_eq_true h)

theorem decode_of_eq (h : magnitude t bits = infinityMagnitude t) :
    decode t bits = .infinite (isNegative t bits) :=
  (if_neg (by omega)).trans (if_pos h)

/-- Below the infinities, a bit pattern stands for the number of its magnitude. -/
theorem decode_of_lt (h : magnitude t bits < infinityMagnitude t) :
    ∃ mantissa exponent, decode t bits = .finite (isNegative t bits) mantissa exponent ∧
      mantissa < 2 ^ (t.fractionBits + 1) ∧ t.leastExponent ≤ exponent ∧
      (mantissa * 2 ^ exponent : ℚ) = magnitudeNumber t (magnitude t bits) := by
  have hDouble : 2 ^ (t.fractionBits + 1) = 2 ^ t.fractionBits + 2 ^ t.fractionBits := by ring
  have hFraction : magnitude t bits % 2 ^ t.fractionBits < 2 ^ t.fractionBits :=
    Nat.mod_lt _ (Nat.two_pow_pos _)
  have hDecode : decode t bits = if magnitude t bits / 2 ^ t.fractionBits = 0
      then .finite (isNegative t bits) (magnitude t bits % 2 ^ t.fractionBits) t.leastExponent
      else .finite (isNegative t bits)
        (magnitude t bits % 2 ^ t.fractionBits + 2 ^ t.fractionBits)
        (t.leastExponent + (magnitude t bits / 2 ^ t.fractionBits : Nat) - 1) :=
    (if_neg (by omega)).trans (if_neg (by omega))
  unfold magnitudeNumber
  by_cases hField : magnitude t bits / 2 ^ t.fractionBits = 0
  · rw [hDecode, if_pos hField, if_pos hField]
    exact ⟨_, _, rfl, by omega, le_rfl, rfl⟩
  · have hPos : (1 : Int) ≤ (magnitude t bits / 2 ^ t.fractionBits : Nat) :=
      Int.ofNat_le.2 (Nat.pos_of_ne_zero hField)
    rw [hDecode, if_neg hField, if_neg hField]
    exact ⟨_, _, rfl, by omega, by linarith, rfl⟩

theorem number?_decode (h : magnitude t bits < infinityMagnitude t) :
    (decode t bits).number? = some (number t bits) := by
  obtain ⟨mantissa, exponent, hDecode, -, -, hNumber⟩ := decode_of_lt h
  rw [hDecode, number?, hNumber, number]

/-- The bit pattern is the float of a number. -/
def IsNumber (t : FloatType) (bits : BitVec t.width) (q : ℚ) : Prop :=
  magnitude t bits < infinityMagnitude t ∧ number t bits = q

/-- A bit pattern is the float of a number or has none. -/
theorem number?_cases (t : FloatType) (bits : BitVec t.width) :
    (magnitude t bits < infinityMagnitude t ∧ (decode t bits).number? = some (number t bits)) ∨
      (infinityMagnitude t ≤ magnitude t bits ∧ (decode t bits).number? = none) := by
  rcases Nat.lt_trichotomy (magnitude t bits) (infinityMagnitude t) with hLess | hEqual | hGreater
  · exact .inl ⟨hLess, number?_decode hLess⟩
  · exact .inr ⟨hEqual.ge, by rw [decode_of_eq hEqual]; rfl⟩
  · exact .inr ⟨hGreater.le, by rw [decode_of_isNan (decide_eq_true hGreater)]; rfl⟩

end

/-! ## Order -/

section

variable {x y : BitVec t.width}

theorem isNan_eq_false_iff : isNan t x = false ↔ magnitude t x ≤ infinityMagnitude t := by
  rw [isNan, decide_eq_false_iff_not, Nat.not_lt]

/-- The order of the keys is that of the numbers. -/
theorem orderKey_le_iff (x y : BitVec t.width) :
    orderKey t x ≤ orderKey t y ↔ number t x ≤ number t y := by
  have hMono := strictMono_magnitudeNumber t
  have hX := magnitudeNumber_nonneg t (magnitude t x)
  have hY := magnitudeNumber_nonneg t (magnitude t y)
  have hZero {m : Nat} : magnitudeNumber t m ≤ 0 ↔ m = 0 := by
    rw [← magnitudeNumber_zero t, hMono.le_iff_le, Nat.le_zero]
  unfold orderKey number
  cases isNegative t x <;> cases isNegative t y
  · simpa [sign] using hMono.le_iff_le.symm
  · -- A number is at most the opposite of one only if both are zero.
    have hBoth : magnitudeNumber t (magnitude t x) ≤ -magnitudeNumber t (magnitude t y) ↔
        magnitudeNumber t (magnitude t x) ≤ 0 ∧ magnitudeNumber t (magnitude t y) ≤ 0 :=
      ⟨fun h => ⟨by linarith, by linarith⟩, fun h => by linarith⟩
    simp only [sign, one_mul, neg_one_mul, Bool.false_eq_true, if_false, if_true, hBoth, hZero]
    omega
  · simp only [sign, one_mul, neg_one_mul, Bool.false_eq_true, if_false, if_true]
    exact ⟨fun _ => by linarith, fun _ => by omega⟩
  · simpa [sign] using hMono.le_iff_le.symm

theorem le_iff (hX : isNan t x = false) (hY : isNan t y = false) :
    le t x y = true ↔ number t x ≤ number t y := by
  simpa [le, ordered, hX, hY] using orderKey_le_iff x y

theorem lt_iff (hX : isNan t x = false) (hY : isNan t y = false) :
    lt t x y = true ↔ number t x < number t y := by
  simpa [lt, ordered, hX, hY] using (orderKey_le_iff y x).not

end

namespace IsNumber

variable {x : BitVec t.width} {q : ℚ}

theorem isNan (h : IsNumber t x q) : isNan t x = false := isNan_eq_false_iff.2 h.1.le

theorem neg (h : IsNumber t x q) : IsNumber t (Floating.neg t x) (-q) := by
  refine ⟨?_, by rw [number_neg, h.2]⟩
  rw [Floating.neg, magnitude_ofMagnitude _ (magnitude_lt x)]
  exact h.1

theorem abs_lt (h : IsNumber t x q) : |q| < 2 ^ overflowExponent t := by
  have hLess := strictMono_magnitudeNumber t h.1
  have hNonneg := magnitudeNumber_nonneg t (magnitude t x)
  rw [magnitudeNumber_infinityMagnitude] at hLess
  rw [← h.2, number]
  cases isNegative t x <;> simpa [sign, abs_of_nonneg hNonneg] using hLess

end IsNumber

/-- An infinity comes before or after all numbers. -/
theorem infinite_beyond {x : BitVec t.width} (hInfinite : magnitude t x = infinityMagnitude t) :
    (∀ {y q}, IsNumber t y q → number t x < q) ∨ (∀ {y q}, IsNumber t y q → q < number t x) := by
  have hNumber : number t x = sign (isNegative t x) * 2 ^ overflowExponent t := by
    rw [number, hInfinite, magnitudeNumber_infinityMagnitude]
  rw [hNumber]
  cases isNegative t x with
  | true => exact .inl fun h => by simpa [sign] using (abs_lt.1 h.abs_lt).1
  | false => exact .inr fun h => by simpa [sign] using (abs_lt.1 h.abs_lt).2

end WasmMachine.Floating
