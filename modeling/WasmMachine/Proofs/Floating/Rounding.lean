import WasmMachine.Proofs.Floating.Meaning

/-!
# Rounding of exact numbers

Rounding counts how often the place of the result goes into a ratio. Where the ratio is a whole
number of places, nothing is rounded: a number that has a float is rounded to that float. And a
ratio below a power of two that has a float is not rounded beyond that power.

* `Floating.log2Ratio_spec`: the exponent of a ratio.
* `Floating.isNumber_roundRatio`: a ratio that has a float is rounded to it.
* `Floating.magnitudeNumber_roundRatio_le`: powers of two bound what is rounded.
-/

namespace WasmMachine.Floating

variable {t : FloatType}

/-! ## Powers of two -/

/-- A power of two is a quotient of which one side is one. -/
theorem zpow_eq_div (k : ℤ) : (2 : ℚ) ^ k = 2 ^ k.toNat / 2 ^ (-k).toNat := by
  have hParts : k = (k.toNat : ℤ) - (-k).toNat := by omega
  conv_lhs => rw [hParts]
  rw [zpow_sub₀ two_ne_zero, zpow_natCast, zpow_natCast]

/-- A scaled number as a ratio. -/
theorem ratio_eq (n : Nat) (k : ℤ) :
    ((n * 2 ^ k.toNat : Nat) : ℚ) / (2 ^ (-k).toNat : Nat) = n * 2 ^ k := by
  rw [zpow_eq_div]
  push_cast
  ring

/-- A ratio, counted in places of size `2 ^ k`. -/
theorem ratio_scaled (num den : Nat) (k : ℤ) :
    ((num * 2 ^ (-k).toNat : Nat) : ℚ) / (den * 2 ^ k.toNat : Nat) = (num : ℚ) / den / 2 ^ k := by
  rw [zpow_eq_div]
  push_cast
  field_simp

section

variable {num den : Nat}

theorem log2Ratio_spec (hNum : 0 < num) (hDen : 0 < den) :
    (2 : ℚ) ^ log2Ratio num den ≤ (num : ℚ) / den ∧
      (num : ℚ) / den < 2 ^ (log2Ratio num den + 1) := by
  have hDen' : (0 : ℚ) < den := by exact_mod_cast hDen
  have hNumLow : (2 : ℚ) ^ num.log2 ≤ num := by exact_mod_cast Nat.log2_self_le hNum.ne'
  have hNumHigh : (num : ℚ) < 2 ^ (num.log2 + 1) := by exact_mod_cast Nat.lt_log2_self
  have hDenLow : (2 : ℚ) ^ den.log2 ≤ den := by exact_mod_cast Nat.log2_self_le hDen.ne'
  have hDenHigh : (den : ℚ) < 2 ^ (den.log2 + 1) := by exact_mod_cast Nat.lt_log2_self
  have hTest : den * 2 ^ ((num.log2 : ℤ) - den.log2).toNat ≤
      num * 2 ^ (-((num.log2 : ℤ) - den.log2)).toNat ↔
        (2 : ℚ) ^ ((num.log2 : ℤ) - den.log2) ≤ (num : ℚ) / den := by
    rw [zpow_eq_div, div_le_div_iff₀ (by positivity) hDen', mul_comm ((2 : ℚ) ^ _)]
    exact_mod_cast Iff.rfl
  by_cases hGuess : (2 : ℚ) ^ ((num.log2 : ℤ) - den.log2) ≤ (num : ℚ) / den
  · have hLog : log2Ratio num den = (num.log2 : ℤ) - den.log2 := if_pos (hTest.2 hGuess)
    rw [hLog]
    refine ⟨hGuess, ?_⟩
    calc (num : ℚ) / den < 2 ^ (num.log2 + 1) / 2 ^ den.log2 := by gcongr
      _ = 2 ^ ((num.log2 : ℤ) - den.log2 + 1) := by
        rw [zpow_add_one₀ two_ne_zero, zpow_sub₀ two_ne_zero, zpow_natCast, zpow_natCast]
        ring
  · have hLog : log2Ratio num den = (num.log2 : ℤ) - den.log2 - 1 := if_neg (mt hTest.1 hGuess)
    rw [hLog, sub_add_cancel]
    refine ⟨?_, lt_of_not_ge hGuess⟩
    calc (2 : ℚ) ^ ((num.log2 : ℤ) - den.log2 - 1) = 2 ^ num.log2 / 2 ^ (den.log2 + 1) := by
          rw [zpow_sub_one₀ two_ne_zero, zpow_sub₀ two_ne_zero, zpow_natCast, zpow_natCast,
            pow_succ]
          ring
      _ ≤ (num : ℚ) / den := by gcongr

/-! ## Quotients -/

theorem roundDiv_mul (q : Nat) (hDen : 0 < den) : roundDiv (den * q) den = q := by
  unfold roundDiv
  simp only [Nat.mul_mod_right, Nat.mul_zero]
  rw [if_pos hDen, Nat.mul_div_cancel_left _ hDen]

theorem le_roundDiv {q : Nat} (h : den * q ≤ num) (hDen : 0 < den) : q ≤ roundDiv num den := by
  have hQuotient : q ≤ num / den := (Nat.le_div_iff_mul_le hDen).2 (by rwa [Nat.mul_comm])
  unfold roundDiv
  dsimp only
  split
  · exact hQuotient
  · split <;> omega

theorem roundDiv_le {q : Nat} (h : num ≤ den * q) (hDen : 0 < den) : roundDiv num den ≤ q := by
  rcases h.lt_or_eq with hLess | rfl
  · have hQuotient : num / den < q := (Nat.div_lt_iff_lt_mul hDen).2 (by rwa [Nat.mul_comm])
    unfold roundDiv
    dsimp only
    split
    · exact hQuotient.le
    · split <;> omega
  · exact (roundDiv_mul q hDen).le

end

/-! ## Ratios -/

section

variable {num den : Nat}

/-- The exponent of the place to which a ratio is rounded. -/
def placeExponent (t : FloatType) (num den : Nat) : ℤ :=
  Max.max t.leastExponent (log2Ratio num den - t.fractionBits)

/-- The number of places in a rounded ratio. -/
def places (t : FloatType) (num den : Nat) : Nat :=
  roundDiv (num * 2 ^ (-placeExponent t num den).toNat) (den * 2 ^ (placeExponent t num den).toNat)

/-- The magnitude of a rounded ratio before those beyond the infinities are cut off. -/
def roundedMagnitude (t : FloatType) (num den : Nat) : Nat :=
  (placeExponent t num den - t.leastExponent).toNat * 2 ^ t.fractionBits + places t num den

theorem roundRatio_eq (t : FloatType) (negative : Bool) (hNum : 0 < num) (den : Nat) :
    roundRatio t negative num den =
      ofMagnitude t negative (Min.min (roundedMagnitude t num den) (infinityMagnitude t)) :=
  if_neg hNum.ne'

theorem places_eq (hDen : 0 < den) {q : Nat}
    (h : (num : ℚ) / den = q * 2 ^ placeExponent t num den) : places t num den = q := by
  have hPlace : (0 : ℚ) < 2 ^ placeExponent t num den := by positivity
  have hScaledDen : 0 < den * 2 ^ (placeExponent t num den).toNat := by positivity
  have hScaled := ratio_scaled num den (placeExponent t num den)
  rw [h, mul_div_cancel_right₀ _ hPlace.ne', div_eq_iff (by positivity)] at hScaled
  have hExact : num * 2 ^ (-placeExponent t num den).toNat =
      den * 2 ^ (placeExponent t num den).toNat * q := by
    rw [Nat.mul_comm _ q]
    exact_mod_cast hScaled
  rw [places, hExact, roundDiv_mul q hScaledDen]

theorem places_le (hDen : 0 < den) {q : Nat}
    (h : (num : ℚ) / den ≤ q * 2 ^ placeExponent t num den) : places t num den ≤ q := by
  have hPlace : (0 : ℚ) < 2 ^ placeExponent t num den := by positivity
  have hScaledDen : 0 < den * 2 ^ (placeExponent t num den).toNat := by positivity
  rw [← div_le_iff₀ hPlace, ← ratio_scaled, div_le_iff₀ (by positivity)] at h
  refine roundDiv_le ?_ hScaledDen
  rw [Nat.mul_comm _ q]
  exact_mod_cast h

theorem le_places (hDen : 0 < den) {q : Nat}
    (h : q * 2 ^ placeExponent t num den ≤ (num : ℚ) / den) : q ≤ places t num den := by
  have hPlace : (0 : ℚ) < 2 ^ placeExponent t num den := by positivity
  have hScaledDen : 0 < den * 2 ^ (placeExponent t num den).toNat := by positivity
  rw [← le_div_iff₀ hPlace, ← ratio_scaled, le_div_iff₀ (by positivity)] at h
  refine le_roundDiv ?_ hScaledDen
  rw [Nat.mul_comm _ q]
  exact_mod_cast h

/-- The rounded ratio is the number of its places. -/
theorem magnitudeNumber_roundedMagnitude (hNum : 0 < num) (hDen : 0 < den) :
    magnitudeNumber t (roundedMagnitude t num den) =
      places t num den * 2 ^ placeExponent t num den := by
  obtain ⟨hLow, hHigh⟩ := log2Ratio_spec hNum hDen
  have hMost : places t num den ≤ 2 ^ (t.fractionBits + 1) := by
    refine places_le hDen (hHigh.le.trans ?_)
    have hExponent : log2Ratio num den + 1 ≤
        (t.fractionBits + 1 : Nat) + placeExponent t num den := by
      unfold placeExponent
      omega
    push_cast
    rw [← zpow_natCast, ← zpow_add₀ two_ne_zero]
    exact zpow_le_zpow_right₀ one_le_two hExponent
  have hNormal : (placeExponent t num den - t.leastExponent).toNat = 0 ∨
      2 ^ t.fractionBits ≤ places t num den := by
    rcases le_total (log2Ratio num den - t.fractionBits) t.leastExponent with hLess | hMore
    · refine .inl ?_
      rw [placeExponent, max_eq_left hLess, sub_self, Int.toNat_zero]
    · refine .inr (le_places hDen (le_trans ?_ hLow))
      rw [placeExponent, max_eq_right hMore]
      push_cast
      rw [← zpow_natCast, ← zpow_add₀ two_ne_zero, add_sub_cancel]
  have hExponent : t.leastExponent + (placeExponent t num den - t.leastExponent).toNat =
      placeExponent t num den := by
    have hLeast : t.leastExponent ≤ placeExponent t num den := le_max_left _ _
    omega
  rw [roundedMagnitude, magnitudeNumber_places hMost hNormal, hExponent]

/-- A number that is a whole number of places is one of smaller places, too. -/
theorem roundedMagnitude_exact (hNum : 0 < num) (hDen : 0 < den) {c : Nat} {k : ℤ}
    (hValue : (num : ℚ) / den = c * 2 ^ k) (hBits : c < 2 ^ (t.fractionBits + 1))
    (hExponent : t.leastExponent ≤ k) :
    magnitudeNumber t (roundedMagnitude t num den) = (num : ℚ) / den := by
  have hFine : placeExponent t num den ≤ k := by
    have hLess : (2 : ℚ) ^ log2Ratio num den < 2 ^ ((t.fractionBits + 1 : Nat) + k) := by
      refine (log2Ratio_spec hNum hDen).1.trans_lt ?_
      rw [hValue, zpow_add₀ two_ne_zero, zpow_natCast]
      gcongr
      exact_mod_cast hBits
    have hLog := (zpow_lt_zpow_iff_right₀ one_lt_two).1 hLess
    unfold placeExponent
    omega
  have hPlaces : (num : ℚ) / den =
      (c * 2 ^ (k - placeExponent t num den).toNat : Nat) * 2 ^ placeExponent t num den := by
    rw [hValue, Nat.cast_mul, Nat.cast_pow, Nat.cast_two, mul_assoc, ← zpow_natCast,
      ← zpow_add₀ two_ne_zero, Int.toNat_of_nonneg (by omega), sub_add_cancel]
  rw [magnitudeNumber_roundedMagnitude hNum hDen, places_eq hDen hPlaces, ← hPlaces]

/-- Rounding does not pass a power of two that is one of the floats with all their places. -/
theorem roundedMagnitude_le (hNum : 0 < num) (hDen : 0 < den) {k : ℤ}
    (hValue : (num : ℚ) / den ≤ 2 ^ k) (hExponent : t.leastExponent + t.fractionBits ≤ k) :
    magnitudeNumber t (roundedMagnitude t num den) ≤ 2 ^ k := by
  have hFine : placeExponent t num den ≤ k := by
    have hLog := (zpow_le_zpow_iff_right₀ one_lt_two).1
      ((log2Ratio_spec hNum hDen).1.trans hValue)
    unfold placeExponent
    omega
  have hPower : (2 : ℚ) ^ k = (2 ^ (k - placeExponent t num den).toNat : Nat) *
      2 ^ placeExponent t num den := by
    rw [Nat.cast_pow, Nat.cast_two, ← zpow_natCast, ← zpow_add₀ two_ne_zero,
      Int.toNat_of_nonneg (by omega), sub_add_cancel]
  rw [magnitudeNumber_roundedMagnitude hNum hDen, hPower]
  gcongr
  exact places_le hDen (hValue.trans hPower.le)

/-! ## Floats -/

theorem number_zero (t : FloatType) (negative : Bool) :
    magnitude t (zero t negative) = 0 ∧ number t (zero t negative) = 0 := by
  have hZero : 0 < 2 ^ (t.width - 1) := Nat.two_pow_pos _
  rw [zero, magnitude_ofMagnitude negative hZero, number_ofMagnitude negative hZero,
    magnitudeNumber_zero, mul_zero]
  exact ⟨rfl, rfl⟩

/-- A ratio that is not rounded beyond the greatest float. -/
theorem roundRatio_of_lt (negative : Bool) (hNum : 0 < num)
    (h : magnitudeNumber t (roundedMagnitude t num den) < 2 ^ overflowExponent t) :
    magnitude t (roundRatio t negative num den) = roundedMagnitude t num den ∧
      roundedMagnitude t num den < infinityMagnitude t ∧
      number t (roundRatio t negative num den) =
        sign negative * magnitudeNumber t (roundedMagnitude t num den) := by
  rw [← magnitudeNumber_infinityMagnitude, (strictMono_magnitudeNumber t).lt_iff_lt] at h
  have hBits := h.trans (infinityMagnitude_lt t)
  rw [roundRatio_eq t negative hNum, min_eq_left h.le, magnitude_ofMagnitude negative hBits,
    number_ofMagnitude negative hBits]
  exact ⟨rfl, h, rfl⟩

/-- A number that has a float is rounded to it. -/
theorem isNumber_roundRatio (negative : Bool) (hDen : 0 < den) {c : Nat} {k : ℤ}
    (hValue : (num : ℚ) / den = c * 2 ^ k) (hBits : c < 2 ^ (t.fractionBits + 1))
    (hExponent : t.leastExponent ≤ k) (hBound : (num : ℚ) / den < 2 ^ overflowExponent t) :
    IsNumber t (roundRatio t negative num den) (sign negative * ((num : ℚ) / den)) := by
  rcases num.eq_zero_or_pos with rfl | hNum
  · obtain ⟨hMagnitude, hNumber⟩ := number_zero t negative
    have hZero : roundRatio t negative 0 den = zero t negative := if_pos rfl
    rw [hZero, IsNumber, hMagnitude, hNumber]
    exact ⟨by cases t <;> decide, by simp⟩
  · have hExact := roundedMagnitude_exact hNum hDen hValue hBits hExponent
    obtain ⟨hMagnitude, hLess, hNumber⟩ := roundRatio_of_lt negative hNum (hExact.trans_lt hBound)
    rw [IsNumber, hMagnitude, hNumber, hExact]
    exact ⟨hLess, rfl⟩

theorem isNumber_roundScaled (negative : Bool) {mantissa c : Nat} {exponent k : ℤ}
    (hValue : (mantissa * 2 ^ exponent : ℚ) = c * 2 ^ k) (hBits : c < 2 ^ (t.fractionBits + 1))
    (hExponent : t.leastExponent ≤ k)
    (hBound : (mantissa * 2 ^ exponent : ℚ) < 2 ^ overflowExponent t) :
    IsNumber t (roundScaled t negative mantissa exponent)
      (sign negative * (mantissa * 2 ^ exponent)) := by
  rw [← ratio_eq] at hValue hBound ⊢
  exact isNumber_roundRatio negative (Nat.two_pow_pos _) hValue hBits hExponent hBound

/-- Powers of two bound what is rounded. -/
theorem magnitudeNumber_roundRatio_le (negative : Bool) (hDen : 0 < den) {k : ℤ}
    (hValue : (num : ℚ) / den ≤ 2 ^ k) (hExponent : t.leastExponent + t.fractionBits ≤ k)
    (hBound : k < overflowExponent t) :
    magnitude t (roundRatio t negative num den) < infinityMagnitude t ∧
      magnitudeNumber t (magnitude t (roundRatio t negative num den)) ≤ 2 ^ k := by
  rcases num.eq_zero_or_pos with rfl | hNum
  · have hZero : roundRatio t negative 0 den = zero t negative := if_pos rfl
    rw [hZero, (number_zero t negative).1, magnitudeNumber_zero]
    exact ⟨by cases t <;> decide, by positivity⟩
  · have hMost := roundedMagnitude_le hNum hDen hValue hExponent
    have hOverflow : (2 : ℚ) ^ k < 2 ^ overflowExponent t := by
      rw [← zpow_natCast]
      exact zpow_lt_zpow_right₀ one_lt_two hBound
    obtain ⟨hMagnitude, hLess, -⟩ := roundRatio_of_lt negative hNum (hMost.trans_lt hOverflow)
    rw [hMagnitude]
    exact ⟨hLess, hMost⟩

/-- A whole number of few bits has a float. -/
theorem isNumber_ofInt {v : ℤ} (c k : Nat) (hValue : v.natAbs = c * 2 ^ k)
    (hBits : c < 2 ^ (t.fractionBits + 1))
    (hExponent : t.fractionBits + 1 + k ≤ overflowExponent t) : IsNumber t (ofInt t v) v := by
  have hLeast : t.leastExponent ≤ (k : ℤ) :=
    le_trans (by cases t <;> decide) (Int.natCast_nonneg k)
  have hRatio : (v.natAbs : ℚ) / (1 : Nat) = v.natAbs := by simp
  have hScaled : (v.natAbs : ℚ) / (1 : Nat) = c * 2 ^ (k : ℤ) := by
    rw [hRatio, hValue]
    push_cast
    rw [zpow_natCast]
  have hBound : (v.natAbs : ℚ) / (1 : Nat) < 2 ^ overflowExponent t := by
    calc (v.natAbs : ℚ) / (1 : Nat) = c * 2 ^ k := by rw [hScaled, zpow_natCast]
      _ < 2 ^ (t.fractionBits + 1) * 2 ^ k := by gcongr; exact_mod_cast hBits
      _ = 2 ^ (t.fractionBits + 1 + k) := (pow_add 2 _ _).symm
      _ ≤ 2 ^ overflowExponent t := pow_le_pow_right₀ one_le_two hExponent
  obtain ⟨hFinite, hNumber⟩ := isNumber_roundRatio (decide (v < 0)) Nat.one_pos hScaled hBits hLeast
    hBound
  refine ⟨hFinite, hNumber.trans ?_⟩
  rw [hRatio, sign, Nat.cast_natAbs, Int.cast_abs]
  rcases lt_or_ge v 0 with hNegative | hNonneg
  · rw [decide_eq_true hNegative, if_pos rfl, abs_of_neg (by exact_mod_cast hNegative)]
    ring
  · rw [decide_eq_false hNonneg.not_gt, if_neg Bool.false_ne_true, one_mul,
      abs_of_nonneg (by exact_mod_cast hNonneg)]

end

end WasmMachine.Floating
