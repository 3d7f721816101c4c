import Mathlib.Algebra.Group.Int.Defs
import Mathlib.Algebra.Group.Nat.Defs
import WasmMachine.Proofs.Code.Forms
import WasmMachine.Proofs.Instance.Constants

/-!
# Written numbers

A number is read back as it was written, wherever it stands, and no other form of it is shorter.
Both kinds of numbers follow one pattern: `n` groups hold the numbers of a range, the writer needs
no more than `n` groups for a number of that range, and a reader that takes `n` groups gives a
number of that range, also where the width cuts off bits of the last group.

* `isVarint_encodeUnsigned`, `isVarint_encodeSigned`: a number of the range of `n` groups is
  written in at most `n` groups.
* `roundTrips`: reading inverts writing, and the written form is the shortest.
-/

namespace WasmMachine

/-! ## Forms of numbers -/

theorem IsVarint.length_le {limit : Nat} {digits : List UInt8} (h : IsVarint limit digits) :
    digits.length ≤ limit := by
  induction h with
  | last => exact Nat.succ_le_succ (Nat.zero_le _)
  | more _ _ ih => exact Nat.succ_le_succ ih

theorem IsVarint.exists_length_eq {limit : Nat} {digits : List UInt8}
    (h : IsVarint limit digits) : ∃ n, digits.length = n + 1 := by
  cases h <;> exact ⟨_, rfl⟩

namespace Leb128

theorem pow_group_succ (n : Nat) : Nat.pow 128 (n + 1) = Nat.pow 128 n * 128 := rfl

/-- The byte of a last group. -/
theorem toNat_lastByte {low : Nat} (h : low < 128) : (UInt8.ofNat low).toNat = low := by
  rw [UInt8.toNat_ofNat']
  omega

/-- The byte of a group that others follow. -/
theorem toNat_moreByte {low : Nat} (h : low < 128) :
    (UInt8.ofNat (low + 128)).toNat = low + 128 := by
  rw [UInt8.toNat_ofNat']
  omega

theorem digitGroups_last {low : Nat} (h : low < 128) :
    digitGroups [UInt8.ofNat low] = [low] := by
  simp only [digitGroups, List.map_cons, List.map_nil, toNat_lastByte h, Nat.mod_eq_of_lt h]

theorem digitGroups_more {low : Nat} {rest : List UInt8} (h : low < 128) :
    digitGroups (UInt8.ofNat (low + 128) :: rest) = low :: digitGroups rest := by
  simp only [digitGroups, List.map_cons, toNat_moreByte h, Nat.add_mod_right, Nat.mod_eq_of_lt h]

/-! ## Unsigned numbers -/

theorem unsignedValue_digitGroups_lt (digits : List UInt8) :
    unsignedValue (digitGroups digits) < Nat.pow 128 digits.length := by
  induction digits with
  | nil => exact Nat.one_pos
  | cons b rest ih =>
    change b.toNat % 128 + 128 * unsignedValue (digitGroups rest) < Nat.pow 128 (rest.length + 1)
    rw [pow_group_succ]
    omega

theorem unsignedValue_encodeUnsigned (n : Nat) :
    unsignedValue (digitGroups (encodeUnsigned n)) = n := by
  induction n using encodeUnsigned.induct with
  | case1 n hSmall =>
    rw [encodeUnsigned, if_pos hSmall, digitGroups_last hSmall]
    rfl
  | case2 n hLarge ih =>
    rw [encodeUnsigned, if_neg hLarge, digitGroups_more (Nat.mod_lt n (by decide)),
      unsignedValue, ih]
    exact Nat.mod_add_div n 128

/-- A number below the power of 128 is written in that many groups at most. -/
theorem isVarint_encodeUnsigned {limit n : Nat} (h : n < Nat.pow 128 (limit + 1)) :
    IsVarint (limit + 1) (encodeUnsigned n) := by
  induction limit generalizing n with
  | zero =>
    have hSmall : n < 128 := h
    rw [encodeUnsigned, if_pos hSmall]
    exact .last (by rwa [toNat_lastByte hSmall])
  | succ limit ih =>
    rw [encodeUnsigned]
    split
    · rename_i hSmall
      exact .last (by rwa [toNat_lastByte hSmall])
    · refine .more ?_ (ih ?_)
      · rw [toNat_moreByte (Nat.mod_lt n (by decide))]
        omega
      · rw [pow_group_succ (limit + 1)] at h
        omega

/-! ## Signed numbers -/

/-- The integers that have a two's-complement form of `n` groups. -/
def SignedRange (n : Nat) (v : Int) : Prop :=
  -(Nat.pow 128 n : Int) ≤ 2 * v ∧ 2 * v < (Nat.pow 128 n : Int)

theorem signedValue_singleton (g : Nat) :
    signedValue [g] = if 2 * g < 128 then (g : Int) else (g : Int) - 128 := rfl

/-- The sign of a number is that of its groups without the lowest one. -/
theorem signedValue_cons {g : Nat} {rest : List Nat} (hGroup : g < 128) (hRest : rest ≠ []) :
    signedValue (g :: rest) = g + 128 * signedValue rest := by
  obtain ⟨n, hLength⟩ : ∃ n, rest.length = n + 1 :=
    Nat.exists_eq_succ_of_ne_zero (mt List.eq_nil_of_length_eq_zero hRest)
  have hModulus : Nat.pow 128 (g :: rest).length = Nat.pow 128 rest.length * 128 := rfl
  have hEven : Nat.pow 128 rest.length = Nat.pow 128 n * 128 := by rw [hLength]; rfl
  simp only [signedValue, unsignedValue, hModulus]
  generalize Nat.pow 128 rest.length = modulus at hEven
  generalize unsignedValue rest = value
  -- The modulus is even, so that the lowest group does not decide the comparison.
  split <;> split <;> omega

theorem signedRange_digitGroups {digits : List UInt8} :
    SignedRange digits.length (signedValue (digitGroups digits)) := by
  have hValue := unsignedValue_digitGroups_lt digits
  have hLength : (digitGroups digits).length = digits.length := List.length_map ..
  simp only [SignedRange, signedValue, hLength]
  generalize Nat.pow 128 digits.length = modulus at hValue
  split <;> omega

theorem encodeSigned_ne_nil (v : Int) : encodeSigned v ≠ [] := by
  rw [encodeSigned]
  split <;> exact List.cons_ne_nil _ _

theorem signedValue_encodeSigned (v : Int) :
    signedValue (digitGroups (encodeSigned v)) = v := by
  induction v using encodeSigned.induct with
  | case1 v low rest hLast =>
    have hLow : low < 128 := by omega
    rw [encodeSigned, if_pos hLast, digitGroups_last hLow, signedValue_singleton]
    split <;> omega
  | case2 v low rest hMore ih =>
    have hLow : low < 128 := by omega
    have hRest : digitGroups (encodeSigned rest) ≠ [] :=
      mt List.map_eq_nil_iff.1 (encodeSigned_ne_nil rest)
    rw [encodeSigned, if_neg hMore, digitGroups_more hLow, signedValue_cons hLow hRest, ih]
    omega

/-- A number of the range of some groups is written in that many groups at most. -/
theorem isVarint_encodeSigned {limit : Nat} {v : Int} (h : SignedRange (limit + 1) v) :
    IsVarint (limit + 1) (encodeSigned v) := by
  induction limit generalizing v with
  | zero =>
    obtain ⟨hLower, hUpper⟩ : -128 ≤ 2 * v ∧ 2 * v < 128 := h
    rw [encodeSigned, if_pos (by omega)]
    refine .last ?_
    rw [toNat_lastByte] <;> omega
  | succ limit ih =>
    rw [encodeSigned]
    split
    · refine .last ?_
      rw [toNat_lastByte] <;> omega
    · refine .more ?_ (ih ?_)
      · rw [toNat_moreByte] <;> omega
      · obtain ⟨hLower, hUpper⟩ := h
        rw [pow_group_succ] at hLower hUpper
        have hEven := pow_group_succ limit
        simp only [SignedRange]
        generalize Nat.pow 128 (limit + 1) = modulus at *
        omega

/-! ## Reading what was written -/

/-- A reader and a writer of numbers with at most `limit` groups fit together, and the writer
spends no byte too many. -/
structure RoundTrips {α : Type} (limit : Nat)
    (decode : Bytes → Nat → Except VarintError (α × Nat)) (encode : α → List UInt8) : Prop where
  /-- A number is read back between any other bytes, and its bytes are all that is taken. -/
  inverse : ∀ v before after, decode (before ++ encode v ++ after).toArray before.length =
    .ok (v, before.length + (encode v).length)
  length_le : ∀ v, (encode v).length ≤ limit
  /-- No shorter bytes are, to their end, the same number. -/
  shortest : ∀ v (form : List UInt8), form.length < (encode v).length →
    decode form.toArray 0 ≠ .ok (v, form.length)

/-- The pattern of both kinds of numbers. -/
theorem roundTrips_of_range {α : Type} {limit : Nat}
    {decode : Bytes → Nat → Except VarintError (α × Nat)} {encode : α → List UInt8}
    (value : List UInt8 → α) (range : Nat → α → Prop)
    (hDecode : ∀ {bytes pos v next}, decode bytes pos = .ok (v, next) ↔
      ∃ digits, IsVarint (limit + 1) digits ∧ StandsAt bytes pos digits ∧ v = value digits ∧
        next = pos + digits.length)
    (hInverse : ∀ v, value (encode v) = v) (hAll : ∀ v, range (limit + 1) v)
    (hWritten : ∀ {n v}, range (n + 1) v → IsVarint (n + 1) (encode v))
    (hValue : ∀ digits, range digits.length (value digits)) :
    RoundTrips (limit + 1) decode encode where
  inverse v before after :=
    hDecode.2 ⟨encode v, hWritten (hAll v), .behind before (encode v) after, (hInverse v).symm, rfl⟩
  length_le v := (hWritten (hAll v)).length_le
  shortest v form hShort hForm := by
    obtain ⟨digits, hDigits, -, rfl, hLength⟩ := hDecode.1 hForm
    obtain ⟨n, hn⟩ := hDigits.exists_length_eq
    have hRange := hValue digits
    rw [hn] at hRange
    have hFits := (hWritten hRange).length_le
    omega

theorem roundTrips_u32 : RoundTrips 5 decodeU32 encodeU32 := by
  refine roundTrips_of_range countOf (fun n v => v.toNat < Nat.pow 128 n)
    ?_ (fun v => ?_) (fun v => ?_) isVarint_encodeUnsigned (fun digits => ?_)
  · intro bytes pos v next
    refine decodeU32_eq_ok_iff.trans (exists_congr fun digits => ?_)
    rw [and_assoc]
    exact and_congr_right fun _ => and_left_comm
  · rw [countOf, encodeU32, unsignedValue_encodeUnsigned, UInt32.ofNat_toNat]
  · exact Nat.lt_trans v.toNat_lt (by decide)
  · rw [countOf, UInt32.toNat_ofNat']
    exact Nat.lt_of_le_of_lt (Nat.mod_le _ _) (unsignedValue_digitGroups_lt digits)

/-- Cutting a number down to a width does not take it out of the range of its groups. -/
theorem signedRange_ofInt {width n : Nat} {v : Int} (h : SignedRange n v) :
    SignedRange n (BitVec.ofInt width v).toInt := by
  have hPos : 0 < 2 ^ width := Nat.two_pow_pos width
  obtain ⟨hLower, hUpper⟩ := h
  simp only [SignedRange]
  rw [BitVec.toInt_ofInt]
  generalize 2 ^ width = modulus at hPos
  by_cases hFits : -(modulus : Int) ≤ 2 * v ∧ 2 * v < modulus
  · rw [Int.bmod_eq_of_le (by omega) (by omega)]
    exact ⟨hLower, hUpper⟩
  · have hLow := Int.le_bmod (x := v) hPos
    have hHigh := Int.bmod_lt (x := v) hPos
    omega

theorem signedRange_toInt {width n : Nat} (hWide : 2 ^ width ≤ Nat.pow 128 n)
    (v : BitVec width) : SignedRange n v.toInt := by
  have hLower := v.le_two_mul_toInt
  have hUpper := v.two_mul_toInt_lt
  have hModulus : (2 : Int) ^ width ≤ (Nat.pow 128 n : Int) := by exact_mod_cast hWide
  simp only [SignedRange]
  generalize (2 : Int) ^ width = modulus at hLower hUpper hModulus
  clear hWide
  omega

theorem roundTrips_signed {width limit : Nat} (hLimit : groupLimit width = limit + 1)
    (hWide : 2 ^ width ≤ Nat.pow 128 (limit + 1)) :
    RoundTrips (limit + 1) (decodeSigned width) (fun v => encodeSigned v.toInt) := by
  refine roundTrips_of_range
    (fun digits => BitVec.ofInt width (signedValue (digitGroups digits)))
    (fun n v => SignedRange n v.toInt)
    ?_ (fun v => ?_) (fun v => signedRange_toInt hWide v) isVarint_encodeSigned
    (fun digits => signedRange_ofInt signedRange_digitGroups)
  · rw [← hLimit]
    exact decodeSigned_eq_ok_iff
  · rw [signedValue_encodeSigned, BitVec.ofInt_toInt]

/-- Every number is read back as it was written, wherever it stands; it takes at most five or ten
bytes, and no form of it is shorter. -/
theorem roundTrips : RoundTrips 5 decodeU32 encodeU32 ∧ RoundTrips 5 decodeS32 encodeS32 ∧
    RoundTrips 10 decodeS64 encodeS64 :=
  ⟨roundTrips_u32, roundTrips_signed rfl (by decide), roundTrips_signed rfl (by decide)⟩

end Leb128

end WasmMachine
