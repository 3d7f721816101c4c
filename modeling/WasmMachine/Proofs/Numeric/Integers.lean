import Mathlib
import WasmMachine.Proofs.Store.Accesses

/-!
# Integer instructions

A word stands for two integers, with a sign and without. The integer instructions compute what
arithmetic says about these integers, for words of either width: sums, differences and products up
to a multiple of `2 ^ n`, quotients rounded toward zero and the remainders that go with them, shifts
as products and quotients by powers of two, and the numbers of bits.

* `IntRelation.Holds`, `IntUnary.Counts`, `IntBinary.Computes`: the meaning of the operations.
* `Integer.holds_compare`, `Integer.counts_unary`, `Integer.computes_binary`: the operations on
  words have that meaning.
* `IntegerOperation.dispatch_computes`: so have the instructions, and they touch nothing else.
-/

namespace WasmMachine

open Stack

/-! ## Meaning -/

section

variable {n : Nat}

/-- A relation between the integers that two words stand for. -/
def IntRelation.Holds : IntRelation → BitVec n → BitVec n → Prop
  | .eq, a, b => a.toNat = b.toNat
  | .ne, a, b => a.toNat ≠ b.toNat
  | .lt s, a, b => Integer.read s a < Integer.read s b
  | .gt s, a, b => Integer.read s b < Integer.read s a
  | .le s, a, b => Integer.read s a ≤ Integer.read s b
  | .ge s, a, b => Integer.read s b ≤ Integer.read s a

/-- A number of bits of a word: of the zeros above its highest one, of the zeros below its lowest
one, or of its ones. A word without ones has as many zeros as it is wide. -/
def IntUnary.Counts : IntUnary → BitVec n → Nat → Prop
  | .clz, a, k => (a = 0 ∧ k = n) ∨
    k < n ∧ (∀ i < k, a.getMsbD i = false) ∧ a.getMsbD k = true
  | .ctz, a, k => (a = 0 ∧ k = n) ∨
    k < n ∧ (∀ i < k, a.getLsbD i = false) ∧ a.getLsbD k = true
  | .popcnt, a, k => k = (List.range n).countP fun i => a.getLsbD i

/-- What arithmetic says about the result of an operation on two words. Only a quotient can fail to
exist: by zero, or where it is the one integer above the range of signed words. -/
def IntBinary.Computes : IntBinary → (a b : BitVec n) → Except IntFailure (BitVec n) → Prop
  | .add, a, b, r => ∃ w, r = .ok w ∧ (w.toNat : Int) = (a.toInt + b.toInt) % 2 ^ n
  | .sub, a, b, r => ∃ w, r = .ok w ∧ (w.toNat : Int) = (a.toInt - b.toInt) % 2 ^ n
  | .mul, a, b, r => ∃ w, r = .ok w ∧ (w.toNat : Int) = (a.toInt * b.toInt) % 2 ^ n
  | .div .signed, a, b, r =>
    (b.toInt = 0 ∧ r = .error .divisionByZero) ∨
    (a.toInt = -2 ^ (n - 1) ∧ b.toInt = -1 ∧ r = .error .notRepresentable) ∨
    b.toInt ≠ 0 ∧ ¬ (a.toInt = -2 ^ (n - 1) ∧ b.toInt = -1) ∧
      ∃ w, r = .ok w ∧ w.toInt = a.toInt.tdiv b.toInt
  | .div .unsigned, a, b, r =>
    (b.toNat = 0 ∧ r = .error .divisionByZero) ∨
    b.toNat ≠ 0 ∧ ∃ w, r = .ok w ∧ w.toNat = a.toNat / b.toNat
  | .rem .signed, a, b, r =>
    (b.toInt = 0 ∧ r = .error .divisionByZero) ∨
    b.toInt ≠ 0 ∧ ∃ w, r = .ok w ∧ a.toInt = b.toInt * a.toInt.tdiv b.toInt + w.toInt ∧
      (b.toInt = -1 → w.toInt = 0)
  | .rem .unsigned, a, b, r =>
    (b.toNat = 0 ∧ r = .error .divisionByZero) ∨
    b.toNat ≠ 0 ∧ ∃ w, r = .ok w ∧ w.toNat = a.toNat % b.toNat
  | .and, a, b, r => ∃ w, r = .ok w ∧ ∀ i, w.getLsbD i = (a.getLsbD i && b.getLsbD i)
  | .or, a, b, r => ∃ w, r = .ok w ∧ ∀ i, w.getLsbD i = (a.getLsbD i || b.getLsbD i)
  | .xor, a, b, r => ∃ w, r = .ok w ∧ ∀ i, w.getLsbD i = (a.getLsbD i ^^ b.getLsbD i)
  | .shl, a, b, r => ∃ w, r = .ok w ∧ w.toNat = a.toNat * 2 ^ (b.toNat % n) % 2 ^ n
  | .shr .signed, a, b, r => ∃ w, r = .ok w ∧ w.toInt = ⌊(a.toInt : ℚ) / 2 ^ (b.toNat % n)⌋
  | .shr .unsigned, a, b, r => ∃ w, r = .ok w ∧ w.toNat = a.toNat / 2 ^ (b.toNat % n)
  | .rotl, a, b, r => ∃ w, r = .ok w ∧
    w = a <<< (b.toNat % n) ||| a >>> (n - b.toNat % n) ∧ Integer.binary .rotr w b = .ok a
  | .rotr, a, b, r => ∃ w, r = .ok w ∧
    w = a >>> (b.toNat % n) ||| a <<< (n - b.toNat % n) ∧ Integer.binary .rotl w b = .ok a

end

/-! ## Operations on words -/

namespace Integer

variable {n : Nat}

theorem holds_compare (r : IntRelation) (a b : BitVec n) :
    compare r a b = true ↔ r.Holds a b := by
  cases r with
  | eq => exact beq_iff_eq.trans BitVec.toNat_inj.symm
  | ne => exact bne_iff_ne.trans BitVec.toNat_inj.symm.not
  | lt s | gt s =>
    cases s with
    | signed => exact BitVec.slt_iff_toInt_lt
    | unsigned => exact BitVec.ult_iff_toNat_lt.trans Int.ofNat_lt.symm
  | le s | ge s =>
    cases s with
    | signed => exact BitVec.sle_iff_toInt_le
    | unsigned => exact BitVec.ule_iff_toNat_le.trans Int.ofNat_le.symm

/-! ### Numbers of bits -/

theorem counts_ctz (a : BitVec n) : IntUnary.ctz.Counts a a.ctz.toNat := by
  by_cases hZero : a = 0
  · refine .inl ⟨hZero, ?_⟩
    have hClz : a.reverse.clz = n := BitVec.clz_eq_iff_eq_zero.2 (by simp [hZero])
    rw [BitVec.ctz_eq_reverse_clz, hClz]
    simp
  · have hOne := BitVec.getLsbD_true_ctz_of_ne_zero hZero
    exact .inr ⟨BitVec.lt_of_getLsbD hOne, fun i hi => BitVec.getLsbD_false_of_lt_ctz hi, hOne⟩

/-- The zeros above the highest one are those below the lowest one of the reversed word. -/
theorem counts_clz (a : BitVec n) : IntUnary.clz.Counts a a.clz.toNat := by
  have hReverse := counts_ctz a.reverse
  rw [← BitVec.clz_eq_reverse_ctz] at hReverse
  simpa only [IntUnary.Counts, BitVec.getLsbD_reverse, BitVec.ofNat_eq_ofNat,
    BitVec.reverse_eq_zero_iff] using hReverse

theorem cpopNatRec_eq_countP (a : BitVec n) (k : Nat) :
    a.cpopNatRec k 0 = (List.range k).countP fun i => a.getLsbD i := by
  induction k with
  | zero => rfl
  | succ k ih =>
    rw [BitVec.cpopNatRec_succ, BitVec.cpopNatRec_eq, ih, List.range_succ, List.countP_append,
      List.countP_singleton]
    cases a.getLsbD k <;> simp

theorem counts_unary (op : IntUnary) (a : BitVec n) : op.Counts a (unary op a).toNat := by
  cases op with
  | clz => exact counts_clz a
  | ctz => exact counts_ctz a
  | popcnt => exact (BitVec.toNat_cpop a).trans (cpopNatRec_eq_countP a n)

/-! ### Sums and products -/

/-- The word of an integer is what is left of it modulo the number of words. -/
theorem toNat_ofInt_eq_emod (v : Int) : ((BitVec.ofInt n v).toNat : Int) = v % 2 ^ n := by
  have hPos : (0 : Int) < 2 ^ n := by positivity
  rw [BitVec.toNat_ofInt, Int.toNat_of_nonneg (Int.emod_nonneg _ (by positivity))]
  norm_cast

theorem toNat_add_eq_emod (a b : BitVec n) :
    ((a + b).toNat : Int) = (a.toInt + b.toInt) % 2 ^ n := by
  rw [← toNat_ofInt_eq_emod, BitVec.ofInt_add, BitVec.ofInt_toInt, BitVec.ofInt_toInt]

theorem toNat_sub_eq_emod (a b : BitVec n) :
    ((a - b).toNat : Int) = (a.toInt - b.toInt) % 2 ^ n := by
  rw [← toNat_ofInt_eq_emod, Int.sub_eq_add_neg, BitVec.ofInt_add, BitVec.ofInt_neg,
    BitVec.ofInt_toInt, BitVec.ofInt_toInt, BitVec.sub_eq_add_neg]

theorem toNat_mul_eq_emod (a b : BitVec n) :
    ((a * b).toNat : Int) = (a.toInt * b.toInt) % 2 ^ n := by
  rw [← toNat_ofInt_eq_emod, BitVec.ofInt_mul, BitVec.ofInt_toInt, BitVec.ofInt_toInt]

/-! ### Quotients and remainders -/

theorem toInt_eq_zero_iff (b : BitVec n) : b.toInt = 0 ↔ b = 0 := by
  rw [← BitVec.toInt_inj, BitVec.ofNat_eq_ofNat, BitVec.toInt_zero]

theorem toNat_eq_zero_iff (b : BitVec n) : b.toNat = 0 ↔ b = 0 := by
  rw [← BitVec.toNat_inj, BitVec.ofNat_eq_ofNat, BitVec.toNat_zero]

theorem toInt_eq_intMin_iff (hWidth : 0 < n) (a : BitVec n) :
    a.toInt = -2 ^ (n - 1) ↔ a = BitVec.intMin n := by
  rw [← BitVec.toInt_inj, BitVec.toInt_intMin_of_pos hWidth]

theorem toInt_eq_neg_one_iff (hWidth : 0 < n) (b : BitVec n) : b.toInt = -1 ↔ b = -1 := by
  rw [← BitVec.toInt_inj, BitVec.ofNat_eq_ofNat, BitVec.neg_one_eq_allOnes, BitVec.toInt_allOnes,
    if_pos hWidth]

theorem computes_divide (hWidth : 0 < n) (s : Signedness) (a b : BitVec n) :
    (IntBinary.div s).Computes a b (divide s a b) := by
  by_cases hZero : b = 0
  · have hFails : divide s a b = .error .divisionByZero := by
      cases s <;> exact if_pos hZero
    rw [hFails]
    cases s with
    | signed => exact .inl ⟨(toInt_eq_zero_iff b).2 hZero, rfl⟩
    | unsigned => exact .inl ⟨(toNat_eq_zero_iff b).2 hZero, rfl⟩
  · cases s with
    | signed =>
      have hNonzero : b.toInt ≠ 0 := mt (toInt_eq_zero_iff b).1 hZero
      by_cases hLeast : a = BitVec.intMin n ∧ b = -1
      · have hFails : divide .signed a b = .error .notRepresentable :=
          (if_neg hZero).trans (if_pos hLeast)
        exact .inr (.inl ⟨(toInt_eq_intMin_iff hWidth a).2 hLeast.1,
          (toInt_eq_neg_one_iff hWidth b).2 hLeast.2, hFails⟩)
      · have hDivides : divide .signed a b = .ok (a.sdiv b) :=
          (if_neg hZero).trans (if_neg hLeast)
        refine .inr (.inr ⟨hNonzero, ?_, _, hDivides, ?_⟩)
        · rwa [toInt_eq_intMin_iff hWidth, toInt_eq_neg_one_iff hWidth]
        · exact BitVec.toInt_sdiv_of_ne_or_ne a b (Classical.not_and_iff_not_or_not.1 hLeast)
    | unsigned =>
      exact .inr ⟨mt (toNat_eq_zero_iff b).1 hZero, _, if_neg hZero, BitVec.toNat_udiv⟩

theorem computes_remainder (s : Signedness) (a b : BitVec n) :
    (IntBinary.rem s).Computes a b (remainder s a b) := by
  by_cases hZero : b = 0
  · have hFails : remainder s a b = .error .divisionByZero := by
      cases s <;> exact if_pos hZero
    rw [hFails]
    cases s with
    | signed => exact .inl ⟨(toInt_eq_zero_iff b).2 hZero, rfl⟩
    | unsigned => exact .inl ⟨(toNat_eq_zero_iff b).2 hZero, rfl⟩
  · cases s with
    | signed =>
      have hNonzero : b.toInt ≠ 0 := mt (toInt_eq_zero_iff b).1 hZero
      refine .inr ⟨hNonzero, _, if_neg hZero, ?_, fun hOne => ?_⟩
      · rw [BitVec.toInt_srem, Int.mul_tdiv_add_tmod]
      · rw [BitVec.toInt_srem, hOne, Int.tmod_neg, Int.tmod_one]
    | unsigned =>
      exact .inr ⟨mt (toNat_eq_zero_iff b).1 hZero, _, if_neg hZero, BitVec.toNat_umod⟩

/-! ### Shifts and rotations -/

theorem toNat_shiftLeft_eq (a : BitVec n) (k : Nat) :
    (a <<< k).toNat = a.toNat * 2 ^ k % 2 ^ n := by
  rw [BitVec.toNat_shiftLeft, Nat.shiftLeft_eq]

theorem toInt_sshiftRight_eq (a : BitVec n) (k : Nat) :
    (a.sshiftRight k).toInt = ⌊(a.toInt : ℚ) / 2 ^ k⌋ := by
  have hFloor := Rat.floor_intCast_div_natCast a.toInt (2 ^ k)
  rw [BitVec.toInt_sshiftRight, Int.shiftRight_eq_div_pow]
  exact_mod_cast hFloor.symm

theorem toNat_ushiftRight_eq (a : BitVec n) (k : Nat) : (a >>> k).toNat = a.toNat / 2 ^ k := by
  rw [BitVec.toNat_ushiftRight, Nat.shiftRight_eq_div_pow]

theorem rotateRight_rotateLeft (a : BitVec n) {k : Nat} (hCount : k < n) :
    (a.rotateLeft k).rotateRight k = a := by
  refine BitVec.eq_of_getLsbD_eq fun i hi => ?_
  rw [BitVec.getLsbD_rotateRight, BitVec.getLsbD_rotateLeft, BitVec.getLsbD_rotateLeft,
    Nat.mod_eq_of_lt hCount]
  by_cases hLow : i < n - k
  · simp [hLow, show ¬ k + i < k by omega, show k + i < n by omega]
  · have hPlace : n - k + (i - (n - k)) = i := by omega
    simp [hLow, hi, show i - (n - k) < k by omega, hPlace]

theorem rotateLeft_rotateRight (a : BitVec n) {k : Nat} (hCount : k < n) :
    (a.rotateRight k).rotateLeft k = a := by
  refine BitVec.eq_of_getLsbD_eq fun i hi => ?_
  rw [BitVec.getLsbD_rotateLeft, BitVec.getLsbD_rotateRight, BitVec.getLsbD_rotateRight,
    Nat.mod_eq_of_lt hCount]
  by_cases hLow : i < k
  · simp [hLow, show n - k + i < n by omega]
  · have hPlace : k + (i - k) = i := by omega
    simp [hLow, hi, show i - k < n - k by omega, hPlace]

/-- Cutting a word to 32 bits first does not change its count for a shift. -/
theorem shiftCount_eq (hDvd : n ∣ 2 ^ 32) (b : BitVec n) : shiftCount b = b.toNat % n := by
  rw [shiftCount, BitVec.toNat_setWidth, Nat.mod_mod_of_dvd _ hDvd]

/-- Every operation on two words computes what arithmetic says, if the counts of shifts do not
depend on more than 32 bits. -/
theorem computes_binary (hDvd : n ∣ 2 ^ 32) (op : IntBinary) (a b : BitVec n) :
    op.Computes a b (binary op a b) := by
  have hWidth : 0 < n := Nat.pos_of_dvd_of_pos hDvd (by decide)
  have hCount : b.toNat % n < n := Nat.mod_lt _ hWidth
  have hShift := shiftCount_eq hDvd b
  cases op with
  | add => exact ⟨_, rfl, toNat_add_eq_emod a b⟩
  | sub => exact ⟨_, rfl, toNat_sub_eq_emod a b⟩
  | mul => exact ⟨_, rfl, toNat_mul_eq_emod a b⟩
  | div s => exact computes_divide hWidth s a b
  | rem s => exact computes_remainder s a b
  | and => exact ⟨_, rfl, fun _ => BitVec.getLsbD_and⟩
  | or => exact ⟨_, rfl, fun _ => BitVec.getLsbD_or⟩
  | xor => exact ⟨_, rfl, fun _ => BitVec.getLsbD_xor⟩
  | shl => exact ⟨_, rfl, hShift ▸ toNat_shiftLeft_eq a (shiftCount b)⟩
  | shr s =>
    cases s with
    | signed => exact ⟨_, rfl, hShift ▸ toInt_sshiftRight_eq a (shiftCount b)⟩
    | unsigned => exact ⟨_, rfl, hShift ▸ toNat_ushiftRight_eq a (shiftCount b)⟩
  | rotl =>
    refine ⟨_, rfl, ?_, congrArg _ (rotateRight_rotateLeft a hCount)⟩
    rw [BitVec.rotateLeft_def, Nat.mod_eq_of_lt hCount]
  | rotr =>
    refine ⟨_, rfl, ?_, congrArg _ (rotateLeft_rotateRight a hCount)⟩
    rw [BitVec.rotateRight_def, Nat.mod_eq_of_lt hCount]

end Integer

/-! ## Instructions -/

/-- A numeric instruction works on the stack alone. -/
theorem dispatch_numeric {b : UInt8} {n : Numeric} (h : Opcode.ofByte? b = some (.numeric n))
    (env : Env) (m : Machine) : dispatch env b m = Exec.onStack n.run m := by
  unfold dispatch
  rw [h]
  rfl

/-- An integer instruction with its operands. -/
inductive IntegerOperation where
  | eqz (t : IntType) (a : BitVec t.width)
  | compare (t : IntType) (r : IntRelation) (a b : BitVec t.width)
  | unary (t : IntType) (op : IntUnary) (a : BitVec t.width)
  | binary (t : IntType) (op : IntBinary) (a b : BitVec t.width)
  | wrap (a : BitVec 64)
  | extend (s : Signedness) (a : BitVec 32)

/-! ### Opcode bytes -/

/-- The place of a relation among the comparisons of one type. -/
def IntRelation.place : IntRelation → UInt8
  | .eq => 0
  | .ne => 1
  | .lt .signed => 2
  | .lt .unsigned => 3
  | .gt .signed => 4
  | .gt .unsigned => 5
  | .le .signed => 6
  | .le .unsigned => 7
  | .ge .signed => 8
  | .ge .unsigned => 9

/-- The byte of a comparison. -/
def IntRelation.byte (r : IntRelation) : IntType → UInt8
  | .i32 => 0x46 + r.place
  | .i64 => 0x51 + r.place

/-- The place of an operation among those on one integer. -/
def IntUnary.place : IntUnary → UInt8
  | .clz => 0
  | .ctz => 1
  | .popcnt => 2

/-- The byte of an operation on one integer. -/
def IntUnary.byte (op : IntUnary) : IntType → UInt8
  | .i32 => 0x67 + op.place
  | .i64 => 0x79 + op.place

/-- The place of an operation among those on two integers. -/
def IntBinary.place : IntBinary → UInt8
  | .add => 0
  | .sub => 1
  | .mul => 2
  | .div .signed => 3
  | .div .unsigned => 4
  | .rem .signed => 5
  | .rem .unsigned => 6
  | .and => 7
  | .or => 8
  | .xor => 9
  | .shl => 10
  | .shr .signed => 11
  | .shr .unsigned => 12
  | .rotl => 13
  | .rotr => 14

/-- The byte of an operation on two integers. -/
def IntBinary.byte (op : IntBinary) : IntType → UInt8
  | .i32 => 0x6a + op.place
  | .i64 => 0x7c + op.place

theorem IntRelation.ofByte?_byte (r : IntRelation) (t : IntType) :
    Opcode.ofByte? (r.byte t) = some (.numeric (.compareInt t r)) := by
  cases t <;> rcases r with _ | _ | (_ | _) | (_ | _) | (_ | _) | (_ | _) <;> decide +kernel

theorem IntUnary.ofByte?_byte (op : IntUnary) (t : IntType) :
    Opcode.ofByte? (op.byte t) = some (.numeric (.unaryInt t op)) := by
  cases t <;> cases op <;> decide +kernel

theorem IntBinary.ofByte?_byte (op : IntBinary) (t : IntType) :
    Opcode.ofByte? (op.byte t) = some (.numeric (.binaryInt t op)) := by
  cases t <;>
    rcases op with _ | _ | _ | (_ | _) | (_ | _) | _ | _ | _ | _ | (_ | _) | _ | _ <;>
    decide +kernel

/-! ### Runs -/

namespace IntegerOperation

/-- The byte that stands for the instruction in code. -/
def byte : IntegerOperation → UInt8
  | eqz .i32 _ => 0x45
  | eqz .i64 _ => 0x50
  | compare t r _ _ => r.byte t
  | unary t op _ => op.byte t
  | binary t op _ _ => op.byte t
  | wrap _ => 0xa7
  | extend .signed _ => 0xac
  | extend .unsigned _ => 0xad

/-- The operands, the last one topmost. -/
def operands : IntegerOperation → List Value
  | eqz t a => [.ofInt t a]
  | compare t _ a b => [.ofInt t a, .ofInt t b]
  | unary t _ a => [.ofInt t a]
  | binary t _ a b => [.ofInt t a, .ofInt t b]
  | wrap a => [.i64 a]
  | extend _ a => [.i32 a]

/-- What arithmetic says about the result. A comparison gives one or zero. Wrapping keeps what is
left modulo `2 ^ 32`, and extending keeps the integer that the operand is read as. -/
def Computes : IntegerOperation → Except Trap Value → Prop
  | eqz _ a, r => (a.toNat = 0 ∧ r = .ok (.i32 1)) ∨ (a.toNat ≠ 0 ∧ r = .ok (.i32 0))
  | compare _ rel a b, r =>
    (rel.Holds a b ∧ r = .ok (.i32 1)) ∨ (¬ rel.Holds a b ∧ r = .ok (.i32 0))
  | unary t op a, r => ∃ w : BitVec t.width, r = .ok (.ofInt t w) ∧ op.Counts a w.toNat
  | binary t op a b, r => ∃ c : Except IntFailure (BitVec t.width), op.Computes a b c ∧
      match c with
      | .ok w => r = .ok (.ofInt t w)
      | .error .divisionByZero => r = .error .divisionByZero
      | .error .notRepresentable => r = .error .notRepresentable
  | wrap a, r => ∃ w : BitVec 32, r = .ok (.i32 w) ∧ w.toNat = a.toNat % 2 ^ 32
  | extend s a, r => ∃ w : BitVec 64, r = .ok (.i64 w) ∧ Integer.read s w = Integer.read s a

/-- The numeric operation of the instruction. -/
def numeric : IntegerOperation → Numeric
  | eqz t _ => .eqz t
  | compare t r _ _ => .compareInt t r
  | unary t op _ => .unaryInt t op
  | binary t op _ _ => .binaryInt t op
  | wrap _ => .convert .wrap
  | extend s _ => .convert (.extend s)

/-- The result that the instruction pushes, or the trap that it ends in. -/
def result : IntegerOperation → Except Trap Value
  | eqz _ a => .ok (.ofBool (a == 0))
  | compare _ r a b => .ok (.ofBool (Integer.compare r a b))
  | unary t op a => .ok (.ofInt t (Integer.unary op a))
  | binary t op a b => ((Integer.binary op a b).map (Value.ofInt t)).mapError Trap.ofIntFailure
  | wrap a => .ok (.i32 (a.setWidth 32))
  | extend .signed a => .ok (.i64 (a.signExtend 64))
  | extend .unsigned a => .ok (.i64 (a.setWidth 64))

theorem ofByte?_byte (o : IntegerOperation) :
    Opcode.ofByte? o.byte = some (.numeric o.numeric) := by
  cases o with
  | eqz t a =>
    cases t with
    | i32 => exact (by decide +kernel : Opcode.ofByte? 0x45 = some (.numeric (.eqz .i32)))
    | i64 => exact (by decide +kernel : Opcode.ofByte? 0x50 = some (.numeric (.eqz .i64)))
  | compare t r a b => exact r.ofByte?_byte t
  | unary t op a => exact op.ofByte?_byte t
  | binary t op a b => exact op.ofByte?_byte t
  | wrap a => exact (by decide +kernel : Opcode.ofByte? 0xa7 = some (.numeric (.convert .wrap)))
  | extend s a =>
    have hByte (s : Signedness) : Opcode.ofByte? (extend s 0).byte =
        some (.numeric (.convert (.extend s))) := by cases s <;> decide +kernel
    cases s with
    | signed => exact hByte .signed
    | unsigned => exact hByte .unsigned

/-! #### The result -/

/-- Arithmetic gives the result. -/
theorem computes_result (o : IntegerOperation) : o.Computes o.result := by
  cases o with
  | eqz t a =>
    by_cases hZero : a = 0
    · have hResult : (a == 0) = true := beq_iff_eq.2 hZero
      exact .inl ⟨(Integer.toNat_eq_zero_iff a).2 hZero, by rw [result, hResult]; rfl⟩
    · have hResult : (a == 0) = false := beq_false_of_ne hZero
      exact .inr ⟨mt (Integer.toNat_eq_zero_iff a).1 hZero, by rw [result, hResult]; rfl⟩
  | compare t r a b =>
    by_cases hHolds : Integer.compare r a b = true
    · exact .inl ⟨(Integer.holds_compare r a b).1 hHolds, by simp [result, hHolds, Value.ofBool]⟩
    · exact .inr ⟨mt (Integer.holds_compare r a b).2 hHolds, by
        simp [result, hHolds, Value.ofBool]⟩
  | unary t op a => exact ⟨_, rfl, Integer.counts_unary op a⟩
  | binary t op a b =>
    have hDvd : t.width ∣ 2 ^ 32 := by cases t <;> decide
    refine ⟨_, Integer.computes_binary hDvd op a b, ?_⟩
    simp only [result]
    cases Integer.binary op a b with
    | ok w => rfl
    | error e => cases e <;> rfl
  | wrap a => exact ⟨_, rfl, BitVec.toNat_setWidth 32 a⟩
  | extend s a =>
    cases s with
    | signed => exact ⟨_, rfl, BitVec.toInt_signExtend_of_le (by decide)⟩
    | unsigned =>
      exact ⟨_, rfl, congrArg Int.ofNat (BitVec.toNat_setWidth_of_le (by decide))⟩

/-! #### The stack -/

theorem popInt_push (t : IntType) (s : Stack) (bits : BitVec t.width) :
    popInt t (s.push (.value (.ofInt t bits))) = .ok bits s := by
  cases t <;> exact run_bind_of_ok (popTyped_push s _) _

/-- The operands are taken, whatever is below them. -/
theorem run_numeric (o : IntegerOperation) (s : Stack) :
    o.numeric.run (s.pushValues o.operands) =
      match o.result with
      | .ok v => .ok () (s.push (.value v))
      | .error trap => .error trap s := by
  cases o with
  | eqz t a => exact run_bind_of_ok (popInt_push t s a) _
  | unary t op a => exact run_bind_of_ok (popInt_push t s a) _
  | compare t r a b =>
    exact (run_bind_of_ok (popInt_push t (s.push (.value (.ofInt t a))) b) _).trans
      (run_bind_of_ok (popInt_push t s a) _)
  | binary t op a b =>
    refine (run_bind_of_ok (popInt_push t (s.push (.value (.ofInt t a))) b) _).trans
      ((run_bind_of_ok (popInt_push t s a) _).trans ?_)
    simp only [result]
    cases Integer.binary op a b <;> rfl
  | wrap a => exact run_bind_of_ok (popInt_push .i64 s a) _
  | extend sign a => cases sign <;> exact run_bind_of_ok (popInt_push .i32 s a) _

/-- An integer instruction computes what arithmetic says. It replaces its operands with the result
and leaves everything else as it is, and where there is no result it traps. -/
theorem dispatch_computes (o : IntegerOperation) (env : Env) (m : Machine) :
    ∃ r, o.Computes r ∧
      dispatch env o.byte { m with stack := m.stack.pushValues o.operands } =
        match r with
        | .ok v => .ok () (m.push v)
        | .error trap => .error trap m := by
  refine ⟨o.result, o.computes_result, ?_⟩
  rw [dispatch_numeric o.ofByte?_byte]
  simp only [Exec.onStack, run_numeric]
  cases o.result <;> rfl

end IntegerOperation
end WasmMachine
