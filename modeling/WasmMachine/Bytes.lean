/-!
# Byte strings

Modules, code bodies and immediates are byte strings. This file fixes the type, the
little-endian reading of a few bytes as a number, and the hexadecimal text of numbers
and of byte strings.

* `littleEndian_toLittleEndian`: the low bytes of a number, read back, are the number
  modulo the matching power of 256.
* `toLittleEndian_littleEndian`: bytes are the low bytes of the number that they spell.
-/

namespace WasmMachine

/-- A byte string with constant-time access. -/
abbrev Bytes := Array UInt8

/-! ## Little-endian numbers -/

/-- The number that the bytes spell, least significant byte first. -/
def littleEndian : List UInt8 → Nat
  | [] => 0
  | b :: rest => b.toNat + 256 * littleEndian rest

/-- The low `width` bytes of a number, least significant byte first. -/
def toLittleEndian : (width : Nat) → Nat → List UInt8
  | 0, _ => []
  | width + 1, n => UInt8.ofNat n :: toLittleEndian width (n / 256)

@[simp] theorem length_toLittleEndian (width n : Nat) :
    (toLittleEndian width n).length = width := by
  induction width generalizing n with
  | zero => rfl
  | succ width ih => simp [toLittleEndian, ih]

theorem pow_byte_succ (width : Nat) : Nat.pow 256 (width + 1) = 256 * Nat.pow 256 width :=
  Nat.mul_comm (Nat.pow 256 width) 256

/-- Reading back the low bytes of a number gives the number modulo the power of 256. -/
theorem littleEndian_toLittleEndian (width n : Nat) :
    littleEndian (toLittleEndian width n) = n % Nat.pow 256 width := by
  induction width generalizing n with
  | zero => simp [toLittleEndian, littleEndian, Nat.mod_one]
  | succ width ih =>
    have hLow : (UInt8.ofNat n).toNat = n % 256 := UInt8.toNat_ofNat'
    rw [toLittleEndian, littleEndian, ih, hLow, pow_byte_succ, Nat.mod_mul]

/-- A little-endian number is below the power of 256 of its length. -/
theorem littleEndian_lt (bytes : List UInt8) : littleEndian bytes < Nat.pow 256 bytes.length := by
  induction bytes with
  | nil => simp [littleEndian]
  | cons b rest ih =>
    have hb : b.toNat < 256 := b.toNat_lt
    simp only [littleEndian, List.length_cons, pow_byte_succ]
    omega

/-- Bytes are the little-endian form of the number that they spell. -/
theorem toLittleEndian_littleEndian (bytes : List UInt8) :
    toLittleEndian bytes.length (littleEndian bytes) = bytes := by
  induction bytes with
  | nil => rfl
  | cons b rest ih =>
    have hByte : b.toNat < 256 := b.toNat_lt
    have hHead : UInt8.ofNat (b.toNat + 256 * littleEndian rest) = b := by
      apply UInt8.toNat_inj.1
      rw [UInt8.toNat_ofNat']
      omega
    have hTail : (b.toNat + 256 * littleEndian rest) / 256 = littleEndian rest := by omega
    rw [List.length_cons, littleEndian, toLittleEndian, hHead, hTail, ih]

/-! ## Slices -/

/-- The `len` bytes from `start` on, when there are that many. -/
def Bytes.slice? (bytes : Bytes) (start len : Nat) : Option Bytes :=
  if start + len ≤ bytes.size then some (bytes.extract start (start + len)) else none

/-! ## Hexadecimal text -/

/-- The hexadecimal digits of a number, in lower case and without leading zeros. -/
def hexDigits (n : Nat) : List Char := Nat.toDigits 16 n

/-- The hexadecimal digits of a number, filled up with zeros to at least `width` digits. -/
def hexDigitsPadded (width n : Nat) : List Char :=
  List.replicate (width - (hexDigits n).length) '0' ++ hexDigits n

/-- Hexadecimal text with its `0x` mark and at least `width` digits. -/
def hexText (width n : Nat) : String := "0x" ++ String.ofList (hexDigitsPadded width n)

/-- Two hexadecimal digits for each byte. -/
def Bytes.hex (bytes : Bytes) : String :=
  String.ofList (bytes.toList.flatMap fun b => hexDigitsPadded 2 b.toNat)

end WasmMachine
