import WasmMachine.Bytes

/-!
# LEB128 numbers

A number is written in groups of seven bits, lowest first; every byte but the last has
its high bit set. A reader for numbers of `N` bits takes at most `N / 7` groups, rounded
up, and reduces what they spell modulo `2 ^ N`: bits beyond the width are dropped, not
refused.

* `readGroups` splits off the groups of one number; it looks at one byte beyond the last
  group it may take, so that a number that is too long differs from one that is cut off.
* `decodeU32`, `decodeS32`, `decodeS64` read at an offset and give the offset just past
  the number, which lies beyond the start and inside the byte string (`decodeU32_bounds`,
  `decodeSigned_bounds`).
* `encodeU32`, `encodeS32`, `encodeS64` write the shortest form.
-/

namespace WasmMachine

/-- Why the bytes at an offset are no LEB128 number. -/
inductive VarintError where
  /-- The bytes end inside the number. -/
  | unexpectedEof
  /-- The number has more groups than its width allows. -/
  | tooLong
  deriving DecidableEq, Repr

/-- The wording of a varint error. -/
def VarintError.message : VarintError → String
  | .unexpectedEof => "unexpected end of input"
  | .tooLong => "integer representation too long"

namespace Leb128

/-! ## Groups -/

/-- How many groups a number of `width` bits may have. -/
def groupLimit (width : Nat) : Nat := (width + 6) / 7

/-- The groups of the number at `pos`, at most `limit` of them, and the offset past them. -/
def readGroups (bytes : Bytes) : (limit pos : Nat) → Except VarintError (List Nat × Nat)
  | 0, pos =>
    match bytes[pos]? with
    | none => .error .unexpectedEof
    | some _ => .error .tooLong
  | limit + 1, pos =>
    match bytes[pos]? with
    | none => .error .unexpectedEof
    | some b =>
      if b.toNat < 128 then .ok ([b.toNat], pos + 1)
      else
        match readGroups bytes limit (pos + 1) with
        | .error e => .error e
        | .ok (groups, next) => .ok ((b.toNat - 128) :: groups, next)

/-- The number that the groups spell, lowest group first. -/
def unsignedValue : List Nat → Nat
  | [] => 0
  | g :: rest => g + 128 * unsignedValue rest

/-- The groups read as a two's-complement number of seven bits per group. -/
def signedValue (groups : List Nat) : Int :=
  let n := unsignedValue groups
  let modulus := Nat.pow 128 groups.length
  if 2 * n < modulus then n else (n : Int) - modulus

/-- A number that is read ends beyond its start and inside the bytes. -/
theorem readGroups_bounds {bytes : Bytes} {limit pos : Nat} {groups : List Nat} {next : Nat}
    (h : readGroups bytes limit pos = .ok (groups, next)) : pos < next ∧ next ≤ bytes.size := by
  induction limit generalizing pos groups with
  | zero => unfold readGroups at h; split at h <;> cases h
  | succ limit ih =>
    unfold readGroups at h
    split at h
    · cases h
    · rename_i b hb
      have hpos : pos < bytes.size := (Array.getElem?_eq_some_iff.1 hb).1
      split at h
      · cases h; omega
      · split at h
        · cases h
        · rename_i hrest
          cases h
          have := ih hrest
          omega

/-! ## Decoding -/

/-- Reads an unsigned 32-bit number at `pos`. -/
def decodeU32 (bytes : Bytes) (pos : Nat) : Except VarintError (UInt32 × Nat) :=
  match readGroups bytes (groupLimit 32) pos with
  | .error e => .error e
  | .ok (groups, next) => .ok (UInt32.ofNat (unsignedValue groups), next)

/-- Reads a signed number of `width` bits at `pos`. -/
def decodeSigned (width : Nat) (bytes : Bytes) (pos : Nat) :
    Except VarintError (BitVec width × Nat) :=
  match readGroups bytes (groupLimit width) pos with
  | .error e => .error e
  | .ok (groups, next) => .ok (BitVec.ofInt width (signedValue groups), next)

/-- Reads a signed 32-bit number at `pos`. -/
abbrev decodeS32 : Bytes → Nat → Except VarintError (BitVec 32 × Nat) := decodeSigned 32

/-- Reads a signed 64-bit number at `pos`. -/
abbrev decodeS64 : Bytes → Nat → Except VarintError (BitVec 64 × Nat) := decodeSigned 64

theorem decodeU32_bounds {bytes : Bytes} {pos next : Nat} {v : UInt32}
    (h : decodeU32 bytes pos = .ok (v, next)) : pos < next ∧ next ≤ bytes.size := by
  unfold decodeU32 at h
  split at h
  · cases h
  · rename_i hGroups
    cases h
    exact readGroups_bounds hGroups

theorem decodeSigned_bounds {width : Nat} {bytes : Bytes} {pos next : Nat} {v : BitVec width}
    (h : decodeSigned width bytes pos = .ok (v, next)) : pos < next ∧ next ≤ bytes.size := by
  unfold decodeSigned at h
  split at h
  · cases h
  · rename_i hGroups
    cases h
    exact readGroups_bounds hGroups

/-- Where a reader that failed at `pos` has stopped: at the end of the bytes, or past the one
byte that made the number too long. -/
def stopAfter (bytes : Bytes) (width pos : Nat) : VarintError → Nat
  | .unexpectedEof => bytes.size
  | .tooLong => min bytes.size (pos + groupLimit width + 1)

/-! ## Encoding -/

/-- The shortest groups of a natural number. -/
def encodeUnsigned (n : Nat) : List UInt8 :=
  if n < 128 then [UInt8.ofNat n]
  else UInt8.ofNat (n % 128 + 128) :: encodeUnsigned (n / 128)
termination_by n
decreasing_by omega

/-- The shortest groups whose two's-complement reading is the integer. -/
def encodeSigned (v : Int) : List UInt8 :=
  let low := (v % 128).toNat
  let rest := v / 128
  if (rest = 0 ∧ low < 64) ∨ (rest = -1 ∧ 64 ≤ low) then [UInt8.ofNat low]
  else UInt8.ofNat (low + 128) :: encodeSigned rest
termination_by v.natAbs
decreasing_by omega

/-- Writes an unsigned 32-bit number. -/
def encodeU32 (v : UInt32) : List UInt8 := encodeUnsigned v.toNat

/-- Writes a signed 32-bit number. -/
def encodeS32 (v : BitVec 32) : List UInt8 := encodeSigned v.toInt

/-- Writes a signed 64-bit number. -/
def encodeS64 (v : BitVec 64) : List UInt8 := encodeSigned v.toInt

end Leb128

end WasmMachine
