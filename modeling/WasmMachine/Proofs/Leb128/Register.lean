import WasmMachine.Proofs.Leb128.Shortest

/-!
# Reading into a register

A machine word collects the groups of a number: each group is shifted to its place, and above the
last group of a signed number the word is filled with ones while bits of the width remain. The
loader and the machine both read numbers so, one from its cursor and the other from an offset into
the code.

* `readRegister`: the loop, for bytes from anywhere.
* `loopAgrees`: one turn after another, it finds the groups of the number.
* `fillsRegister_u32`, `fillsRegister_signed`: decoders and readers are this loop, and it leaves a
  cursor where the readers do.
-/

namespace WasmMachine

namespace Leb128

/-- Collects the groups of a number of `width` bits in a register, from bytes that `next` gives;
`extend` completes the register from the last byte and the number of bits that are filled. -/
def readRegister {σ : Type} (next : σ → Option UInt8 × σ) (width : Nat)
    (extend : Nat → UInt8 → BitVec 64 → BitVec 64) (shift : Nat) (register : BitVec 64)
    (source : σ) : Except VarintError (BitVec 64) × σ :=
  match next source with
  | (none, source) => (.error .unexpectedEof, source)
  | (some b, source) =>
    if width ≤ shift then (.error .tooLong, source)
    else
      let filled := register ||| (BitVec.ofNat 64 (b &&& 0x7f).toNat <<< shift)
      if b &&& 0x80 = 0 then (.ok (extend (shift + 7) b filled), source)
      else readRegister next width extend (shift + 7) filled source
termination_by width - shift

/-- Unsigned numbers leave the register as it is. -/
def keepRegister (_shift : Nat) (_last : UInt8) (register : BitVec 64) : BitVec 64 := register

/-- Signed numbers fill the register with ones above a last group of negative sign, while bits of
the width remain. -/
def signRegister (width shift : Nat) (last : UInt8) (register : BitVec 64) : BitVec 64 :=
  if shift < width ∧ last &&& 0x40 ≠ 0 then register ||| (BitVec.allOnes 64 <<< shift)
  else register

/-! ## Single groups -/

theorem readGroups_none {bytes : Bytes} {limit pos : Nat} (h : bytes[pos]? = none) :
    readGroups bytes limit pos = .error .unexpectedEof := by
  cases limit <;> rw [readGroups, h]

theorem readGroups_last {bytes : Bytes} {limit pos : Nat} {b : UInt8} (h : bytes[pos]? = some b)
    (hLast : b.toNat < 128) :
    readGroups bytes (limit + 1) pos = .ok ([b.toNat], pos + 1) := by
  rw [readGroups, h]
  exact if_pos hLast

theorem readGroups_more {bytes : Bytes} {limit pos : Nat} {b : UInt8} (h : bytes[pos]? = some b)
    (hMore : ¬ b.toNat < 128) :
    readGroups bytes (limit + 1) pos =
      (readGroups bytes limit (pos + 1)).map fun read => (b.toNat % 128 :: read.1, read.2) := by
  have hGroup : b.toNat - 128 = b.toNat % 128 := by
    have hByte := b.toNat_lt
    omega
  rw [readGroups, h]
  simp only [if_neg hMore, hGroup]
  cases readGroups bytes limit (pos + 1) <;> rfl

theorem byte_bits (b : UInt8) :
    (b &&& 0x7f).toNat = b.toNat % 128 ∧ (b &&& 0x80 = 0 ↔ b.toNat < 128) ∧
      (b &&& 0x40 ≠ 0 ↔ 64 ≤ b.toNat % 128) := by
  have hAll : ∀ n : Fin 256, (UInt8.ofNat n.val &&& 0x7f).toNat = n.val % 128 ∧
      (UInt8.ofNat n.val &&& 0x80 = 0 ↔ n.val < 128) ∧
      (UInt8.ofNat n.val &&& 0x40 ≠ 0 ↔ 64 ≤ n.val % 128) := by
    decide +kernel
  have hHere := hAll ⟨b.toNat, b.toNat_lt⟩
  rwa [UInt8.ofNat_toNat] at hHere

/-! ## Filling the register -/

/-- Nothing is lost where the register is filled above the bits that it has. -/
theorem or_shiftLeft_eq_add {register : BitVec 64} {shift : Nat} (x : BitVec 64)
    (hRegister : register.toNat < 2 ^ shift) :
    register ||| (x <<< shift) = register + x <<< shift := by
  refine (BitVec.add_eq_or_of_and_eq_zero _ _ ?_).symm
  refine BitVec.eq_of_getLsbD_eq fun i hi => ?_
  rw [BitVec.getLsbD_and, BitVec.getLsbD_zero]
  by_cases hBit : i < shift
  · rw [BitVec.getLsbD_shiftLeft, decide_eq_true hBit, Bool.not_true, Bool.and_false,
      Bool.false_and, Bool.and_false]
  · have hLow : register.toNat < 2 ^ i :=
      Nat.lt_of_lt_of_le hRegister (Nat.pow_le_pow_right (by decide) (Nat.le_of_not_lt hBit))
    rw [BitVec.getLsbD, Nat.testBit_lt_two_pow hLow, Bool.false_and]

theorem setWidth_or_shiftLeft {register : BitVec 64} {shift width : Nat} (x : BitVec 64)
    (hWidth : width ≤ 64) (hRegister : register.toNat < 2 ^ shift) :
    (register ||| (x <<< shift)).setWidth width =
      register.setWidth width + x.setWidth width <<< shift := by
  rw [or_shiftLeft_eq_add x hRegister, BitVec.setWidth_add _ _ hWidth,
    BitVec.setWidth_shiftLeft_of_le hWidth]

theorem toNat_or_shiftLeft_lt {register : BitVec 64} {shift g : Nat}
    (hRegister : register.toNat < 2 ^ shift) (hGroup : g < 128) :
    (register ||| (BitVec.ofNat 64 g <<< shift)).toNat < 2 ^ (shift + 7) := by
  rw [BitVec.toNat_or]
  refine Nat.or_lt_two_pow ?_ ?_
  · exact Nat.lt_of_lt_of_le hRegister (Nat.pow_le_pow_right (by decide) (Nat.le_add_right _ _))
  · rw [BitVec.toNat_shiftLeft, Nat.shiftLeft_eq]
    have hSmall : (BitVec.ofNat 64 g).toNat < 2 ^ 7 :=
      Nat.lt_of_le_of_lt (Nat.mod_le _ _) hGroup
    calc (BitVec.ofNat 64 g).toNat * 2 ^ shift % 2 ^ 64
        ≤ (BitVec.ofNat 64 g).toNat * 2 ^ shift := Nat.mod_le _ _
      _ < 2 ^ 7 * 2 ^ shift := Nat.mul_lt_mul_of_pos_right hSmall (Nat.two_pow_pos shift)
      _ = 2 ^ (shift + 7) := by rw [Nat.pow_add, Nat.mul_comm]

/-- Seven bits further up, a number counts 128 times. -/
theorem ofInt_group {width : Nat} (g : Nat) (v : Int) (shift : Nat) :
    BitVec.ofInt width (g + 128 * v) <<< shift =
      BitVec.ofNat width g <<< shift + BitVec.ofInt width v <<< (shift + 7) := by
  have hScale : BitVec.ofInt width 128 = BitVec.twoPow width 7 := by
    refine BitVec.eq_of_toNat_eq ?_
    rw [BitVec.ofInt_ofNat, BitVec.toNat_ofNat, BitVec.toNat_twoPow]
  rw [BitVec.ofInt_add, BitVec.ofInt_mul, BitVec.ofInt_natCast, hScale,
    BitVec.twoPow_mul_eq_shiftLeft, BitVec.shiftLeft_add_distrib, Nat.add_comm shift 7,
    BitVec.shiftLeft_add]

/-- The bits of a width that a signed number leaves in the register. -/
theorem setWidth_signRegister {width shift : Nat} {last : UInt8} {register : BitVec 64}
    (hWidth : width ≤ 64) (hRegister : register.toNat < 2 ^ shift) :
    (signRegister width shift last register).setWidth width =
      register.setWidth width +
        BitVec.ofInt width (if 64 ≤ last.toNat % 128 then -1 else 0) <<< shift := by
  have hOnes : (BitVec.allOnes 64).setWidth width = BitVec.ofInt width (-1) := by
    rw [BitVec.ofInt_neg, BitVec.ofInt_ofNat, BitVec.neg_one_eq_allOnes]
    refine BitVec.eq_of_getLsbD_eq fun i hi => ?_
    rw [BitVec.getLsbD_setWidth, BitVec.getLsbD_allOnes, BitVec.getLsbD_allOnes]
    simp only [hi, Nat.lt_of_lt_of_le hi hWidth, decide_true, Bool.and_true]
  obtain ⟨-, -, hSign⟩ := byte_bits last
  unfold signRegister
  by_cases hNegative : 64 ≤ last.toNat % 128
  · rw [if_pos hNegative]
    by_cases hRoom : shift < width
    · rw [if_pos ⟨hRoom, hSign.2 hNegative⟩, setWidth_or_shiftLeft _ hWidth hRegister, hOnes]
    · rw [if_neg (fun h => hRoom h.1), BitVec.shiftLeft_eq_zero (Nat.le_of_not_lt hRoom),
        BitVec.add_zero]
  · rw [if_neg hNegative, if_neg (fun h => hNegative (hSign.1 h.2))]
    simp

/-! ## The loop -/

/-- Completing the register makes it hold the value of the groups: of a single one, and with each
one below it, 128 times the value of the others. -/
structure Completes (width : Nat) (extend : Nat → UInt8 → BitVec 64 → BitVec 64)
    (value : List Nat → Int) : Prop where
  last : ∀ {shift : Nat} {b : UInt8} {register : BitVec 64}, b.toNat < 128 →
    register.toNat < 2 ^ shift →
    (extend (shift + 7) b (register ||| (BitVec.ofNat 64 b.toNat <<< shift))).setWidth width =
      register.setWidth width + BitVec.ofInt width (value [b.toNat]) <<< shift
  more : ∀ {g : Nat} {rest : List Nat}, g < 128 → rest ≠ [] →
    value (g :: rest) = g + 128 * value rest

theorem completes_keepRegister {width : Nat} (hWidth : width ≤ 64) :
    Completes width keepRegister (fun groups => unsignedValue groups) where
  last hLast hRegister := by
    rw [keepRegister, setWidth_or_shiftLeft _ hWidth hRegister,
      BitVec.setWidth_ofNat_of_le hWidth, BitVec.ofInt_natCast]
    rfl
  more _ _ := by
    rw [unsignedValue]
    omega

theorem completes_signRegister {width : Nat} (hWidth : width ≤ 64) :
    Completes width (signRegister width) signedValue where
  last {shift b register} hLast hRegister := by
    have hValue : signedValue [b.toNat] =
        b.toNat + 128 * (if 64 ≤ b.toNat % 128 then -1 else 0) := by
      rw [signedValue_singleton]
      split <;> split <;> omega
    rw [setWidth_signRegister hWidth (toNat_or_shiftLeft_lt hRegister hLast),
      setWidth_or_shiftLeft _ hWidth hRegister, BitVec.setWidth_ofNat_of_le hWidth, hValue,
      ofInt_group, BitVec.add_assoc]
  more := signedValue_cons

section

variable {σ : Type}

/-- The loop ends as the splitting into groups does. Places are where the bytes come from. -/
inductive LoopAgrees (bytes : Bytes) (place : Nat → σ) (width : Nat) (value : List Nat → Int)
    (limit shift pos : Nat) (register : BitVec 64) :
    Except VarintError (List Nat × Nat) → Except VarintError (BitVec 64) × σ → Prop
  | found {groups : List Nat} {after : Nat} {result : BitVec 64} (nonempty : groups ≠ [])
      (holds : result.setWidth width =
        register.setWidth width + BitVec.ofInt width (value groups) <<< shift) :
      LoopAgrees bytes place width value limit shift pos register (.ok (groups, after))
        (.ok result, place after)
  | tooLong : LoopAgrees bytes place width value limit shift pos register (.error .tooLong)
      (.error .tooLong, place (pos + limit + 1))
  | cutOff {missing : Nat} (behind : bytes.size ≤ missing) :
      LoopAgrees bytes place width value limit shift pos register (.error .unexpectedEof)
        (.error .unexpectedEof, place (missing + 1))

variable {next : σ → Option UInt8 × σ} {bytes : Bytes} {place : Nat → σ} {width : Nat}
  {extend : Nat → UInt8 → BitVec 64 → BitVec 64} {value : List Nat → Int}

/-- One group more in front of what the loop has found. -/
theorem loopAgrees_more (hWidth : width ≤ 64) (hCompletes : Completes width extend value)
    {limit shift pos g : Nat} {register : BitVec 64}
    {split : Except VarintError (List Nat × Nat)} {found : Except VarintError (BitVec 64) × σ}
    (hGroup : g < 128) (hRegister : register.toNat < 2 ^ shift)
    (hRest : LoopAgrees bytes place width value limit (shift + 7) (pos + 1)
      (register ||| (BitVec.ofNat 64 g <<< shift)) split found) :
    LoopAgrees bytes place width value (limit + 1) shift pos register
      (split.map fun read => (g :: read.1, read.2)) found := by
  cases hRest with
  | found nonempty holds =>
    refine .found (List.cons_ne_nil _ _) ?_
    rw [holds, hCompletes.more hGroup nonempty, ofInt_group,
      setWidth_or_shiftLeft _ hWidth hRegister, BitVec.setWidth_ofNat_of_le hWidth,
      BitVec.add_assoc]
  | tooLong =>
    have hPlace : pos + 1 + limit + 1 = pos + (limit + 1) + 1 := by omega
    rw [hPlace]
    exact .tooLong
  | cutOff behind => exact .cutOff behind

theorem loopAgrees (hNext : ∀ p, next (place p) = (bytes[p]?, place (p + 1)))
    (hWidth : width ≤ 64) (hCompletes : Completes width extend value) {limit shift pos : Nat}
    {register : BitVec 64} (hShift : shift + 7 * limit = 7 * groupLimit width)
    (hRegister : register.toNat < 2 ^ shift) :
    LoopAgrees bytes place width value limit shift pos register (readGroups bytes limit pos)
      (readRegister next width extend shift register (place pos)) := by
  rw [readRegister, hNext]
  cases hByte : bytes[pos]? with
  | none =>
    rw [readGroups_none hByte]
    exact .cutOff (Array.getElem?_eq_none_iff.1 hByte)
  | some b =>
    obtain ⟨hGroup, hLast, -⟩ := byte_bits b
    cases limit with
    | zero =>
      have hFull : width ≤ shift := by unfold groupLimit at hShift; omega
      rw [readGroups, hByte]
      simp only [if_pos hFull]
      exact .tooLong
    | succ limit =>
      have hRoom : ¬ width ≤ shift := by unfold groupLimit at hShift; omega
      simp only [if_neg hRoom, hGroup]
      by_cases hEnd : b.toNat < 128
      · rw [readGroups_last hByte hEnd, if_pos (hLast.2 hEnd), Nat.mod_eq_of_lt hEnd]
        exact .found (List.cons_ne_nil _ _) (hCompletes.last hEnd hRegister)
      · have hLow : b.toNat % 128 < 128 := Nat.mod_lt _ (by decide)
        rw [readGroups_more hByte hEnd, if_neg (mt hLast.1 hEnd)]
        exact loopAgrees_more hWidth hCompletes hLow hRegister
          (loopAgrees hNext hWidth hCompletes (by omega) (toNat_or_shiftLeft_lt hRegister hLow))

end

end Leb128

/-! ## The two readers -/

/-- The next byte of a cursor, and the cursor behind it. -/
def Cursor.advance (c : Cursor) : Option UInt8 × Cursor :=
  match Reader.next? c with
  | .ok b c' => (b, c')
  | .error _ c' => (none, c')

theorem Cursor.advance_moveTo (c : Cursor) (pos : Nat) :
    (c.moveTo pos).advance = (c.bytes[pos]?, c.moveTo (pos + 1)) := by
  by_cases hInside : pos < c.bytes.size
  · have hPos : min pos c.bytes.size = pos := Nat.min_eq_left (Nat.le_of_lt hInside)
    have hNext : min (pos + 1) c.bytes.size = pos + 1 := Nat.min_eq_left hInside
    simp only [advance, Reader.next?, moveTo, hPos, hInside, ↓reduceDIte, getElem?_pos, hNext]
  · have hPos : min pos c.bytes.size = c.bytes.size := Nat.min_eq_right (Nat.le_of_not_lt hInside)
    have hNext : min (pos + 1) c.bytes.size = c.bytes.size := Nat.min_eq_right (by omega)
    simp [advance, Reader.next?, moveTo, hInside, hPos, hNext]

namespace Leb128

section

variable {α : Type} (width : Nat) (extend : Nat → UInt8 → BitVec 64 → BitVec 64)
  (convert : BitVec 64 → α)

/-- Reads a number at an offset into a register. -/
def registerDecode (bytes : Bytes) (pos : Nat) : Except VarintError (α × Nat) :=
  match readRegister (fun i => (bytes[i]?, i + 1)) width extend 0 0 pos with
  | (.error e, _) => .error e
  | (.ok register, next) => .ok (convert register, next)

/-- Reads a number at a cursor into a register. -/
def registerReader : Reader α := fun c =>
  match readRegister Cursor.advance width extend 0 0 c with
  | (.error e, c') => .error ⟨.varint e, c.pos⟩ c'
  | (.ok register, c') => .ok (convert register) c'

end

variable {α : Type} {width : Nat} {extend : Nat → UInt8 → BitVec 64 → BitVec 64}
  {value : List Nat → Int} {convert : BitVec 64 → α} {narrow : BitVec width → α}

theorem registerDecode_eq (hWidth : width ≤ 64) (hCompletes : Completes width extend value)
    (hConvert : ∀ register, convert register = narrow (register.setWidth width)) (bytes : Bytes)
    (pos : Nat) :
    registerDecode width extend convert bytes pos =
      (readGroups bytes (groupLimit width) pos).map fun read =>
        (narrow (BitVec.ofInt width (value read.1)), read.2) := by
  have hLoop : LoopAgrees bytes id width value (groupLimit width) 0 pos 0
      (readGroups bytes (groupLimit width) pos)
      (readRegister (fun i => (bytes[i]?, i + 1)) width extend 0 0 pos) :=
    loopAgrees (fun _ => rfl) hWidth hCompletes (Nat.zero_add _) (by decide)
  unfold registerDecode
  generalize readGroups bytes (groupLimit width) pos = split at hLoop ⊢
  generalize readRegister _ width extend 0 0 pos = found at hLoop ⊢
  cases hLoop with
  | found _ holds => simp [Except.map, hConvert, holds]
  | tooLong => rfl
  | cutOff _ => rfl

/-- A cursor is left where the number ends, at the end of the bytes, or behind the byte that made
the number too long. -/
theorem registerReader_eq (hWidth : width ≤ 64) (hCompletes : Completes width extend value)
    (hConvert : ∀ register, convert register = narrow (register.setWidth width)) :
    registerReader width extend convert =
      Reader.varint width (registerDecode width extend convert) := by
  funext c
  have hStart : c.moveTo c.pos = c := by
    have hPos : min c.pos c.bytes.size = c.pos := Nat.min_eq_left c.pos_le_size
    simp only [Cursor.moveTo, hPos]
  have hLoop : LoopAgrees c.bytes c.moveTo width value (groupLimit width) 0 c.pos 0
      (readGroups c.bytes (groupLimit width) c.pos)
      (readRegister Cursor.advance width extend 0 0 (c.moveTo c.pos)) :=
    loopAgrees c.advance_moveTo hWidth hCompletes (Nat.zero_add _) (by decide)
  rw [hStart] at hLoop
  unfold registerReader Reader.varint
  rw [registerDecode_eq hWidth hCompletes hConvert]
  generalize readGroups c.bytes (groupLimit width) c.pos = split at hLoop ⊢
  generalize readRegister _ width extend 0 0 c = found at hLoop ⊢
  cases hLoop with
  | found _ holds => simp [Except.map, hConvert, holds]
  | tooLong => simp [Except.map, stopAfter, Cursor.moveTo, Nat.min_comm]
  | @cutOff missing behind =>
    have hEnd : min (missing + 1) c.bytes.size = c.bytes.size :=
      Nat.min_eq_right (Nat.le_succ_of_le behind)
    simp [Except.map, stopAfter, Cursor.moveTo, hEnd]

/-! ## Numbers of each kind -/

/-- A decoder and a reader are copies of one loop that fills a register. -/
structure FillsRegister (width : Nat) (extend : Nat → UInt8 → BitVec 64 → BitVec 64)
    (convert : BitVec 64 → α) (decode : Bytes → Nat → Except VarintError (α × Nat))
    (reader : Reader α) : Prop where
  decode_eq : decode = registerDecode width extend convert
  reader_eq : reader = registerReader width extend convert

theorem fillsRegister_of_eq (hWidth : width ≤ 64) (hCompletes : Completes width extend value)
    (hConvert : ∀ register, convert register = narrow (register.setWidth width))
    {decode : Bytes → Nat → Except VarintError (α × Nat)}
    (hDecode : ∀ bytes pos, decode bytes pos =
      (readGroups bytes (groupLimit width) pos).map fun read =>
        (narrow (BitVec.ofInt width (value read.1)), read.2)) :
    FillsRegister width extend convert decode (Reader.varint width decode) := by
  have hEq : decode = registerDecode width extend convert := by
    funext bytes pos
    rw [hDecode, registerDecode_eq hWidth hCompletes hConvert]
  refine ⟨hEq, ?_⟩
  rw [hEq, registerReader_eq hWidth hCompletes hConvert]

theorem decodeU32_eq_map (bytes : Bytes) (pos : Nat) : decodeU32 bytes pos =
    (readGroups bytes (groupLimit 32) pos).map fun read =>
      (UInt32.ofNat (unsignedValue read.1), read.2) := by
  rw [decodeU32]
  cases readGroups bytes (groupLimit 32) pos <;> rfl

theorem decodeSigned_eq_map (width : Nat) (bytes : Bytes) (pos : Nat) :
    decodeSigned width bytes pos =
      (readGroups bytes (groupLimit width) pos).map fun read =>
        (BitVec.ofInt width (signedValue read.1), read.2) := by
  rw [decodeSigned]
  cases readGroups bytes (groupLimit width) pos <;> rfl

theorem fillsRegister_u32 :
    FillsRegister 32 keepRegister (fun register => UInt32.ofBitVec (register.setWidth 32))
      decodeU32 Reader.u32 :=
  fillsRegister_of_eq (by decide) (completes_keepRegister (by decide)) (fun _ => rfl)
    decodeU32_eq_map

theorem fillsRegister_signed (hWidth : width ≤ 64) :
    FillsRegister width (signRegister width) (BitVec.setWidth width) (decodeSigned width)
      (Reader.varint width (decodeSigned width)) :=
  fillsRegister_of_eq hWidth (completes_signRegister hWidth) (fun _ => (id_eq _).symm)
    (decodeSigned_eq_map width)

end Leb128

end WasmMachine
