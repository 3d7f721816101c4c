import WasmMachine.Proofs.Leb128.Register

/-!
# What reading a number means

A number ends with the first byte that is below 128. If that byte is among the first bytes that the
width allows, then the number is read, and it is the low seven bits of its bytes side by side, cut
down to the width; bits beyond the width and groups that add nothing are no error. Otherwise the
number is too long if there is one more byte than the width allows, and cut off if not: the end of
the bytes is noticed before the length.

* `readGroups_ended`, `readGroups_tooLong`, `readGroups_cutOff`: the three ends of a number.
* `decoding_exact`: what each decoder and each reader gives, for all bytes and offsets.
-/

namespace WasmMachine

/-! ## Where numbers end -/

/-- A byte stands at an offset, and a number ends there. -/
def EndsAt (bytes : Bytes) (pos : Nat) : Prop := ∃ b, bytes[pos]? = some b ∧ b.toNat < 0x80

/-- A byte stands at an offset, and a number goes on behind it. -/
def ContinuesAt (bytes : Bytes) (pos : Nat) : Prop := ∃ b, bytes[pos]? = some b ∧ 0x80 ≤ b.toNat

section

variable {bytes : Bytes} {limit pos k : Nat}

theorem EndsAt.lt_size (h : EndsAt bytes pos) : pos < bytes.size := by
  obtain ⟨b, hb, -⟩ := h
  exact (Array.getElem?_eq_some_iff.1 hb).1

theorem endsAt_or_continuesAt (h : pos < bytes.size) :
    EndsAt bytes pos ∨ ContinuesAt bytes pos := by
  have hByte : bytes[pos]? = some bytes[pos] := Array.getElem?_eq_getElem h
  by_cases hLast : bytes[pos].toNat < 0x80
  · exact .inl ⟨_, hByte, hLast⟩
  · exact .inr ⟨_, hByte, Nat.le_of_not_lt hLast⟩

theorem ContinuesAt.not_endsAt (h : ContinuesAt bytes pos) : ¬ EndsAt bytes pos := by
  obtain ⟨b, hb, hMore⟩ := h
  rintro ⟨b', hb', hLast⟩
  rw [hb] at hb'
  cases hb'
  omega

/-- The first of some bytes that a number goes on behind, and the others. -/
theorem continuesAt_succ (h : ∀ j < k + 1, ContinuesAt bytes (pos + j)) :
    (∃ b, bytes[pos]? = some b ∧ ¬ b.toNat < 128) ∧ ∀ j < k, ContinuesAt bytes (pos + 1 + j) := by
  obtain ⟨b, hb, hMore⟩ : ContinuesAt bytes pos := h 0 (Nat.succ_pos k)
  refine ⟨⟨b, hb, Nat.not_lt.2 hMore⟩, fun j hj => ?_⟩
  rw [Nat.add_right_comm, Nat.add_assoc]
  exact h (j + 1) (Nat.succ_lt_succ hj)

theorem continuesAt_before (hEnd : EndsAt bytes (pos + k))
    (hBefore : ∀ j < k, ¬ EndsAt bytes (pos + j)) : ∀ j < k, ContinuesAt bytes (pos + j) := by
  intro j hj
  have hInside := hEnd.lt_size
  exact (endsAt_or_continuesAt (by omega)).resolve_left (hBefore j hj)

/-- Among the bytes that a number may have, one ends it, or all go on and there is one more, or the
bytes end. -/
theorem number_ends (bytes : Bytes) (limit pos : Nat) :
    (∃ k < limit, EndsAt bytes (pos + k) ∧ ∀ j < k, ContinuesAt bytes (pos + j)) ∨
      ((∀ k < limit, ContinuesAt bytes (pos + k)) ∧ pos + limit < bytes.size) ∨
      (∃ k ≤ limit, bytes.size ≤ pos + k ∧ ∀ j < k, ContinuesAt bytes (pos + j)) := by
  induction limit with
  | zero =>
    by_cases hInside : pos < bytes.size
    · exact .inr (.inl ⟨fun k hk => absurd hk (Nat.not_lt_zero k), hInside⟩)
    · exact .inr (.inr ⟨0, Nat.le_refl _, Nat.le_of_not_lt hInside,
        fun j hj => absurd hj (Nat.not_lt_zero j)⟩)
  | succ limit ih =>
    obtain ⟨k, hk, hEnd⟩ | ⟨hAll, hInside⟩ | ⟨k, hk, hEnd⟩ := ih
    · exact .inl ⟨k, Nat.lt_succ_of_lt hk, hEnd⟩
    · rcases endsAt_or_continuesAt hInside with hEnd | hNext
      · exact .inl ⟨limit, Nat.lt_succ_self _, hEnd, hAll⟩
      · have hAll' : ∀ k < limit + 1, ContinuesAt bytes (pos + k) := fun k hk =>
          (Nat.lt_succ_iff_lt_or_eq.1 hk).elim (hAll k) fun h => h ▸ hNext
        by_cases hMore : pos + (limit + 1) < bytes.size
        · exact .inr (.inl ⟨hAll', hMore⟩)
        · exact .inr (.inr ⟨limit + 1, Nat.le_refl _, Nat.le_of_not_lt hMore, hAll'⟩)
    · exact .inr (.inr ⟨k, Nat.le_succ_of_le hk, hEnd⟩)

end

/-! ## Bits side by side -/

/-- The low seven bits of the bytes side by side, those of the first byte lowest. -/
def sideBySide : (digits : List UInt8) → BitVec (7 * digits.length)
  | [] => 0#0
  | b :: rest => sideBySide rest ++ b.toBitVec.setWidth 7

theorem toNat_sideBySide (digits : List UInt8) :
    (sideBySide digits).toNat = Leb128.unsignedValue (digitGroups digits) := by
  induction digits with
  | nil => rfl
  | cons b rest ih =>
    change (sideBySide rest ++ b.toBitVec.setWidth 7).toNat =
      b.toNat % 128 + 128 * Leb128.unsignedValue (digitGroups rest)
    have hGroup : (b.toBitVec.setWidth 7).toNat = b.toNat % 128 := BitVec.toNat_setWidth ..
    have hSmall : (b.toBitVec.setWidth 7).toNat < 2 ^ 7 := BitVec.isLt _
    rw [BitVec.toNat_append, ← Nat.shiftLeft_add_eq_or_of_lt hSmall, ih, hGroup, Nat.shiftLeft_eq]
    omega

theorem toInt_sideBySide (digits : List UInt8) :
    (sideBySide digits).toInt = Leb128.signedValue (digitGroups digits) := by
  have hLength : (digitGroups digits).length = digits.length := List.length_map ..
  have hModulus : 2 ^ (7 * digits.length) = Nat.pow 128 digits.length := Nat.pow_mul 2 7 _
  rw [BitVec.toInt_eq_toNat_cond, toNat_sideBySide, hModulus, Leb128.signedValue, hLength]

namespace Leb128

/-! ## The three ends of a number -/

section

variable {bytes : Bytes} {limit pos k : Nat}

theorem toList_extract_succ {b : UInt8} {last : Nat} (h : bytes[pos]? = some b)
    (hLast : pos < last) :
    (bytes.extract pos last).toList = b :: (bytes.extract (pos + 1) last).toList := by
  obtain ⟨hLt, hHere⟩ := Array.getElem?_eq_some_iff.1 h
  have hDrop : bytes.toList.drop pos = b :: bytes.toList.drop (pos + 1) := by
    rw [List.drop_eq_getElem_cons hLt, Array.getElem_toList, hHere]
  have hCount : last - pos = last - (pos + 1) + 1 := by omega
  rw [Array.toList_extract, Array.toList_extract, List.extract_eq_take_drop,
    List.extract_eq_take_drop, hDrop, hCount, List.take_succ_cons]

/-- A number that ends soon enough has the groups of its bytes. -/
theorem readGroups_ended (hLimit : k < limit) (hBefore : ∀ j < k, ContinuesAt bytes (pos + j))
    (hEnd : EndsAt bytes (pos + k)) :
    readGroups bytes limit pos =
      .ok (digitGroups (bytes.extract pos (pos + k + 1)).toList, pos + k + 1) := by
  induction k generalizing limit pos with
  | zero =>
    obtain ⟨limit, rfl⟩ := Nat.exists_eq_succ_of_ne_zero (Nat.ne_of_gt hLimit)
    obtain ⟨b, hb, hLast⟩ : EndsAt bytes pos := hEnd
    rw [Nat.add_zero, readGroups_last hb hLast, toList_extract_succ hb (Nat.lt_succ_self _)]
    simp [digitGroups, Nat.mod_eq_of_lt hLast]
  | succ k ih =>
    obtain ⟨limit, rfl⟩ := Nat.exists_eq_succ_of_ne_zero (Nat.ne_zero_of_lt hLimit)
    obtain ⟨⟨b, hb, hMore⟩, hOthers⟩ := continuesAt_succ hBefore
    have hShift : pos + 1 + k = pos + (k + 1) := by omega
    have hRest := ih (Nat.lt_of_succ_lt_succ hLimit) hOthers (by rwa [hShift])
    rw [readGroups_more hb hMore, hRest, hShift, toList_extract_succ hb (by omega)]
    rfl

theorem readGroups_tooLong (hAll : ∀ k < limit, ContinuesAt bytes (pos + k))
    (hMore : pos + limit < bytes.size) : readGroups bytes limit pos = .error .tooLong := by
  induction limit generalizing pos with
  | zero => rw [readGroups, Array.getElem?_eq_getElem (show pos < bytes.size from hMore)]
  | succ limit ih =>
    obtain ⟨⟨b, hb, hGoes⟩, hOthers⟩ := continuesAt_succ hAll
    rw [readGroups_more hb hGoes, ih hOthers (by omega)]
    rfl

theorem readGroups_cutOff (hLimit : k ≤ limit) (hBefore : ∀ j < k, ContinuesAt bytes (pos + j))
    (hEnd : bytes.size ≤ pos + k) : readGroups bytes limit pos = .error .unexpectedEof := by
  induction k generalizing limit pos with
  | zero => exact readGroups_none (Array.getElem?_eq_none_iff.2 hEnd)
  | succ k ih =>
    obtain ⟨limit, rfl⟩ := Nat.exists_eq_succ_of_ne_zero (Nat.ne_zero_of_lt hLimit)
    obtain ⟨⟨b, hb, hMore⟩, hOthers⟩ := continuesAt_succ hBefore
    rw [readGroups_more hb hMore, ih (Nat.le_of_succ_le_succ hLimit) hOthers (by omega)]
    rfl

/-- Groups are found exactly up to a first byte that ends a number. -/
theorem readGroups_eq_ok_iff_endsAt {groups : List Nat} {next : Nat} :
    readGroups bytes limit pos = .ok (groups, next) ↔
      ∃ k < limit, EndsAt bytes (pos + k) ∧ (∀ j < k, ¬ EndsAt bytes (pos + j)) ∧
        next = pos + k + 1 ∧ groups = digitGroups (bytes.extract pos next).toList := by
  constructor
  · intro h
    obtain ⟨k, hk, hEnd, hBefore⟩ | ⟨hAll, hMore⟩ | ⟨k, hk, hEnd, hBefore⟩ :=
      number_ends bytes limit pos
    · rw [readGroups_ended hk hBefore hEnd] at h
      cases h
      exact ⟨k, hk, hEnd, fun j hj => (hBefore j hj).not_endsAt, rfl, rfl⟩
    · rw [readGroups_tooLong hAll hMore] at h
      cases h
    · rw [readGroups_cutOff hk hBefore hEnd] at h
      cases h
  · rintro ⟨k, hk, hEnd, hBefore, rfl, rfl⟩
    exact readGroups_ended hk (continuesAt_before hEnd hBefore) hEnd

theorem exists_readGroups_iff_endsAt :
    (∃ read, readGroups bytes limit pos = .ok read) ↔ ∃ k < limit, EndsAt bytes (pos + k) := by
  constructor
  · rintro ⟨⟨groups, next⟩, h⟩
    obtain ⟨k, hk, hEnd, -⟩ := readGroups_eq_ok_iff_endsAt.1 h
    exact ⟨k, hk, hEnd⟩
  · rintro ⟨i, hi, hHere⟩
    obtain ⟨k, hk, hEnd, hBefore⟩ | ⟨hAll, -⟩ | ⟨k, hk, hEnd, hBefore⟩ :=
      number_ends bytes limit pos
    · exact ⟨_, readGroups_ended hk hBefore hEnd⟩
    · exact absurd hHere (hAll i hi).not_endsAt
    · have hInside := hHere.lt_size
      exact absurd hHere (hBefore i (by omega)).not_endsAt

theorem readGroups_eq_tooLong_iff : readGroups bytes limit pos = .error .tooLong ↔
    (∀ k < limit, ContinuesAt bytes (pos + k)) ∧ pos + limit < bytes.size := by
  constructor
  · intro h
    obtain ⟨k, hk, hEnd, hBefore⟩ | hLong | ⟨k, hk, hEnd, hBefore⟩ := number_ends bytes limit pos
    · rw [readGroups_ended hk hBefore hEnd] at h
      cases h
    · exact hLong
    · rw [readGroups_cutOff hk hBefore hEnd] at h
      cases h
  · rintro ⟨hAll, hMore⟩
    exact readGroups_tooLong hAll hMore

/-- The bytes end inside a number in all other cases. -/
theorem readGroups_eq_cutOff_iff : readGroups bytes limit pos = .error .unexpectedEof ↔
    ¬ (∃ k < limit, EndsAt bytes (pos + k)) ∧
      ¬ ((∀ k < limit, ContinuesAt bytes (pos + k)) ∧ pos + limit < bytes.size) := by
  rw [← exists_readGroups_iff_endsAt, ← readGroups_eq_tooLong_iff]
  cases readGroups bytes limit pos with
  | ok read => simp
  | error e => cases e <;> simp

end

/-! ## Decoders and readers -/

/-- A decoder and a reader take exactly the numbers of at most `limit` bytes: they give the value
of the bytes up to the first that ends a number, and fail if there is none. -/
structure ReadsExactly {α : Type} (limit : Nat) (value : List UInt8 → α)
    (decode : Bytes → Nat → Except VarintError (α × Nat)) (reader : Reader α) (c : Cursor) :
    Prop where
  succeeds : (∃ v next, decode c.bytes c.pos = .ok (v, next)) ↔
    ∃ k < limit, EndsAt c.bytes (c.pos + k)
  gives : ∀ v next, decode c.bytes c.pos = .ok (v, next) ↔
    ∃ k < limit, EndsAt c.bytes (c.pos + k) ∧ (∀ j < k, ¬ EndsAt c.bytes (c.pos + j)) ∧
      next = c.pos + k + 1 ∧ v = value (c.bytes.extract c.pos next).toList
  too_long : decode c.bytes c.pos = .error .tooLong ↔
    (∀ k < limit, ContinuesAt c.bytes (c.pos + k)) ∧ c.pos + limit < c.bytes.size
  cut_off : decode c.bytes c.pos = .error .unexpectedEof ↔
    ¬ (∃ k < limit, EndsAt c.bytes (c.pos + k)) ∧
      ¬ ((∀ k < limit, ContinuesAt c.bytes (c.pos + k)) ∧ c.pos + limit < c.bytes.size)
  /-- The reader gives the same number and stops behind it. -/
  reads : ∀ v next, decode c.bytes c.pos = .ok (v, next) →
    ∃ c', reader c = .ok v c' ∧ c'.bytes = c.bytes ∧ c'.pos = next
  /-- The reader fails for the same reason, at the start of the number. -/
  fails : ∀ e, decode c.bytes c.pos = .error e → ∃ c', reader c = .error ⟨.varint e, c.pos⟩ c'

theorem readsExactly_of_map {α : Type} (width : Nat) (result : List Nat → α)
    {decode : Bytes → Nat → Except VarintError (α × Nat)} {value : List UInt8 → α}
    (hDecode : ∀ bytes pos, decode bytes pos =
      (readGroups bytes (groupLimit width) pos).map fun read => (result read.1, read.2))
    (hValue : ∀ digits, value digits = result (digitGroups digits)) (c : Cursor) :
    ReadsExactly (groupLimit width) value decode (Reader.varint width decode) c where
  succeeds := by
    rw [← exists_readGroups_iff_endsAt, hDecode]
    cases readGroups c.bytes (groupLimit width) c.pos <;> simp [Except.map]
  gives v next := by
    have hOk : decode c.bytes c.pos = .ok (v, next) ↔
        ∃ groups, readGroups c.bytes (groupLimit width) c.pos = .ok (groups, next) ∧
          v = result groups := by
      rw [hDecode]
      cases readGroups c.bytes (groupLimit width) c.pos with
      | error e => simp [Except.map]
      | ok read => simp [Except.map, Prod.ext_iff, eq_comm, and_comm]
    rw [hOk]
    simp only [readGroups_eq_ok_iff_endsAt, hValue]
    constructor
    · rintro ⟨groups, ⟨k, hk, hEnd, hFirst, hNext, rfl⟩, hv⟩
      exact ⟨k, hk, hEnd, hFirst, hNext, hv⟩
    · rintro ⟨k, hk, hEnd, hFirst, hNext, hv⟩
      exact ⟨_, ⟨k, hk, hEnd, hFirst, hNext, rfl⟩, hv⟩
  too_long := by
    rw [← readGroups_eq_tooLong_iff, hDecode]
    cases readGroups c.bytes (groupLimit width) c.pos <;> simp [Except.map]
  cut_off := by
    rw [← readGroups_eq_cutOff_iff, hDecode]
    cases readGroups c.bytes (groupLimit width) c.pos <;> simp [Except.map]
  reads v next h := by
    obtain ⟨groups, hGroups⟩ : ∃ groups,
        readGroups c.bytes (groupLimit width) c.pos = .ok (groups, next) := by
      rw [hDecode] at h
      cases hGroups : readGroups c.bytes (groupLimit width) c.pos with
      | error e => rw [hGroups] at h; cases h
      | ok read => rw [hGroups] at h; cases h; exact ⟨read.1, rfl⟩
    refine ⟨c.moveTo next, ?_, rfl, Nat.min_eq_left (readGroups_bounds hGroups).2⟩
    rw [Reader.varint, h]
  fails e h := ⟨_, by rw [Reader.varint, h]⟩

theorem readsExactly_u32 (c : Cursor) :
    ReadsExactly 5 (fun digits => UInt32.ofNat (sideBySide digits).toNat) decodeU32 Reader.u32 c :=
  readsExactly_of_map 32 (fun groups => UInt32.ofNat (unsignedValue groups)) decodeU32_eq_map
    (fun digits => by rw [toNat_sideBySide]) c

theorem readsExactly_signed (width : Nat) (c : Cursor) :
    ReadsExactly (groupLimit width)
      (fun digits => BitVec.ofInt width (sideBySide digits).toInt) (decodeSigned width)
      (Reader.varint width (decodeSigned width)) c :=
  readsExactly_of_map width (fun groups => BitVec.ofInt width (signedValue groups))
    (decodeSigned_eq_map width) (fun digits => by rw [toInt_sideBySide]) c

/-- A number is read if it ends among the bytes that the width allows, and it is the low seven bits
of its bytes side by side, cut down to the width. The loader and the machine read it by copies of
one loop. -/
theorem decoding_exact (c : Cursor) :
    ReadsExactly 5 (fun digits => UInt32.ofNat (sideBySide digits).toNat) decodeU32 Reader.u32 c ∧
    ReadsExactly 5 (fun digits => BitVec.ofInt 32 (sideBySide digits).toInt) decodeS32
      Reader.s32 c ∧
    ReadsExactly 10 (fun digits => BitVec.ofInt 64 (sideBySide digits).toInt) decodeS64
      Reader.s64 c ∧
    FillsRegister 32 keepRegister (fun register => UInt32.ofBitVec (register.setWidth 32))
      decodeU32 Reader.u32 ∧
    FillsRegister 32 (signRegister 32) (BitVec.setWidth 32) decodeS32 Reader.s32 ∧
    FillsRegister 64 (signRegister 64) (BitVec.setWidth 64) decodeS64 Reader.s64 :=
  ⟨readsExactly_u32 c, readsExactly_signed 32 c, readsExactly_signed 64 c, fillsRegister_u32,
    fillsRegister_signed (by decide), fillsRegister_signed (by decide)⟩

end Leb128

end WasmMachine
