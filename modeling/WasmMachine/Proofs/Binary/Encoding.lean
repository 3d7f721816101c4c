import WasmMachine.Proofs.Binary.Layout
import WasmMachine.Proofs.Structured.Driver

/-!
# Writing the parts of a module

The binary form of every entry of a section, and for each reader that it takes exactly this form
and gives back the entry. Counts, indices and sizes are written in their shortest LEB128 form; the
locals of a body are written in any runs that add up to them.

* `Written`: a form stands at an offset and can be counted in 32 bits.
* `Reader.Takes`: a reader gives a result and stops right behind a form.
* `Reader.takes_vector`: a vector is read item by item; an item may depend on where it stands.
-/

namespace WasmMachine

open Leb128 (encodeU32 groupLimit readGroups)

/-! ## Forms -/

/-- A number of items or of bytes. -/
def encodeCount (n : Nat) : List UInt8 := encodeU32 (UInt32.ofNat n)

/-- Items after their number. -/
def encodeVector {α : Type} (encode : α → List UInt8) (items : List α) : List UInt8 :=
  encodeCount items.length ++ items.flatMap encode

/-- A text in UTF-8 after its length in bytes. -/
def encodeName (name : String) : List UInt8 :=
  encodeCount name.toByteArray.size ++ name.toByteArray.data.toList

def encodeTypes (types : List ValueType) : List UInt8 :=
  encodeVector (fun t => [t.toByte]) types

def FunctionType.encode (t : FunctionType) : List UInt8 :=
  0x60 :: (encodeTypes t.parameters ++ encodeTypes t.results)

def Limits.encode (l : Limits) : List UInt8 :=
  match l.max with
  | none => 0x00 :: encodeU32 l.min
  | some max => 0x01 :: (encodeU32 l.min ++ encodeU32 max)

def encodeTable (l : Limits) : List UInt8 := 0x70 :: l.encode

def GlobalType.encode (t : GlobalType) : List UInt8 :=
  [t.type.toByte, if t.isMutable then 0x01 else 0x00]

def ImportKind.encode : ImportKind → List UInt8
  | .function typeIndex => 0x00 :: encodeU32 typeIndex
  | .table limits => 0x01 :: encodeTable limits
  | .memory limits => 0x02 :: limits.encode
  | .global type => 0x03 :: type.encode

def Import.encode (i : Import) : List UInt8 :=
  encodeName i.module ++ (encodeName i.name ++ i.kind.encode)

def ExportTarget.encode : ExportTarget → List UInt8
  | .function index => 0x00 :: encodeU32 index
  | .table index => 0x01 :: encodeU32 index
  | .memory index => 0x02 :: encodeU32 index
  | .global index => 0x03 :: encodeU32 index

def Export.encode (e : Export) : List UInt8 := encodeName e.name ++ e.target.encode

def GlobalDecl.encode (g : GlobalDecl) : List UInt8 := g.type.encode ++ g.init.toList

def ElementSegment.encode (e : ElementSegment) : List UInt8 :=
  encodeU32 e.table ++ (e.offset.toList ++ encodeVector encodeU32 e.functions.toList)

def DataSegment.encode (d : DataSegment) : List UInt8 :=
  encodeU32 d.memory ++ (d.offset.toList ++ (encodeCount d.bytes.size ++ d.bytes.toList))

def CustomSection.encode (c : CustomSection) : List UInt8 := encodeName c.name ++ c.bytes.toList

/-- Some locals of one type. -/
structure Run where
  count : UInt32
  type : ValueType

def Run.encode (r : Run) : List UInt8 := encodeU32 r.count ++ [r.type.toByte]

theorem Run.encode_ne_nil (r : Run) : r.encode ≠ [] :=
  List.append_ne_nil_of_right_ne_nil _ (List.cons_ne_nil _ _)

/-- The locals that runs add up to. -/
def expandRuns (runs : List Run) : Array ValueType :=
  (runs.flatMap fun r => List.replicate r.count.toNat r.type).toArray

/-- The locals of a body in runs, followed by its code. -/
def encodeBodyContent (runs : List Run) (code : Bytes) : List UInt8 :=
  encodeVector Run.encode runs ++ code.toList

def encodeBody (runs : List Run) (code : Bytes) : List UInt8 :=
  encodeCount (encodeBodyContent runs code).length ++ encodeBodyContent runs code

/-! ## Initializers -/

/-- Bytes that form one LEB128 number of at most `limit` groups. -/
inductive IsVarint : (limit : Nat) → List UInt8 → Prop
  | last {limit : Nat} {b : UInt8} (h : b.toNat < 128) : IsVarint (limit + 1) [b]
  | more {limit : Nat} {b : UInt8} {rest : List UInt8} (h : 128 ≤ b.toNat)
      (tail : IsVarint limit rest) : IsVarint (limit + 1) (b :: rest)

/-- The groups of seven bits that the bytes of a number hold. -/
def digitGroups (digits : List UInt8) : List Nat := digits.map fun b => b.toNat % 128

theorem readGroups_of_isVarint {bytes : Bytes} {limit pos : Nat} {digits : List UInt8}
    (h : IsVarint limit digits) (hStands : StandsAt bytes pos digits) :
    readGroups bytes limit pos = .ok (digitGroups digits, pos + digits.length) := by
  induction h generalizing pos with
  | @last limit b hLast =>
    rw [readGroups, hStands.head]
    simp only [if_pos hLast, digitGroups, List.map_cons, List.map_nil, Nat.mod_eq_of_lt hLast,
      List.length_singleton]
  | @more limit b rest hMore tail ih =>
    have hGroup : b.toNat % 128 = b.toNat - 128 := by
      have hByte := b.toNat_lt
      omega
    rw [readGroups, hStands.head]
    simp only [if_neg (Nat.not_lt.2 hMore), ih hStands.tail, digitGroups, List.map_cons, hGroup,
      List.length_cons]
    rw [Nat.add_right_comm, Nat.add_assoc]

/-- A number is read exactly where its bytes stand. -/
theorem readGroups_eq_ok_iff {bytes : Bytes} {limit pos next : Nat} {groups : List Nat} :
    readGroups bytes limit pos = .ok (groups, next) ↔
      ∃ digits, IsVarint limit digits ∧ StandsAt bytes pos digits ∧
        groups = digitGroups digits ∧ next = pos + digits.length := by
  constructor
  · intro h
    induction limit generalizing pos next groups with
    | zero =>
      unfold readGroups at h
      split at h <;> cases h
    | succ limit ih =>
      have hFound : ∃ digits, IsVarint (limit + 1) digits ∧ StandsAt bytes pos digits := by
        unfold readGroups at h
        split at h
        · cases h
        · rename_i b hb
          split at h
          · rename_i hLast
            exact ⟨[b], .last hLast, .cons hb ⟨_, rfl⟩⟩
          · rename_i hMore
            split at h
            · cases h
            · rename_i hRest
              obtain ⟨digits, hDigits, hStands, -, -⟩ := ih hRest
              exact ⟨b :: digits, .more (Nat.not_lt.1 hMore) hDigits, .cons hb hStands⟩
      obtain ⟨digits, hDigits, hStands⟩ := hFound
      rw [readGroups_of_isVarint hDigits hStands] at h
      cases h
      exact ⟨digits, hDigits, hStands, rfl, rfl⟩
  · rintro ⟨digits, hDigits, hStands, rfl, rfl⟩
    exact readGroups_of_isVarint hDigits hStands

/-- The operands that an instruction of an initializer may have. -/
def Operands.InitForm : Operands → List UInt8 → Prop
  | .empty, operands => operands = []
  | .varU32, operands => IsVarint (groupLimit 32) operands
  | .varS32, operands => IsVarint (groupLimit 32) operands
  | .varS64, operands => IsVarint (groupLimit 64) operands
  | .float32, operands => operands.length = 4
  | .float64, operands => operands.length = 8
  | _, _ => False

/-- A run of known instructions that is closed by its first `end`. -/
inductive IsInitializer : List UInt8 → Prop
  | stop : IsInitializer [endByte]
  | step {b : UInt8} {op : Opcode} {operands rest : List UInt8} (not_end : b ≠ endByte)
      (known : Opcode.ofByte? b = some op) (form : op.operands.InitForm operands)
      (tail : IsInitializer rest) : IsInitializer (b :: (operands ++ rest))

/-! ## Forms at an offset -/

/-- A form stands in the bytes at an offset, in full, and is short enough to be counted. -/
structure Written (bytes : Bytes) (pos : Nat) (form : List UInt8) : Prop where
  stands : StandsAt bytes pos form
  fits : pos + form.length ≤ bytes.size
  small : form.length < UInt32.size

namespace Written

variable {bytes : Bytes} {pos : Nat} {b : UInt8} {form first second : List UInt8}

theorem left (h : Written bytes pos (first ++ second)) : Written bytes pos first := by
  obtain ⟨hStands, hFits, hSmall⟩ := h
  rw [List.length_append] at hFits hSmall
  exact ⟨hStands.append_left, by omega, by omega⟩

theorem right (h : Written bytes pos (first ++ second)) :
    Written bytes (pos + first.length) second := by
  obtain ⟨hStands, hFits, hSmall⟩ := h
  rw [List.length_append] at hFits hSmall
  exact ⟨hStands.append_right, by omega, by omega⟩

theorem head (h : Written bytes pos (b :: form)) : Written bytes pos [b] := by
  have hSplit : Written bytes pos ([b] ++ form) := h
  exact hSplit.left

theorem tail (h : Written bytes pos (b :: form)) : Written bytes (pos + 1) form := by
  have hSplit : Written bytes pos ([b] ++ form) := h
  exact hSplit.right

theorem pos_le (h : Written bytes pos form) : pos ≤ bytes.size :=
  Nat.le_trans (Nat.le_add_right _ _) h.fits

theorem extract_eq (h : Written bytes pos form) :
    bytes.extract pos (pos + form.length) = form.toArray := by
  obtain ⟨rest, hRest⟩ := h.stands
  rw [← Array.toList_inj, Array.toList_extract, List.extract_eq_take_drop, hRest,
    Nat.add_sub_cancel_left, List.take_left']
  rfl

/-- A count that is at most the length of what was written is not cut off. -/
theorem toNat_count (h : Written bytes pos form) {n : Nat} (hn : n ≤ form.length) :
    (UInt32.ofNat n).toNat = n :=
  UInt32.toNat_ofNat_of_lt' (Nat.lt_of_le_of_lt hn h.small)

end Written

/-- The cursor at an offset. -/
def cursorAt (bytes : Bytes) (pos : Nat) : Cursor := (Cursor.start bytes).moveTo pos

theorem pos_cursorAt {bytes : Bytes} {pos : Nat} (h : pos ≤ bytes.size) :
    (cursorAt bytes pos).pos = pos :=
  Cursor.pos_moveTo h

namespace Reader

variable {α β : Type} {bytes : Bytes} {pos : Nat} {form : List UInt8}

/-- The reader gives a result and stops right behind a form. -/
def Takes (item : Reader α) (bytes : Bytes) (pos : Nat) (form : List UInt8) (a : α) : Prop :=
  item (cursorAt bytes pos) = .ok a (cursorAt bytes (pos + form.length))

theorem takes_pure (a : α) : Takes (pure a) bytes pos [] a := rfl

theorem takes_bind {item : Reader α} {next : α → Reader β} {first second : List UInt8} {a : α}
    {b : β} (hItem : Takes item bytes pos first a)
    (hNext : Takes (next a) bytes (pos + first.length) second b) :
    Takes (item >>= next) bytes pos (first ++ second) b := by
  unfold Takes at *
  rw [List.length_append, ← Nat.add_assoc, ← hNext]
  change EStateM.bind item next _ = _
  simp only [EStateM.bind, hItem]

/-- What follows the last bytes of a form takes none. -/
theorem takes_last {item : Reader α} {next : α → Reader β} {a : α} {b : β}
    (hItem : Takes item bytes pos form a)
    (hNext : Takes (next a) bytes (pos + form.length) [] b) :
    Takes (item >>= next) bytes pos form b := by
  have hBoth := takes_bind hItem hNext
  rw [List.append_nil] at hBoth
  exact hBoth

/-- A reader whose result is only packed up takes the same form. -/
theorem takes_map {item : Reader α} {f : α → β} {a : α} (hItem : Takes item bytes pos form a) :
    Takes (item >>= fun a => pure (f a)) bytes pos form (f a) :=
  takes_last hItem (takes_pure (f a))

/-- Looking at the position takes no byte. -/
theorem takes_position_bind {next : Nat → Reader β} {b : β} (hPos : pos ≤ bytes.size)
    (hNext : Takes (next pos) bytes pos form b) :
    Takes (position >>= next) bytes pos form b := by
  change next (cursorAt bytes pos).pos (cursorAt bytes pos) = _
  rw [pos_cursorAt hPos]
  exact hNext

theorem takes_hasAtLeast_bind {count : Nat} {next : Bool → Reader β} {b : β}
    (hFits : pos + count ≤ bytes.size) (hNext : Takes (next true) bytes pos form b) :
    Takes (hasAtLeast count >>= next) bytes pos form b := by
  have hCount : decide (count ≤ (cursorAt bytes pos).remaining) = true := by
    rw [Cursor.remaining, pos_cursorAt (Nat.le_trans (Nat.le_add_right _ _) hFits)]
    exact decide_eq_true (Nat.le_sub_of_add_le' hFits)
  change next (decide (count ≤ (cursorAt bytes pos).remaining)) (cursorAt bytes pos) = _
  rw [hCount]
  exact hNext

/-! ## Bytes and numbers -/

theorem takes_byte {b : UInt8} (h : Written bytes pos [b]) : Takes byte bytes pos [b] b := by
  have hLt : pos < bytes.size := h.fits
  have hPos : (cursorAt bytes pos).pos = pos := pos_cursorAt h.pos_le
  have hByte : bytes[pos]? = some b := h.stands.head
  have hNext : next? (cursorAt bytes pos) = .ok (some b) (cursorAt bytes (pos + 1)) := by
    unfold next?
    have hBytes : (cursorAt bytes pos).bytes = bytes := rfl
    rw [dif_pos (by rw [hPos, hBytes]; exact hLt)]
    have hValue := (Array.getElem?_eq_some_iff.1 hByte).2
    congr 1
    · simp only [hPos]
      exact congrArg some hValue
    · have hEnd : min (pos + 1) bytes.size = pos + 1 := Nat.min_eq_left hLt
      simp only [cursorAt, Cursor.moveTo, Cursor.start, Cursor.mk.injEq, true_and]
      rw [Nat.min_eq_left h.pos_le, hEnd]
  change EStateM.bind next? _ _ = _
  simp only [EStateM.bind, hNext]
  rfl

theorem takes_bytes (h : Written bytes pos form) :
    Takes (Reader.bytes form.length) bytes pos form form.toArray := by
  have hPos : (cursorAt bytes pos).pos = pos := pos_cursorAt h.pos_le
  have hFits := h.fits
  unfold Takes Reader.bytes
  rw [if_pos (by simp only [Cursor.remaining, hPos]; change _ ≤ bytes.size - pos; omega)]
  rw [hPos, ← h.extract_eq]
  rfl

theorem takes_varint {width : Nat} {decode : Bytes → Nat → Except VarintError (α × Nat)} {a : α}
    (hPos : pos ≤ bytes.size) (hDecode : decode bytes pos = .ok (a, pos + form.length)) :
    Takes (varint width decode) bytes pos form a := by
  have hBytes : (cursorAt bytes pos).bytes = bytes := rfl
  unfold Takes varint
  simp only [pos_cursorAt hPos, hBytes, hDecode]
  rfl

theorem takes_u32 {v : UInt32} (h : Written bytes pos (encodeU32 v)) :
    Takes u32 bytes pos (encodeU32 v) v :=
  takes_varint h.pos_le (Leb128.decodeU32_encodeU32 h.stands)

theorem takes_count {n : Nat} (h : Written bytes pos (encodeCount n)) :
    Takes u32 bytes pos (encodeCount n) (UInt32.ofNat n) :=
  takes_u32 h

/-! ## Strings and vectors -/

/-- A text is read whatever form its length is written in. -/
theorem takes_string_of_length {digits : List UInt8} {len : UInt32} {name : String}
    (hLen : Takes u32 bytes pos digits len) (hSize : len.toNat = name.toByteArray.size)
    (h : Written bytes pos (digits ++ name.toByteArray.data.toList)) :
    Takes string bytes pos (digits ++ name.toByteArray.data.toList) name := by
  refine takes_bind hLen ?_
  refine takes_position_bind h.right.pos_le ?_
  rw [hSize]
  have hText : String.fromUTF8? ⟨name.toByteArray.data.toList.toArray⟩ = some name :=
    dif_pos name.isValidUTF8
  refine takes_last (takes_bytes h.right) ?_
  rw [hText]
  exact takes_pure name

theorem takes_string {name : String} (h : Written bytes pos (encodeName name)) :
    Takes string bytes pos (encodeName name) name := by
  have hCount := h.toNat_count (n := name.toByteArray.size) (by
    rw [encodeName, List.length_append, Array.length_toList]
    exact Nat.le_add_left _ _)
  exact takes_string_of_length (takes_count h.left) hCount h

theorem takes_byteVector {content : Bytes}
    (h : Written bytes pos (encodeCount content.size ++ content.toList)) :
    Takes byteVector bytes pos (encodeCount content.size ++ content.toList) content := by
  have hCount := h.toNat_count (n := content.size) (by
    rw [List.length_append, Array.length_toList]
    exact Nat.le_add_left _ _)
  refine takes_bind (takes_count h.left) ?_
  rw [hCount]
  exact takes_bytes h.right

/-- What items that follow each other are read as, when a reader may look at its position. -/
def laidOut (encode : α → List UInt8) (value : Nat → α → β) : Nat → List α → List β
  | _, [] => []
  | pos, x :: rest => value pos x :: laidOut encode value (pos + (encode x).length) rest

@[simp] theorem laidOut_const (encode : α → List UInt8) (pos : Nat) (xs : List α) :
    laidOut encode (fun _ x => x) pos xs = xs := by
  induction xs generalizing pos with
  | nil => rfl
  | cons x rest ih => rw [laidOut, ih]

@[simp] theorem length_laidOut (encode : α → List UInt8) (value : Nat → α → β) (pos : Nat)
    (xs : List α) : (laidOut encode value pos xs).length = xs.length := by
  induction xs generalizing pos with
  | nil => rfl
  | cons x rest ih => rw [laidOut, List.length_cons, ih, List.length_cons]

theorem laidOut_append (encode : α → List UInt8) (value : Nat → α → β) (pos : Nat)
    (xs ys : List α) : laidOut encode value pos (xs ++ ys) =
      laidOut encode value pos xs ++
        laidOut encode value (pos + (xs.flatMap encode).length) ys := by
  induction xs generalizing pos with
  | nil => rfl
  | cons x rest ih =>
    rw [List.cons_append, laidOut, laidOut, ih, List.flatMap_cons, List.length_append,
      Nat.add_assoc]
    rfl

theorem exists_getElem?_laidOut (encode : α → List UInt8) (value : Nat → α → β) (pos : Nat)
    {xs : List α} {k : Nat} {x : α} (h : xs[k]? = some x) :
    ∃ place, (laidOut encode value pos xs)[k]? = some (value place x) := by
  induction xs generalizing pos k with
  | nil => cases h
  | cons y rest ih =>
    cases k with
    | zero =>
      cases h
      exact ⟨pos, rfl⟩
    | succ k => exact ih _ h

theorem reads_laidOut {item : Reader β} {encode : α → List UInt8} {value : Nat → α → β}
    {xs : List α}
    (hItem : ∀ x ∈ xs, ∀ pos, Written bytes pos (encode x) →
      Takes item bytes pos (encode x) (value pos x))
    (h : Written bytes pos (xs.flatMap encode)) :
    Reads item (cursorAt bytes pos) (laidOut encode value pos xs)
      (cursorAt bytes (pos + (xs.flatMap encode).length)) := by
  induction xs generalizing pos with
  | nil => exact .nil
  | cons x rest ih =>
    rw [List.flatMap_cons] at h ⊢
    have hRest := ih (fun y hy => hItem y (List.mem_cons_of_mem x hy)) h.right
    rw [List.length_append, ← Nat.add_assoc]
    exact .cons (hItem x List.mem_cons_self pos h.left) hRest

theorem length_le_flatMap {encode : α → List UInt8} {xs : List α}
    (hNonempty : ∀ x ∈ xs, encode x ≠ []) : xs.length ≤ (xs.flatMap encode).length := by
  induction xs with
  | nil => exact Nat.zero_le _
  | cons x rest ih =>
    have hHead := List.length_pos_iff.2 (hNonempty x List.mem_cons_self)
    have hRest := ih fun y hy => hNonempty y (List.mem_cons_of_mem x hy)
    rw [List.flatMap_cons, List.length_append, List.length_cons]
    omega

/-- A vector is read item by item, at the places where the items stand. -/
theorem takes_vector {item : Reader β} {encode : α → List UInt8} {value : Nat → α → β}
    {xs : List α} (hNonempty : ∀ x ∈ xs, encode x ≠ [])
    (hItem : ∀ x ∈ xs, ∀ pos, Written bytes pos (encode x) →
      Takes item bytes pos (encode x) (value pos x))
    (h : Written bytes pos (encodeVector encode xs)) :
    Takes (vector item) bytes pos (encodeVector encode xs)
      (laidOut encode value (pos + (encodeCount xs.length).length) xs).toArray := by
  have hCount := h.right.toNat_count (length_le_flatMap hNonempty)
  refine takes_bind (takes_count h.left) ?_
  rw [hCount]
  exact collect_eq_ok_iff.2
    ⟨laidOut encode value _ xs, length_laidOut _ _ _ _, by simp, reads_laidOut hItem h.right⟩

/-- A vector of items that do not look at their position. -/
theorem takes_items {item : Reader α} {encode : α → List UInt8} {xs : List α}
    (hNonempty : ∀ x ∈ xs, encode x ≠ [])
    (hItem : ∀ x ∈ xs, ∀ pos, Written bytes pos (encode x) → Takes item bytes pos (encode x) x)
    (h : Written bytes pos (encodeVector encode xs)) :
    Takes (vector item) bytes pos (encodeVector encode xs) xs.toArray := by
  have hVector : Takes (vector item) bytes pos (encodeVector encode xs)
      (laidOut encode (fun _ x => x) (pos + (encodeCount xs.length).length) xs).toArray :=
    takes_vector hNonempty hItem h
  rw [laidOut_const] at hVector
  exact hVector

theorem encodeU32_ne_nil (v : UInt32) : encodeU32 v ≠ [] := by
  unfold encodeU32 Leb128.encodeUnsigned
  split <;> simp

/-! ## Types -/

theorem takes_valueType {t : ValueType} (h : Written bytes pos [t.toByte]) :
    Takes valueType bytes pos [t.toByte] t := by
  refine takes_position_bind h.pos_le ?_
  refine takes_last (takes_byte h) ?_
  rw [ValueType.ofByte?_toByte]
  exact takes_pure t

theorem takes_resultTypes {types : List ValueType} (h : Written bytes pos (encodeTypes types)) :
    Takes resultTypes bytes pos (encodeTypes types) types :=
  takes_map (f := Array.toList)
    (takes_items (fun _ _ => List.cons_ne_nil _ _) (fun _ _ _ => takes_valueType) h)

theorem takes_functionType {t : FunctionType} (h : Written bytes pos t.encode) :
    Takes functionType bytes pos t.encode t := by
  refine takes_position_bind h.pos_le ?_
  refine takes_bind (takes_byte h.head) ?_
  rw [if_neg (by decide)]
  refine takes_bind (takes_resultTypes h.tail.left) ?_
  exact takes_map (f := fun results => FunctionType.mk t.parameters results)
    (takes_resultTypes h.tail.right)

theorem takes_limits {l : Limits} (h : Written bytes pos l.encode) :
    Takes limits bytes pos l.encode l := by
  obtain ⟨min, max⟩ := l
  refine takes_position_bind h.pos_le ?_
  cases max with
  | none =>
    refine takes_bind (takes_byte h.head) ?_
    rw [if_pos rfl]
    exact takes_map (f := fun min => Limits.mk min none) (takes_u32 h.tail)
  | some max =>
    refine takes_bind (takes_byte h.head) ?_
    rw [if_neg (by decide), if_pos rfl]
    refine takes_bind (takes_u32 h.tail.left) ?_
    exact takes_map (f := fun max => Limits.mk min (some max)) (takes_u32 h.tail.right)

theorem takes_tableType {l : Limits} (h : Written bytes pos (encodeTable l)) :
    Takes tableType bytes pos (encodeTable l) l := by
  refine takes_position_bind h.pos_le ?_
  refine takes_bind (takes_byte h.head) ?_
  rw [if_neg (by decide)]
  exact takes_limits h.tail

theorem takes_globalType {t : GlobalType} (h : Written bytes pos t.encode) :
    Takes globalType bytes pos t.encode t := by
  obtain ⟨type, isMutable⟩ := t
  refine takes_bind (takes_valueType h.head) ?_
  refine takes_position_bind h.tail.pos_le ?_
  refine takes_bind (takes_byte h.tail) ?_
  cases isMutable <;> exact takes_pure _

/-! ## Initializers -/

theorem takes_initOperands {b : UInt8} {op : Opcode} {operands : List UInt8} (place : Nat)
    (hKnown : Opcode.ofByte? b = some op) (hForm : op.operands.InitForm operands)
    (h : Written bytes pos operands) :
    Takes (initOperands b place) bytes pos operands () := by
  have hNumber : ∀ limit, IsVarint limit operands → ∃ groups,
      readGroups bytes limit pos = .ok (groups, pos + operands.length) :=
    fun limit hVarint => ⟨_, readGroups_of_isVarint hVarint h.stands⟩
  unfold initOperands
  rw [hKnown, Option.map_some]
  generalize op.operands = layout at hForm
  cases layout with
  | empty =>
    obtain rfl : operands = [] := hForm
    exact takes_pure ()
  | varU32 =>
    obtain ⟨groups, hGroups⟩ := hNumber _ hForm
    have hDecode : Leb128.decodeU32 bytes pos =
        .ok (UInt32.ofNat (Leb128.unsignedValue groups), pos + operands.length) := by
      rw [Leb128.decodeU32, hGroups]
    exact takes_map (f := fun _ => ()) (takes_varint h.pos_le hDecode)
  | varS32 =>
    obtain ⟨groups, hGroups⟩ := hNumber _ hForm
    have hDecode : Leb128.decodeS32 bytes pos =
        .ok (BitVec.ofInt 32 (Leb128.signedValue groups), pos + operands.length) := by
      rw [Leb128.decodeS32, Leb128.decodeSigned, hGroups]
    exact takes_map (f := fun _ => ()) (takes_varint h.pos_le hDecode)
  | varS64 =>
    obtain ⟨groups, hGroups⟩ := hNumber _ hForm
    have hDecode : Leb128.decodeS64 bytes pos =
        .ok (BitVec.ofInt 64 (Leb128.signedValue groups), pos + operands.length) := by
      rw [Leb128.decodeS64, Leb128.decodeSigned, hGroups]
    exact takes_map (f := fun _ => ()) (takes_varint h.pos_le hDecode)
  | float32 =>
    have hTaken := takes_bytes h
    rw [show operands.length = 4 from hForm] at hTaken
    exact takes_map (f := fun _ => ()) hTaken
  | float64 =>
    have hTaken := takes_bytes h
    rw [show operands.length = 8 from hForm] at hTaken
    exact takes_map (f := fun _ => ()) hTaken
  | _ => exact hForm.elim

theorem takes_initInstructions {fuel : Nat} (hInit : IsInitializer form)
    (hFuel : form.length ≤ fuel) (h : Written bytes pos form) :
    Takes (initInstructions fuel) bytes pos form () := by
  induction hInit generalizing fuel pos with
  | stop =>
    cases fuel with
    | zero => cases hFuel
    | succ fuel =>
      refine takes_position_bind h.pos_le ?_
      refine takes_last (takes_byte h) ?_
      rw [if_pos rfl]
      exact takes_pure ()
  | @step b op operands rest not_end known operandForm tail ih =>
    cases fuel with
    | zero => cases hFuel
    | succ fuel =>
      have hLength : rest.length ≤ fuel := by
        rw [List.length_cons, List.length_append] at hFuel
        omega
      refine takes_position_bind h.pos_le ?_
      refine takes_bind (takes_byte h.head) ?_
      rw [if_neg not_end]
      refine takes_bind (takes_initOperands pos known operandForm h.tail.left) ?_
      exact ih hLength h.tail.right

/-- An initializer is kept as it stands. -/
theorem takes_initExpr {init : Bytes} (hInit : IsInitializer init.toList)
    (h : Written bytes pos init.toList) : Takes initExpr bytes pos init.toList init := by
  have hPos : (cursorAt bytes pos).pos = pos := pos_cursorAt h.pos_le
  have hFits := h.fits
  refine takes_position_bind h.pos_le ?_
  have hLeft : (cursorAt bytes pos).remaining = bytes.size - pos := by
    rw [Cursor.remaining, hPos]
    rfl
  have hRun : Takes (initInstructions ((cursorAt bytes pos).remaining + 1)) bytes pos
      init.toList () :=
    takes_initInstructions hInit (by rw [hLeft]; omega) h
  have hTaken : (cursorAt bytes (pos + init.toList.length)).slice pos
      (cursorAt bytes (pos + init.toList.length)).pos = init := by
    rw [pos_cursorAt hFits]
    exact h.extract_eq
  change Takes
    (initInstructions ((cursorAt bytes pos).remaining + 1) >>= fun _ => consumedSince pos)
    bytes pos init.toList init
  refine takes_last hRun ?_
  change EStateM.Result.ok _ _ = _
  rw [hTaken]
  rfl

/-! ## Entries -/

theorem takes_importEntry {i : Import} (h : Written bytes pos i.encode) :
    Takes importEntry bytes pos i.encode i := by
  obtain ⟨module, name, kind⟩ := i
  refine takes_bind (takes_string h.left) ?_
  refine takes_bind (takes_string h.right.left) ?_
  have hKind := h.right.right
  refine takes_position_bind hKind.pos_le ?_
  cases kind with
  | function typeIndex =>
    refine takes_bind (takes_byte hKind.head) ?_
    rw [if_pos rfl]
    exact takes_map (f := fun index => Import.mk module name (.function index))
      (takes_u32 hKind.tail)
  | table limits =>
    refine takes_bind (takes_byte hKind.head) ?_
    rw [if_neg (by decide), if_pos rfl]
    exact takes_map (f := fun limits => Import.mk module name (.table limits))
      (takes_tableType hKind.tail)
  | memory limits =>
    refine takes_bind (takes_byte hKind.head) ?_
    rw [if_neg (by decide), if_neg (by decide), if_pos rfl]
    exact takes_map (f := fun limits => Import.mk module name (.memory limits))
      (takes_limits hKind.tail)
  | global type =>
    refine takes_bind (takes_byte hKind.head) ?_
    rw [if_neg (by decide), if_neg (by decide), if_neg (by decide), if_pos rfl]
    exact takes_map (f := fun type => Import.mk module name (.global type))
      (takes_globalType hKind.tail)

theorem takes_typeIndex {typeCount : Nat} {index : UInt32} (hIndex : index.toNat < typeCount)
    (h : Written bytes pos (encodeU32 index)) :
    Takes (typeIndex typeCount) bytes pos (encodeU32 index) index := by
  refine takes_position_bind h.pos_le ?_
  refine takes_last (takes_u32 h) ?_
  rw [if_neg (Nat.not_le.2 hIndex)]
  exact takes_pure index

theorem takes_globalEntry {g : GlobalDecl} (hInit : IsInitializer g.init.toList)
    (h : Written bytes pos g.encode) : Takes globalEntry bytes pos g.encode g := by
  refine takes_bind (takes_globalType h.left) ?_
  exact takes_map (f := fun init => GlobalDecl.mk g.type init) (takes_initExpr hInit h.right)

theorem takes_exportEntry {e : Export} (h : Written bytes pos e.encode) :
    Takes exportEntry bytes pos e.encode e := by
  obtain ⟨name, target⟩ := e
  refine takes_bind (takes_string h.left) ?_
  have hTarget := h.right
  refine takes_position_bind hTarget.pos_le ?_
  cases target with
  | function index =>
    refine takes_bind (takes_byte hTarget.head) ?_
    exact takes_map (f := fun index => Export.mk name (.function index)) (takes_u32 hTarget.tail)
  | table index =>
    refine takes_bind (takes_byte hTarget.head) ?_
    exact takes_map (f := fun index => Export.mk name (.table index)) (takes_u32 hTarget.tail)
  | memory index =>
    refine takes_bind (takes_byte hTarget.head) ?_
    exact takes_map (f := fun index => Export.mk name (.memory index)) (takes_u32 hTarget.tail)
  | global index =>
    refine takes_bind (takes_byte hTarget.head) ?_
    exact takes_map (f := fun index => Export.mk name (.global index)) (takes_u32 hTarget.tail)

theorem takes_elementEntry {e : ElementSegment} (hInit : IsInitializer e.offset.toList)
    (h : Written bytes pos e.encode) : Takes elementEntry bytes pos e.encode e := by
  refine takes_bind (takes_u32 h.left) ?_
  refine takes_bind (takes_initExpr hInit h.right.left) ?_
  exact takes_map (f := fun functions => ElementSegment.mk e.table e.offset functions)
    (takes_items (fun v _ => encodeU32_ne_nil v) (fun _ _ _ => takes_u32) h.right.right)

theorem takes_dataEntry {d : DataSegment} (hInit : IsInitializer d.offset.toList)
    (h : Written bytes pos d.encode) : Takes dataEntry bytes pos d.encode d := by
  refine takes_bind (takes_u32 h.left) ?_
  refine takes_bind (takes_initExpr hInit h.right.left) ?_
  exact takes_map (f := fun content => DataSegment.mk d.memory d.offset content)
    (takes_byteVector h.right.right)

/-! ## Bodies -/

theorem takes_localRuns {runs : List Run} (found : Array ValueType)
    (hLocals : found.size + (expandRuns runs).size ≤ maxLocals)
    (h : Written bytes pos (runs.flatMap Run.encode)) :
    Takes (localRuns runs.length found) bytes pos (runs.flatMap Run.encode)
      (found ++ expandRuns runs) := by
  induction runs generalizing found pos with
  | nil =>
    have hNone : found ++ expandRuns [] = found := by simp [expandRuns]
    rw [hNone]
    exact takes_pure found
  | cons r rest ih =>
    have hSplit : expandRuns (r :: rest) =
        Array.replicate r.count.toNat r.type ++ expandRuns rest := by
      simp [expandRuns]
    rw [hSplit, ← Array.append_assoc]
    rw [hSplit, Array.size_append, Array.size_replicate] at hLocals
    rw [List.flatMap_cons] at h ⊢
    refine takes_position_bind h.pos_le ?_
    rw [Run.encode, List.append_assoc] at h ⊢
    refine takes_bind (takes_u32 h.left) ?_
    rw [if_neg (by omega)]
    refine takes_bind (takes_valueType h.right.left) ?_
    exact ih _ (by rw [Array.size_append, Array.size_replicate]; omega) h.right.right

/-- The body that is read where runs and code were written. -/
def bodyAt (runs : List Run) (code : Bytes) (pos : Nat) : FunctionBody where
  locals := expandRuns runs
  code := code
  position := pos + (encodeCount (encodeBodyContent runs code).length).length +
    (encodeVector Run.encode runs).length

theorem takes_bodyEntry {runs : List Run} {code : Bytes}
    (hLocals : (expandRuns runs).size ≤ maxLocals) (hCode : code.back? = some endByte)
    (h : Written bytes pos (encodeBody runs code)) :
    Takes bodyEntry bytes pos (encodeBody runs code) (bodyAt runs code pos) := by
  have hSize := h.toNat_count (n := (encodeBodyContent runs code).length) (by
    rw [encodeBody, List.length_append]
    exact Nat.le_add_left _ _)
  have hContent : Written bytes _ (encodeBodyContent runs code) := h.right
  have hRuns : Written bytes _ (encodeVector Run.encode runs) := hContent.left
  have hCount := hRuns.right.toNat_count (length_le_flatMap fun r _ => r.encode_ne_nil)
  have hCode' : Written bytes _ code.toList := hContent.right
  have hLength : (encodeBodyContent runs code).length =
      (encodeVector Run.encode runs).length + code.toList.length := by
    rw [encodeBodyContent, List.length_append]
  refine takes_bind (takes_count h.left) ?_
  refine takes_position_bind hContent.pos_le ?_
  rw [hSize]
  refine takes_hasAtLeast_bind hContent.fits ?_
  rw [if_neg (by simp)]
  unfold bodyAt
  generalize (encodeBodyContent runs code).length = size at *
  generalize pos + (encodeCount size).length = start at *
  -- The number of runs, the runs and the code, in this order.
  have hForm : encodeBodyContent runs code =
      encodeCount runs.length ++ (runs.flatMap Run.encode ++ code.toList) := by
    rw [encodeBodyContent, encodeVector, List.append_assoc]
  have hStart : start + (encodeCount runs.length).length + (runs.flatMap Run.encode).length =
      start + (encodeVector Run.encode runs).length := by
    rw [encodeVector, List.length_append, Nat.add_assoc]
  rw [hForm]
  refine takes_bind (takes_count hRuns.left) ?_
  rw [hCount]
  have hFound := takes_localRuns #[] (by simpa using hLocals) hRuns.right
  rw [Array.empty_append] at hFound
  refine takes_bind hFound ?_
  rw [hStart]
  refine takes_position_bind hCode'.pos_le ?_
  rw [if_neg (by omega)]
  have hRest : size - (start + (encodeVector Run.encode runs).length - start) =
      code.toList.length := by
    omega
  rw [hRest]
  refine takes_last (takes_bytes hCode') ?_
  rw [if_neg (by rw [not_not]; exact hCode)]
  exact takes_pure _

/-! ## Custom sections -/

/-- A custom section is what stands behind its name. -/
theorem takes_customSection_of_name {s : CustomSection} {nameForm : List UInt8}
    (hName : Takes string bytes pos nameForm s.name)
    (h : Written bytes pos (nameForm ++ s.bytes.toList)) :
    Takes (customSection (nameForm ++ s.bytes.toList).length) bytes pos
      (nameForm ++ s.bytes.toList) s := by
  have hContent : Written bytes _ s.bytes.toList := h.right
  refine takes_position_bind h.pos_le ?_
  refine takes_bind hName ?_
  refine takes_position_bind hContent.pos_le ?_
  have hLength : (nameForm ++ s.bytes.toList).length = nameForm.length + s.bytes.toList.length :=
    List.length_append
  have hRest : (nameForm ++ s.bytes.toList).length - (pos + nameForm.length - pos) =
      s.bytes.toList.length := by
    omega
  rw [if_neg (by omega), hRest]
  exact takes_map (f := fun content => CustomSection.mk s.name content) (takes_bytes hContent)

theorem takes_customSection {s : CustomSection} (h : Written bytes pos s.encode) :
    Takes (customSection s.encode.length) bytes pos s.encode s :=
  takes_customSection_of_name (takes_string h.left) h

end Reader

end WasmMachine
