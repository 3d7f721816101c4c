import WasmMachine.Proofs.Binary.Layout

/-!
# Readers are local

What a reader gives when it succeeds depends on nothing but the bytes that it has taken: not on
what stands before or behind them, and not on where they stand, except that bodies know their
offset. A vector goes on for as long as its count says, an initializer up to its `end`, and a body
asks whether its bytes are there; none of them looks at more.

* `Moved`: bytes that stand elsewhere too.
* `Reader.Transfers`: a reader does at one place what another one does elsewhere.
* `readSection_transfers`: the sections of a module.
-/

namespace WasmMachine

open Leb128

/-- The bytes between two offsets stand in other bytes too, further on by `shift`. -/
def Moved (bytes bytes' : Bytes) (shift first last : Nat) : Prop :=
  ∀ pos, first ≤ pos → pos < last → bytes'[pos + shift]? = bytes[pos]?

namespace Moved

variable {bytes bytes' : Bytes} {shift first last : Nat}

theorem mono (h : Moved bytes bytes' shift first last) {first' last' : Nat}
    (hFirst : first ≤ first') (hLast : last' ≤ last) : Moved bytes bytes' shift first' last' := by
  intro pos hPos hLt
  exact h pos (by omega) (by omega)

theorem at_first (h : Moved bytes bytes' shift first last) (hLt : first < last) :
    bytes'[first + shift]? = bytes[first]? :=
  h first (Nat.le_refl _) hLt

/-- Bytes that are there are there elsewhere. -/
theorem le_size (h : Moved bytes bytes' shift first last) (hOrder : first ≤ last)
    (hSize : last ≤ bytes.size) (hFirst : first + shift ≤ bytes'.size) :
    last + shift ≤ bytes'.size := by
  rcases Nat.lt_or_ge first last with hLt | hGe
  · have hLast : last - 1 < bytes.size := by omega
    have hByte := h (last - 1) (by omega) (by omega)
    rw [Array.getElem?_eq_getElem hLast] at hByte
    have hInside := (Array.getElem?_eq_some_iff.1 hByte).1
    omega
  · omega

theorem extract_eq (h : Moved bytes bytes' shift first last) (hOrder : first ≤ last)
    (hSize : last ≤ bytes.size) (hFirst : first + shift ≤ bytes'.size) :
    bytes'.extract (first + shift) (last + shift) = bytes.extract first last := by
  have hEnd := h.le_size hOrder hSize hFirst
  apply Array.ext_getElem?
  intro i
  rw [Array.getElem?_extract, Array.getElem?_extract]
  by_cases hi : i < last - first
  · rw [if_pos (by omega), if_pos (by omega), Nat.add_right_comm]
    exact h (first + i) (by omega) (by omega)
  · rw [if_neg (by omega), if_neg (by omega)]

end Moved

/-! ## Numbers -/

theorem readGroups_moved {bytes bytes' : Bytes} {shift limit pos next : Nat} {groups : List Nat}
    (h : readGroups bytes limit pos = .ok (groups, next))
    (hMoved : Moved bytes bytes' shift pos next) :
    readGroups bytes' limit (pos + shift) = .ok (groups, next + shift) := by
  have hHere := hMoved.at_first (readGroups_bounds h).1
  induction limit generalizing pos groups with
  | zero =>
    unfold readGroups at h
    split at h <;> cases h
  | succ limit ih =>
    unfold readGroups at h ⊢
    rw [hHere]
    split at h
    · cases h
    · split at h
      · rename_i hLast
        cases h
        simp only [if_pos hLast]
        rw [Nat.add_right_comm]
      · rename_i hMore
        split at h
        · cases h
        · rename_i hRest
          cases h
          have hBounds := readGroups_bounds hRest
          have hTail := hMoved.mono (Nat.le_succ pos) (Nat.le_refl next)
          have hGroups := ih hRest hTail (hTail.at_first hBounds.1)
          rw [Nat.add_right_comm] at hGroups
          simp only [if_neg hMore, hGroups]

theorem decodeU32_moved {bytes bytes' : Bytes} {shift pos next : Nat} {v : UInt32}
    (h : decodeU32 bytes pos = .ok (v, next)) (hMoved : Moved bytes bytes' shift pos next) :
    decodeU32 bytes' (pos + shift) = .ok (v, next + shift) := by
  unfold decodeU32 at h ⊢
  split at h
  · cases h
  · rename_i hGroups
    cases h
    rw [readGroups_moved hGroups hMoved]

theorem decodeSigned_moved {width : Nat} {bytes bytes' : Bytes} {shift pos next : Nat}
    {v : BitVec width} (h : decodeSigned width bytes pos = .ok (v, next))
    (hMoved : Moved bytes bytes' shift pos next) :
    decodeSigned width bytes' (pos + shift) = .ok (v, next + shift) := by
  unfold decodeSigned at h ⊢
  split at h
  · cases h
  · rename_i hGroups
    cases h
    rw [readGroups_moved hGroups hMoved]

/-! ## Readers -/

namespace Reader

variable {α β γ δ : Type} {shift : Nat}

/-- Where the first reader takes some bytes, the second one takes them elsewhere, and gives what
`f` makes of the result of the first. -/
def Transfers (shift : Nat) (f : α → β) (item : Reader α) (item' : Reader β) : Prop :=
  ∀ ⦃c : Cursor⦄ ⦃a : α⦄ ⦃c' : Cursor⦄, item c = .ok a c' → c.Leads c' ∧
    ∀ k : Cursor, k.pos = c.pos + shift → Moved c.bytes k.bytes shift c.pos c'.pos →
      item' k = .ok (f a) (k.moveTo (c'.pos + shift))

/-- The two readers give the same. -/
def Copies (shift : Nat) (item item' : Reader α) : Prop := Transfers shift id item item'

/-- What was taken is there elsewhere too. -/
theorem le_size_of_moved {c c' k : Cursor} (hLeads : c.Leads c') (hPos : k.pos = c.pos + shift)
    (hMoved : Moved c.bytes k.bytes shift c.pos c'.pos) : c'.pos + shift ≤ k.bytes.size := by
  have hInside := c'.pos_le_size
  rw [hLeads.bytes_eq] at hInside
  have hStart := k.pos_le_size
  rw [hPos] at hStart
  exact hMoved.le_size hLeads.pos_le hInside hStart

theorem moveTo_pos (k : Cursor) : k.moveTo k.pos = k := by
  obtain ⟨bytes, pos, hPos⟩ := k
  simp [Cursor.moveTo, Nat.min_eq_left hPos]

theorem Transfers.congr {f g : α → β} {item : Reader α} {item' : Reader β}
    (h : Transfers shift f item item') (hEq : ∀ a, f a = g a) :
    Transfers shift g item item' := by
  intro c a c' hRun
  rw [← hEq a]
  exact h hRun

theorem transfers_pure (f : α → β) (a : α) : Transfers shift f (pure a) (pure (f a)) := by
  intro c b c' h
  cases h
  refine ⟨Cursor.Leads.refl c, fun k hPos _ => ?_⟩
  rw [← hPos, moveTo_pos]
  rfl

theorem transfers_bind {f : α → β} {g : γ → δ} {item : Reader α} {item' : Reader β}
    {next : α → Reader γ} {next' : β → Reader δ} (hItem : Transfers shift f item item')
    (hNext : ∀ a, Transfers shift g (next a) (next' (f a))) :
    Transfers shift g (item >>= next) (item' >>= next') := by
  intro c b c' h
  obtain ⟨a, c₁, hFirst, hRest⟩ := exists_of_run_bind_eq_ok h
  obtain ⟨hLeads, hCopy⟩ := hItem hFirst
  obtain ⟨hLeads', hCopy'⟩ := hNext a hRest
  refine ⟨hLeads.trans hLeads', fun k hPos hMoved => ?_⟩
  have hBefore := hMoved.mono (Nat.le_refl _) hLeads'.pos_le
  have hAfter := hMoved.mono hLeads.pos_le (Nat.le_refl _)
  have hMiddle : (k.moveTo (c₁.pos + shift)).pos = c₁.pos + shift :=
    Cursor.pos_moveTo (le_size_of_moved hLeads hPos hBefore)
  rw [← hLeads.bytes_eq] at hAfter
  change EStateM.bind item' next' k = _
  simp only [EStateM.bind, hCopy k hPos hBefore]
  exact hCopy' _ hMiddle hAfter

theorem copies_pure (a : α) : Copies shift (pure a) (pure a) := transfers_pure id a

/-- Readers in sequence, the first of which give the same. -/
theorem Copies.bind {g : γ → δ} {item item' : Reader α} {next : α → Reader γ}
    {next' : α → Reader δ} (hItem : Copies shift item item')
    (hNext : ∀ a, Transfers shift g (next a) (next' a)) :
    Transfers shift g (item >>= next) (item' >>= next') :=
  transfers_bind hItem hNext

/-- A result that is only packed up. -/
theorem Copies.map {item item' : Reader α} (h : Copies shift item item') (f : α → β) :
    Copies shift (item >>= fun a => pure (f a)) (item' >>= fun a => pure (f a)) :=
  h.bind fun a => copies_pure (f a)

/-- What always fails has nothing to transfer. -/
theorem transfers_failAt {f : α → β} (fault : LoadFault) (offset : Nat) (item' : Reader β) :
    Transfers shift f (failAt fault offset) item' := by
  intro c a c' h
  cases h

theorem transfers_failHere {f : α → β} (fault : LoadFault) (item' : Reader β) :
    Transfers shift f (failHere fault) item' := by
  intro c a c' h
  cases h

theorem transfers_ite {f : α → β} {p : Prop} [Decidable p] {first second : Reader α}
    {first' second' : Reader β} (hFirst : Transfers shift f first first')
    (hSecond : Transfers shift f second second') :
    Transfers shift f (if p then first else second) (if p then first' else second') := by
  by_cases hp : p
  · rw [if_pos hp, if_pos hp]
    exact hFirst
  · rw [if_neg hp, if_neg hp]
    exact hSecond

/-- A reader that looks at its position sees the moved one elsewhere. -/
theorem transfers_position_bind {g : γ → δ} {next : Nat → Reader γ} {next' : Nat → Reader δ}
    (hNext : ∀ pos, Transfers shift g (next pos) (next' (pos + shift))) :
    Transfers shift g (position >>= next) (position >>= next') := by
  refine transfers_bind (f := (· + shift)) ?_ hNext
  intro c pos c' h
  cases h
  refine ⟨Cursor.Leads.refl c, fun k hPos _ => ?_⟩
  rw [← hPos, moveTo_pos]
  change EStateM.Result.ok k.pos k = .ok (c.pos + shift) k
  rw [hPos]

/-! ## Bytes -/

theorem byte_eq_ok {c c' : Cursor} {b : UInt8} (h : byte c = .ok b c') :
    c.bytes[c.pos]? = some b ∧ c'.bytes = c.bytes ∧ c'.pos = c.pos + 1 := by
  obtain ⟨found, c₁, hNext, hRest⟩ := exists_of_run_bind_eq_ok h
  unfold next? at hNext
  split at hNext
  · rename_i hLt
    cases hNext
    cases hRest
    exact ⟨Array.getElem?_eq_getElem hLt, rfl, rfl⟩
  · cases hNext
    cases hRest

theorem byte_of_getElem? {k : Cursor} {b : UInt8} (h : k.bytes[k.pos]? = some b) :
    byte k = .ok b (k.moveTo (k.pos + 1)) := by
  obtain ⟨hLt, hValue⟩ := Array.getElem?_eq_some_iff.1 h
  have hNext : next? k = .ok (some b) (k.moveTo (k.pos + 1)) := by
    unfold next?
    rw [dif_pos hLt, hValue]
    congr 1
    simp only [Cursor.moveTo, Cursor.mk.injEq, true_and]
    exact (Nat.min_eq_left hLt).symm
  change EStateM.bind next? _ _ = _
  simp only [EStateM.bind, hNext]
  rfl

theorem copies_byte : Copies shift byte byte := by
  intro c b c' h
  obtain ⟨hByte, hBytes, hEnd⟩ := byte_eq_ok h
  refine ⟨advances_byte h, fun k hPos hMoved => ?_⟩
  have hHere := hMoved.at_first (by omega)
  rw [← hPos, hByte] at hHere
  rw [byte_of_getElem? hHere, hPos, hEnd, Nat.add_right_comm]
  rfl

theorem copies_bytes (len : Nat) : Copies shift (bytes len) (bytes len) := by
  intro c taken c' h
  obtain ⟨rfl, hBytes, hEnd, hInside⟩ := eq_extract_of_bytes h
  refine ⟨advances_bytes len h, fun k hPos hMoved => ?_⟩
  have hFits := le_size_of_moved (advances_bytes len h) hPos hMoved
  have hStart := k.pos_le_size
  have hSame := hMoved.extract_eq (by omega) (by omega) (by omega)
  unfold bytes
  rw [if_pos (by unfold Cursor.remaining; omega)]
  change EStateM.Result.ok (k.bytes.extract k.pos (k.pos + len)) _ = .ok _ _
  have hLast : k.pos + len = c'.pos + shift := by omega
  rw [hLast, hPos, hSame, hEnd]
  rfl

/-! ## Numbers -/

theorem copies_varint {width : Nat} {decode : Bytes → Nat → Except VarintError (α × Nat)}
    (hBounds : ∀ {bytes pos v next}, decode bytes pos = .ok (v, next) →
      pos < next ∧ next ≤ bytes.size)
    (hDecode : ∀ {bytes bytes' pos v next}, decode bytes pos = .ok (v, next) →
      Moved bytes bytes' shift pos next → decode bytes' (pos + shift) = .ok (v, next + shift)) :
    Copies shift (varint width decode) (varint width decode) := by
  intro c a c' h
  refine ⟨advances_varint (fun h => (hBounds h).1) h, fun k hPos hMoved => ?_⟩
  unfold varint at h
  split at h
  · rename_i v next hRead
    cases h
    have hEnd : (c.moveTo next).pos = next := Cursor.pos_moveTo (hBounds hRead).2
    rw [hEnd] at hMoved ⊢
    have hElsewhere := hDecode hRead hMoved
    rw [← hPos] at hElsewhere
    unfold varint
    rw [hElsewhere]
    rfl
  · cases h

theorem copies_u32 : Copies shift u32 u32 := copies_varint decodeU32_bounds decodeU32_moved

theorem copies_s32 : Copies shift s32 s32 := copies_varint decodeSigned_bounds decodeSigned_moved

theorem copies_s64 : Copies shift s64 s64 := copies_varint decodeSigned_bounds decodeSigned_moved

/-! ## Strings and vectors -/

theorem copies_byteVector : Copies shift byteVector byteVector :=
  copies_u32.bind fun len => copies_bytes len.toNat

theorem copies_string : Copies shift string string := by
  refine copies_u32.bind fun len => transfers_position_bind fun start => ?_
  refine (copies_bytes len.toNat).bind fun content => ?_
  cases String.fromUTF8? ⟨content⟩ with
  | none => exact transfers_failAt _ _ _
  | some text => exact copies_pure text

theorem transfers_collect {f : α → β} {item : Reader α} {item' : Reader β}
    (hItem : Transfers shift f item item') (count : Nat) (found : Array α) :
    Transfers shift (fun all : Array α => all.map f) (collect item count found)
      (collect item' count (found.map f)) := by
  induction count generalizing found with
  | zero => exact transfers_pure (fun all : Array α => all.map f) found
  | succ count ih =>
    refine transfers_bind hItem fun a => ?_
    rw [← Array.map_push]
    exact ih (found.push a)

/-- Items are read one by one. -/
theorem transfers_vector {f : α → β} {item : Reader α} {item' : Reader β}
    (hItem : Transfers shift f item item') :
    Transfers shift (fun all : Array α => all.map f) (vector item) (vector item') := by
  refine copies_u32.bind fun count => ?_
  have hItems := transfers_collect hItem count.toNat #[]
  rw [Array.map_empty] at hItems
  exact hItems

theorem copies_vector {item item' : Reader α} (hItem : Copies shift item item') :
    Copies shift (vector item) (vector item') :=
  (transfers_vector hItem).congr Array.map_id

/-! ## Types -/

theorem copies_valueType : Copies shift valueType valueType := by
  refine transfers_position_bind fun pos => copies_byte.bind fun b => ?_
  cases ValueType.ofByte? b with
  | none => exact transfers_failAt _ _ _
  | some t => exact copies_pure t

theorem copies_resultTypes : Copies shift resultTypes resultTypes :=
  (copies_vector copies_valueType).map Array.toList

theorem copies_functionType : Copies shift functionType functionType := by
  refine transfers_position_bind fun pos => copies_byte.bind fun form => ?_
  refine transfers_ite (transfers_failAt _ _ _) ?_
  exact copies_resultTypes.bind fun parameters => copies_resultTypes.bind fun results =>
    copies_pure _

theorem copies_limits : Copies shift limits limits := by
  refine transfers_position_bind fun pos => copies_byte.bind fun flag => ?_
  refine transfers_ite (copies_u32.bind fun min => copies_pure _) ?_
  refine transfers_ite ?_ (transfers_failAt _ _ _)
  exact copies_u32.bind fun min => copies_u32.bind fun max => copies_pure _

theorem copies_tableType : Copies shift tableType tableType := by
  refine transfers_position_bind fun pos => copies_byte.bind fun element => ?_
  exact transfers_ite (transfers_failAt _ _ _) copies_limits

theorem copies_globalType : Copies shift globalType globalType := by
  refine copies_valueType.bind fun type => transfers_position_bind fun pos => ?_
  refine copies_byte.bind fun flag => transfers_ite (copies_pure _) ?_
  exact transfers_ite (copies_pure _) (transfers_failAt _ _ _)

/-! ## Initializers -/

theorem copies_initOperands (opcode : UInt8) (pos pos' : Nat) :
    Copies shift (initOperands opcode pos) (initOperands opcode pos') := by
  unfold initOperands
  split
  · exact copies_pure ()
  · exact copies_u32.map fun _ => ()
  · exact copies_s32.map fun _ => ()
  · exact copies_s64.map fun _ => ()
  · exact (copies_bytes 4).map fun _ => ()
  · exact (copies_bytes 8).map fun _ => ()
  · exact transfers_failAt _ _ _

theorem copies_initInstructions (fuel : Nat) :
    Copies shift (initInstructions fuel) (initInstructions fuel) := by
  induction fuel with
  | zero => exact transfers_failHere _ _
  | succ fuel ih =>
    refine transfers_position_bind fun pos => copies_byte.bind fun opcode => ?_
    refine transfers_ite (copies_pure ()) ?_
    exact (copies_initOperands opcode pos (pos + shift)).bind fun _ => ih

/-- Every instruction takes a byte, so fuel for the bytes that were taken is enough. -/
theorem initInstructions_fuel {fuel fuel' : Nat} {c c' : Cursor}
    (h : initInstructions fuel c = .ok () c') (hFuel : c'.pos ≤ c.pos + fuel') :
    initInstructions fuel' c = .ok () c' := by
  induction fuel generalizing fuel' c with
  | zero => cases h
  | succ fuel ih =>
    change EStateM.bind byte (fun opcode => if opcode = endByte then pure () else do
      initOperands opcode c.pos
      initInstructions fuel) c = _ at h
    obtain ⟨opcode, c₁, hByte, hRest⟩ := exists_of_run_bind_eq_ok h
    obtain ⟨-, -, hNext⟩ := byte_eq_ok hByte
    by_cases hEnd : opcode = endByte
    · rw [if_pos hEnd] at hRest
      cases hRest
      obtain ⟨fuel', rfl⟩ : ∃ k, fuel' = k + 1 := ⟨fuel' - 1, by omega⟩
      change EStateM.bind byte _ c = _
      simp only [EStateM.bind, hByte, if_pos hEnd]
      rfl
    · rw [if_neg hEnd] at hRest
      obtain ⟨u, c₂, hOperands, hTail⟩ := exists_of_run_bind_eq_ok hRest
      have hForward := (advances_initOperands opcode c.pos hOperands).pos_le
      have hLater := (advances_initInstructions fuel hTail).pos_le
      obtain ⟨fuel', rfl⟩ : ∃ k, fuel' = k + 1 := ⟨fuel' - 1, by omega⟩
      have hInner := ih hTail (by omega : c'.pos ≤ c₂.pos + fuel')
      change EStateM.bind byte _ c = _
      simp only [EStateM.bind, hByte, if_neg hEnd]
      change EStateM.bind (initOperands opcode c.pos) _ c₁ = _
      simp only [EStateM.bind, hOperands, hInner]

theorem initExpr_eq (c : Cursor) :
    initExpr c =
      match initInstructions (c.remaining + 1) c with
      | .ok _ c' => .ok (c'.slice c.pos c'.pos) c'
      | .error e c' => .error e c' := by
  change EStateM.bind (initInstructions (c.remaining + 1)) (fun _ => consumedSince c.pos) c = _
  unfold EStateM.bind
  cases initInstructions (c.remaining + 1) c <;> rfl

/-- An initializer is kept in binary form, which is the same elsewhere. -/
theorem copies_initExpr : Copies shift initExpr initExpr := by
  intro c init c' h
  refine ⟨advances_initExpr h, fun k hPos hMoved => ?_⟩
  rw [initExpr_eq] at h
  cases hRun : initInstructions (c.remaining + 1) c with
  | error e c₁ =>
    rw [hRun] at h
    cases h
  | ok u c₁ =>
    rw [hRun] at h
    cases h
    obtain ⟨hLeads, hCopy⟩ := copies_initInstructions (c.remaining + 1) hRun
    have hFits := le_size_of_moved hLeads hPos hMoved
    have hEnd : (k.moveTo (c'.pos + shift)).pos = c'.pos + shift := Cursor.pos_moveTo hFits
    have hThere : initInstructions (k.remaining + 1) k = .ok () (k.moveTo (c'.pos + shift)) := by
      apply initInstructions_fuel (hCopy k hPos hMoved)
      unfold Cursor.remaining
      omega
    have hInside := c'.pos_le_size
    have hStart := k.pos_le_size
    rw [hLeads.bytes_eq] at hInside
    have hSame := hMoved.extract_eq hLeads.pos_le hInside (by omega)
    rw [initExpr_eq, hThere]
    simp only [Cursor.slice, hEnd, hLeads.bytes_eq, id]
    rw [hPos]
    exact congrArg (EStateM.Result.ok · _) hSame

/-! ## Entries -/

theorem copies_importEntry : Copies shift importEntry importEntry := by
  refine copies_string.bind fun module => copies_string.bind fun name => ?_
  refine transfers_position_bind fun pos => copies_byte.bind fun kind => ?_
  refine transfers_ite (copies_u32.bind fun _ => copies_pure _) ?_
  refine transfers_ite (copies_tableType.bind fun _ => copies_pure _) ?_
  refine transfers_ite (copies_limits.bind fun _ => copies_pure _) ?_
  exact transfers_ite (copies_globalType.bind fun _ => copies_pure _) (transfers_failAt _ _ _)

theorem copies_typeIndex (typeCount : Nat) :
    Copies shift (typeIndex typeCount) (typeIndex typeCount) := by
  refine transfers_position_bind fun pos => copies_u32.bind fun index => ?_
  exact transfers_ite (transfers_failAt _ _ _) (copies_pure index)

theorem copies_globalEntry : Copies shift globalEntry globalEntry :=
  copies_globalType.bind fun _ => copies_initExpr.bind fun _ => copies_pure _

theorem copies_exportEntry : Copies shift exportEntry exportEntry := by
  refine copies_string.bind fun name => transfers_position_bind fun pos => ?_
  refine copies_byte.bind fun kind => copies_u32.bind fun index => ?_
  refine transfers_ite (copies_pure _) (transfers_ite (copies_pure _) ?_)
  exact transfers_ite (copies_pure _) (transfers_ite (copies_pure _) (transfers_failAt _ _ _))

theorem copies_elementEntry : Copies shift elementEntry elementEntry :=
  copies_u32.bind fun _ => copies_initExpr.bind fun _ =>
    (copies_vector copies_u32).bind fun _ => copies_pure _

theorem copies_dataEntry : Copies shift dataEntry dataEntry :=
  copies_u32.bind fun _ => copies_initExpr.bind fun _ =>
    copies_byteVector.bind fun _ => copies_pure _

/-! ## Bodies and custom sections -/

theorem copies_localRuns (count : Nat) (found : Array ValueType) :
    Copies shift (localRuns count found) (localRuns count found) := by
  induction count generalizing found with
  | zero => exact copies_pure found
  | succ count ih =>
    refine transfers_position_bind fun pos => copies_u32.bind fun n => ?_
    refine transfers_ite (transfers_failAt _ _ _) ?_
    exact copies_valueType.bind fun type => ih _

theorem copies_customSection (len : Nat) :
    Copies shift (customSection len) (customSection len) := by
  refine transfers_position_bind fun start => copies_string.bind fun name => ?_
  refine transfers_position_bind fun stop => ?_
  rw [Nat.add_sub_add_right]
  refine transfers_ite (transfers_failHere _ _) ?_
  exact (copies_bytes _).bind fun _ => copies_pure _

end Reader

/-- The body at an offset that is greater by `shift`. -/
def FunctionBody.moved (shift : Nat) (body : FunctionBody) : FunctionBody :=
  { body with position := body.position + shift }

namespace Reader

variable {shift : Nat}

/-- The part of a body entry behind the question whether its bytes are there. -/
def bodyRest (size : UInt32) (start : Nat) : Reader FunctionBody := do
  let runs ← u32
  let locals ← localRuns runs.toNat #[]
  let position ← position
  if size.toNat < position - start then failHere .unexpectedEof
  else
    let code ← bytes (size.toNat - (position - start))
    if code.back? ≠ some endByte then failHere .unexpectedEof
    else return { locals, code, position }

theorem transfers_bodyRest (size : UInt32) (start : Nat) :
    Transfers shift (FunctionBody.moved shift) (bodyRest size start)
      (bodyRest size (start + shift)) := by
  refine copies_u32.bind fun runs => (copies_localRuns runs.toNat #[]).bind fun locals => ?_
  refine transfers_position_bind fun position => ?_
  rw [Nat.add_sub_add_right]
  refine transfers_ite (transfers_failHere _ _) ?_
  refine (copies_bytes _).bind fun code => transfers_ite (transfers_failHere _ _) ?_
  exact transfers_pure (FunctionBody.moved shift) { locals, code, position }

/-- A body ends where its size says. -/
theorem pos_of_bodyRest {size : UInt32} {c c' : Cursor} {body : FunctionBody}
    (h : bodyRest size c.pos c = .ok body c') : c'.pos = c.pos + size.toNat := by
  obtain ⟨runs, c₁, hRuns, h⟩ := exists_of_run_bind_eq_ok h
  obtain ⟨locals, c₂, hLocals, h⟩ := exists_of_run_bind_eq_ok h
  have hForward := (advances_u32 hRuns).trans (advances_localRuns runs.toNat #[] hLocals)
  have hPos := hForward.pos_le
  change (if size.toNat < c₂.pos - c.pos then failHere .unexpectedEof else _ : Reader _) c₂ = _ at h
  split at h
  · cases h
  · rename_i hSize
    obtain ⟨code, c₃, hCode, h⟩ := exists_of_run_bind_eq_ok h
    obtain ⟨-, -, hEnd, -⟩ := eq_extract_of_bytes hCode
    split at h
    · cases h
    · cases h
      omega

/-- The bytes of a body are there wherever the body can be read. -/
theorem transfers_sizedBody (size : UInt32) :
    let sized : Reader FunctionBody := do
      let start ← position
      if !(← hasAtLeast size.toNat) then failHere .unexpectedEof else bodyRest size start
    Transfers shift (FunctionBody.moved shift) sized sized := by
  intro sized c body c' h
  have hSized : ∀ k : Cursor, sized k =
      (if size.toNat ≤ k.remaining then bodyRest size k.pos else failHere .unexpectedEof) k := by
    intro k
    change (if !(decide (size.toNat ≤ k.remaining)) then failHere .unexpectedEof
      else bodyRest size k.pos : Reader _) k = _
    by_cases hFits : size.toNat ≤ k.remaining <;> simp [hFits]
  rw [hSized] at h
  split at h
  · have hRest : Transfers shift (FunctionBody.moved shift) (bodyRest size c.pos)
        (bodyRest size (c.pos + shift)) := transfers_bodyRest size c.pos
    obtain ⟨hLeads, hCopy⟩ := hRest h
    refine ⟨hLeads, fun k hPos hMoved => ?_⟩
    -- The body was read to its end, so its bytes are there elsewhere, too.
    have hInside := le_size_of_moved hLeads hPos hMoved
    have hEnd := pos_of_bodyRest h
    have hThere : size.toNat ≤ k.remaining := by
      unfold Cursor.remaining
      omega
    rw [hSized, if_pos hThere, hPos]
    exact hCopy k hPos hMoved
  · cases h

theorem transfers_bodyEntry :
    Transfers shift (FunctionBody.moved shift) bodyEntry bodyEntry :=
  copies_u32.bind transfers_sizedBody

end Reader

/-! ## Sections -/

/-- The content of a section that stands further on by `shift`: bodies know their offset. -/
def Section.moved (shift : Nat) : Section → Section
  | .code bodies => .code (bodies.map (FunctionBody.moved shift))
  | content => content

open Reader in
/-- Every section is read elsewhere as it is read here. -/
theorem readSection_transfers {shift : Nat} (id : UInt8) (len typeCount : Nat) :
    Transfers shift (Section.moved shift) (readSection id len typeCount)
      (readSection id len typeCount) := by
  have hPack {α : Type} {item : Reader α} (make : α → Section) (hItem : Copies shift item item)
      (hMake : ∀ a, (make a).moved shift = make a) :
      Transfers shift (Section.moved shift) (item >>= fun a => pure (make a))
        (item >>= fun a => pure (make a)) := by
    refine hItem.bind fun a => ?_
    have hPure : Transfers shift (Section.moved shift) (pure (make a))
        (pure ((make a).moved shift)) := transfers_pure (Section.moved shift) (make a)
    rw [hMake a] at hPure
    exact hPure
  unfold readSection
  split
  · exact hPack _ (copies_customSection len) fun _ => rfl
  · exact hPack _ (copies_vector copies_functionType) fun _ => rfl
  · exact hPack _ (copies_vector copies_importEntry) fun _ => rfl
  · exact hPack _ (copies_vector (copies_typeIndex typeCount)) fun _ => rfl
  · exact hPack _ (copies_vector copies_tableType) fun _ => rfl
  · exact hPack _ (copies_vector copies_limits) fun _ => rfl
  · exact hPack _ (copies_vector copies_globalEntry) fun _ => rfl
  · exact hPack _ (copies_vector copies_exportEntry) fun _ => rfl
  · exact hPack _ copies_u32 fun _ => rfl
  · exact hPack _ (copies_vector copies_elementEntry) fun _ => rfl
  · refine transfers_bind (transfers_vector transfers_bodyEntry) fun bodies => ?_
    exact transfers_pure (Section.moved shift) (.code bodies)
  · exact hPack _ (copies_vector copies_dataEntry) fun _ => rfl
  · exact transfers_failHere _ _

end WasmMachine
