import WasmMachine.Proofs.Structured.Sequence

/-!
# The constructs around an offset

A tree says which blocks, loops and conditionals stand around an offset of its code: those whose
opcode is before it and whose closing `end` is not. `Sequence.enclosing` lists them, the outermost
first, and each has the label that it puts on the stack while it is open.

While a tree is walked through, the constructs around an offset are the open ones, followed by those
of the remaining sequence. `Mirrors` says this of a list of labels, and goes with every construct
into its body and past it.

* `Encodes.bounds`: the constructs of an encoded sequence lie between its start and its delimiter.
* `Mirrors.labelsAt_eq`: at the start of a remaining sequence only the open constructs are around.
* `Mirrors.inside`, `Mirrors.past`: the body of a construct with one arm, and what follows it.
-/

namespace WasmMachine

/-- A block, a loop or a conditional: the offsets of its opcode and of the `end` that closes it. -/
structure Construct where
  kind : LabelKind
  type : BlockType
  opening : Nat
  closing : Nat
  deriving DecidableEq, Repr

namespace Construct

/-- The label of a construct. A branch to a loop leads to its opcode, a branch to another construct
past its `end`. -/
def label (c : Construct) : LabelFrame :=
  { kind := c.kind
    blockType := c.type
    continuation :=
      match c.kind with
      | .loop => c.opening
      | .block => c.closing + 1
      | .ifThen => c.closing + 1 }

/-- A construct stands around an offset that is past its opcode and not past its `end`. -/
def Around (c : Construct) (offset : Nat) : Prop := c.opening < offset ∧ offset ≤ c.closing

instance (c : Construct) (offset : Nat) : Decidable (c.Around offset) :=
  inferInstanceAs (Decidable (_ ∧ _))

end Construct

namespace Sequence

/-- The constructs of a sequence, each before those inside it. -/
def constructs : Sequence → List Construct
  | .stop _ => []
  | .leaf _ _ rest => rest.constructs
  | .block place t body rest =>
    ⟨.block, t, place, body.closing⟩ :: (body.constructs ++ rest.constructs)
  | .loop place t body rest =>
    ⟨.loop, t, place, body.closing⟩ :: (body.constructs ++ rest.constructs)
  | .ifThen place t arm rest =>
    ⟨.ifThen, t, place, arm.closing⟩ :: (arm.constructs ++ rest.constructs)
  | .ifElse place t arm other rest =>
    ⟨.ifThen, t, place, other.closing⟩ ::
      (arm.constructs ++ (other.constructs ++ rest.constructs))

/-- The constructs of a sequence around an offset, the outermost first. -/
def enclosing (s : Sequence) (offset : Nat) : List Construct :=
  s.constructs.filter (·.Around offset)

/-- The labels of the constructs around an offset, the outermost first. -/
def labelsAt (s : Sequence) (offset : Nat) : List LabelFrame :=
  (s.enclosing offset).map Construct.label

end Sequence

/-! ## Bounds -/

theorem DecodesTo.lt {code : Bytes} {place next : Nat} {i : Instruction}
    (h : DecodesTo code place i next) : place < next := by
  obtain ⟨b, -, hDecode⟩ := h
  exact le_of_skipOperands (skipOperands_of_decode hDecode)

namespace Encodes

variable {code : Bytes} {d : UInt8} {start offset : Nat} {s : Sequence}

/-- A sequence closes at or after its start. -/
theorem start_le_closing (h : Encodes code d start s) : start ≤ s.closing := by
  induction h with
  | stop _ => exact Nat.le_refl _
  | leaf head _ ih =>
    have hHead := head.lt
    exact Nat.le_trans (by omega) ih
  | block head _ _ ihBody ihTail | loop head _ _ ihBody ihTail | ifThen head _ _ ihBody ihTail =>
    have hHead := head.lt
    exact Nat.le_trans (by omega) ihTail
  | ifElse head _ _ _ ihFirst ihSecond ihTail =>
    have hHead := head.lt
    exact Nat.le_trans (by omega) ihTail

/-- The constructs of an encoded sequence lie between its start and its delimiter. -/
theorem bounds (h : Encodes code d start s) {c : Construct} (hc : c ∈ s.constructs) :
    start ≤ c.opening ∧ c.closing < s.closing := by
  induction h with
  | stop _ => cases hc
  | leaf head _ ih =>
    have hHead := head.lt
    obtain ⟨hOpening, hClosing⟩ := ih hc
    exact ⟨by omega, hClosing⟩
  | block head inside tail ihBody ihTail | loop head inside tail ihBody ihTail
    | ifThen head inside tail ihBody ihTail =>
    have hHead := head.lt
    have hInside := inside.start_le_closing
    have hTail := tail.start_le_closing
    rcases List.mem_cons.1 hc with rfl | hc
    · exact ⟨Nat.le_refl _, hTail⟩
    · rcases List.mem_append.1 hc with hc | hc
      · obtain ⟨hOpening, hClosing⟩ := ihBody hc
        exact ⟨by omega, Nat.lt_of_lt_of_le (by omega) hTail⟩
      · obtain ⟨hOpening, hClosing⟩ := ihTail hc
        exact ⟨by omega, hClosing⟩
  | ifElse head first second tail ihFirst ihSecond ihTail =>
    have hHead := head.lt
    have hFirst := first.start_le_closing
    have hSecond := second.start_le_closing
    have hTail := tail.start_le_closing
    rcases List.mem_cons.1 hc with rfl | hc
    · exact ⟨Nat.le_refl _, hTail⟩
    · rcases List.mem_append.1 hc with hc | hc
      · obtain ⟨hOpening, hClosing⟩ := ihFirst hc
        exact ⟨by omega, Nat.lt_of_lt_of_le (by omega) hTail⟩
      · rcases List.mem_append.1 hc with hc | hc
        · obtain ⟨hOpening, hClosing⟩ := ihSecond hc
          exact ⟨by omega, Nat.lt_of_lt_of_le (by omega) hTail⟩
        · obtain ⟨hOpening, hClosing⟩ := ihTail hc
          exact ⟨by omega, hClosing⟩

/-- No construct of a sequence stands around an offset before the sequence, nor around its start. -/
theorem labelsAt_of_le (h : Encodes code d start s) (hOffset : offset ≤ start) :
    s.labelsAt offset = [] := by
  have hNone : s.enclosing offset = [] := by
    refine List.filter_eq_nil_iff.2 fun c hc hAround => ?_
    have hBounds := h.bounds hc
    have hOpening := (of_decide_eq_true hAround).1
    omega
  rw [Sequence.labelsAt, hNone, List.map_nil]

/-- No construct of a sequence stands around its delimiter, nor around what follows. -/
theorem labelsAt_of_closing_le (h : Encodes code d start s) (hOffset : s.closing ≤ offset) :
    s.labelsAt offset = [] := by
  have hNone : s.enclosing offset = [] := by
    refine List.filter_eq_nil_iff.2 fun c hc hAround => ?_
    have hBounds := h.bounds hc
    have hClosing := (of_decide_eq_true hAround).2
    omega
  rw [Sequence.labelsAt, hNone, List.map_nil]

end Encodes

/-! ## Labels of open constructs -/

/-- The label that a construct gives to an offset, if it stands around it. -/
def Construct.labelsAt (c : Construct) (offset : Nat) : List LabelFrame :=
  if c.Around offset then [c.label] else []

theorem Construct.labelsAt_inside {c : Construct} {offset : Nat} (hOpening : c.opening < offset)
    (hClosing : offset ≤ c.closing) : c.labelsAt offset = [c.label] :=
  if_pos ⟨hOpening, hClosing⟩

theorem Construct.labelsAt_past {c : Construct} {offset : Nat} (hClosing : c.closing < offset) :
    c.labelsAt offset = [] :=
  if_neg fun hAround => Nat.not_le.2 hClosing hAround.2

namespace Sequence

theorem labelsAt_cons {s : Sequence} {c : Construct} {inner : List Construct}
    (h : s.constructs = c :: inner) (offset : Nat) :
    s.labelsAt offset =
      c.labelsAt offset ++ (inner.filter (·.Around offset)).map Construct.label := by
  unfold labelsAt enclosing Construct.labelsAt
  rw [h, List.filter_cons]
  by_cases hAround : c.Around offset <;> simp [hAround]

/-- The sequence starts with a construct that has one arm. -/
structure Opens (s : Sequence) (c : Construct) (arm rest : Sequence) : Prop where
  constructs : s.constructs = c :: (arm.constructs ++ rest.constructs)
  closing : s.closing = rest.closing
  armClosing : c.closing = arm.closing

theorem opens_block (place : Nat) (t : BlockType) (arm rest : Sequence) :
    (block place t arm rest).Opens ⟨.block, t, place, arm.closing⟩ arm rest := ⟨rfl, rfl, rfl⟩

theorem opens_loop (place : Nat) (t : BlockType) (arm rest : Sequence) :
    (loop place t arm rest).Opens ⟨.loop, t, place, arm.closing⟩ arm rest := ⟨rfl, rfl, rfl⟩

theorem opens_ifThen (place : Nat) (t : BlockType) (arm rest : Sequence) :
    (ifThen place t arm rest).Opens ⟨.ifThen, t, place, arm.closing⟩ arm rest := ⟨rfl, rfl, rfl⟩

theorem Opens.labelsAt {s arm rest : Sequence} {c : Construct} (h : s.Opens c arm rest)
    (offset : Nat) : s.labelsAt offset =
      c.labelsAt offset ++ (arm.labelsAt offset ++ rest.labelsAt offset) := by
  rw [labelsAt_cons h.constructs, List.filter_append, List.map_append]
  rfl

theorem labelsAt_ifElse (place offset : Nat) (t : BlockType) (arm other rest : Sequence) :
    (ifElse place t arm other rest).labelsAt offset =
      Construct.labelsAt ⟨.ifThen, t, place, other.closing⟩ offset ++
        (arm.labelsAt offset ++ (other.labelsAt offset ++ rest.labelsAt offset)) := by
  rw [labelsAt_cons rfl, List.filter_append, List.filter_append, List.map_append, List.map_append]
  rfl

end Sequence

/-- From an offset on, up to the delimiter of the sequence that stands there, the constructs of the
tree `root` around an offset are the open ones, whose labels are given with the innermost first, and
then those of the sequence. -/
def Mirrors (root : Sequence) (labels : List LabelFrame) (start : Nat) (s : Sequence) : Prop :=
  ∀ offset, start ≤ offset → offset ≤ s.closing →
    root.labelsAt offset = labels.reverse ++ s.labelsAt offset

namespace Mirrors

variable {code : Bytes} {d : UInt8} {root arm other rest : Sequence} {labels : List LabelFrame}
  {start place next : Nat} {t : BlockType}

/-- A whole tree is inside no construct. -/
protected theorem root (s : Sequence) : Mirrors s [] start s := fun _ _ _ => rfl

/-- At the start of a sequence only the open constructs are around. -/
theorem labelsAt_eq {s : Sequence} (h : Mirrors root labels start s) (hs : Encodes code d start s) :
    root.labelsAt start = labels.reverse := by
  rw [h start (Nat.le_refl _) hs.start_le_closing, hs.labelsAt_of_le (Nat.le_refl _),
    List.append_nil]

/-- The delimiter of a sequence is inside the open constructs. -/
protected theorem stop {s : Sequence} (h : Mirrors root labels start s)
    (hs : Encodes code d start s) : Mirrors root labels s.closing (.stop s.closing) := by
  intro offset hStart hClosing
  obtain rfl : offset = s.closing := Nat.le_antisymm hClosing hStart
  rw [h s.closing hs.start_le_closing (Nat.le_refl _), hs.labelsAt_of_closing_le (Nat.le_refl _)]
  rfl

/-- Going on to a part of a sequence: on its range the sequence has the labels of newly opened
constructs, and those of the part. -/
theorem narrow {s part : Sequence} (h : Mirrors root labels start s) (opened : List LabelFrame)
    {lower : Nat} (hFrom : start ≤ lower) (hTo : part.closing ≤ s.closing)
    (hPart : ∀ offset, lower ≤ offset → offset ≤ part.closing →
      s.labelsAt offset = opened.reverse ++ part.labelsAt offset) :
    Mirrors root (opened ++ labels) lower part := by
  intro offset hStart hClosing
  rw [h offset (Nat.le_trans hFrom hStart) (Nat.le_trans hClosing hTo),
    hPart offset hStart hClosing, List.reverse_append, List.append_assoc]

theorem leaf {i : Leaf} (h : Mirrors root labels place (.leaf place i rest))
    (hHead : place < next) : Mirrors root labels next rest :=
  h.narrow [] (Nat.le_of_lt hHead) (Nat.le_refl _) fun _ _ _ => rfl

/-! ### Into a construct -/

/-- The body of a construct with one arm. -/
theorem inside {s : Sequence} {c : Construct} (h : Mirrors root labels c.opening s)
    (hOpens : s.Opens c arm rest) (hHead : c.opening < next)
    (hTail : Encodes code d (arm.closing + 1) rest) :
    Mirrors root (c.label :: labels) next arm := by
  have hRest := hTail.start_le_closing
  have hClosing := hOpens.closing
  have hArm := hOpens.armClosing
  refine h.narrow [c.label] (Nat.le_of_lt hHead) (by omega) fun offset hFrom hTo => ?_
  rw [hOpens.labelsAt, Construct.labelsAt_inside (by omega) (by omega),
    hTail.labelsAt_of_le (by omega), List.append_nil]
  rfl

/-- What follows a construct with one arm. -/
theorem past {s : Sequence} {c : Construct} (h : Mirrors root labels c.opening s)
    (hOpens : s.Opens c arm rest) (hHead : c.opening < next)
    (hArm : Encodes code endByte next arm) : Mirrors root labels (arm.closing + 1) rest := by
  have hInside := hArm.start_le_closing
  have hClosing := hOpens.closing
  have hEnd := hOpens.armClosing
  refine h.narrow [] (by omega) (by omega) fun offset hFrom hTo => ?_
  rw [hOpens.labelsAt, Construct.labelsAt_past (by omega), hArm.labelsAt_of_closing_le (by omega)]
  rfl

/-- The first arm of a conditional with two arms. -/
theorem first (h : Mirrors root labels place (.ifElse place t arm other rest))
    (hHead : place < next) (hOther : Encodes code endByte (arm.closing + 1) other)
    (hTail : Encodes code d (other.closing + 1) rest) :
    Mirrors root (⟨.ifThen, t, other.closing + 1⟩ :: labels) next arm := by
  have hSecond := hOther.start_le_closing
  have hRest : other.closing + 1 ≤ (Sequence.ifElse place t arm other rest).closing :=
    hTail.start_le_closing
  refine h.narrow [Construct.label ⟨.ifThen, t, place, other.closing⟩]
    (Nat.le_of_lt hHead) (by omega) fun offset hFrom hTo => ?_
  have hBefore : offset ≤ other.closing := by omega
  rw [Sequence.labelsAt_ifElse,
    Construct.labelsAt_inside (Nat.lt_of_lt_of_le hHead hFrom) hBefore,
    hOther.labelsAt_of_le (by omega), hTail.labelsAt_of_le (by omega), List.append_nil,
    List.append_nil]
  rfl

/-- The second arm of a conditional. -/
theorem second (h : Mirrors root labels place (.ifElse place t arm other rest))
    (hHead : place < next) (hArm : Encodes code elseByte next arm)
    (hTail : Encodes code d (other.closing + 1) rest) :
    Mirrors root (⟨.ifThen, t, other.closing + 1⟩ :: labels) (arm.closing + 1) other := by
  have hFirst := hArm.start_le_closing
  have hRest : other.closing + 1 ≤ (Sequence.ifElse place t arm other rest).closing :=
    hTail.start_le_closing
  refine h.narrow [Construct.label ⟨.ifThen, t, place, other.closing⟩]
    (by omega) (by omega) fun offset hFrom hTo => ?_
  rw [Sequence.labelsAt_ifElse,
    Construct.labelsAt_inside (show place < offset by omega) (show offset ≤ other.closing from hTo),
    hArm.labelsAt_of_closing_le (by omega), hTail.labelsAt_of_le (by omega), List.nil_append,
    List.append_nil]
  rfl

/-- What follows a conditional with two arms. -/
theorem ifElse_past (h : Mirrors root labels place (.ifElse place t arm other rest))
    (hHead : place < next) (hArm : Encodes code elseByte next arm)
    (hOther : Encodes code endByte (arm.closing + 1) other) :
    Mirrors root labels (other.closing + 1) rest := by
  have hFirst := hArm.start_le_closing
  have hSecond := hOther.start_le_closing
  refine h.narrow [] (by omega) (Nat.le_refl _) fun offset hFrom hTo => ?_
  rw [Sequence.labelsAt_ifElse, Construct.labelsAt_past (show other.closing < offset from hFrom),
    hArm.labelsAt_of_closing_le (by omega), hOther.labelsAt_of_closing_le (by omega)]
  rfl

end Mirrors

end WasmMachine
