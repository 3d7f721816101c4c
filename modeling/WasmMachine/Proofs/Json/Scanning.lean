import WasmMachine.Proofs.Json.Grammar

/-!
# Scanners read the grammar

Every text of the grammar is read, whatever follows it. Where the end of a text is not told by its
last character, as with numbers, something must follow that does not go on with it.

* `stringBody_form`, `skipString_form`: strings are read and passed over.
* `numeral_form`: numbers are read.
* `skipValue_form`: values of any shape are passed over.
-/

namespace WasmMachine.Json

theorem bind_of_ok {α β : Type} {x : Except Error α} {a : α} (h : x = .ok a)
    (f : α → Except Error β) : (x >>= f) = f a := by
  rw [h]
  rfl

/-! ## White space -/

theorem skipSpace_append {blank : List Char} (h : Blank blank) (text : List Char) :
    skipSpace (blank ++ text) = skipSpace text := by
  induction blank with
  | nil => rfl
  | cons c rest ih =>
    have hSpace : isSpace c = true := by
      rcases h c List.mem_cons_self with rfl | rfl | rfl | rfl <;> rfl
    rw [List.cons_append, skipSpace, List.dropWhile_cons_of_pos hSpace]
    exact ih fun c hMem => h c (List.mem_cons_of_mem _ hMem)

theorem skipSpace_cons {c : Char} (h : isSpace c = false) (text : List Char) :
    skipSpace (c :: text) = c :: text :=
  List.dropWhile_cons_of_neg (by rw [h]; exact Bool.false_ne_true)

/-! ## Strings -/

theorem hexValue?_of_hexDigit {c : Char} {value : Nat} (h : HexDigit c value) :
    hexValue? c = some value := by
  have hValues : ∀ n < 16, hexValue? n.digitChar = some n ∧
      hexValue? n.digitChar.toUpper = some n := by decide
  obtain ⟨hLess, rfl | rfl⟩ := h
  · exact (hValues value hLess).1
  · exact (hValues value hLess).2

theorem exists_of_quad {quad : List Char} {n : Nat} (h : Quad quad n) :
    ∃ a b c d, quad = [a, b, c, d] ∧ hexQuad? a b c d = some n := by
  cases h with
  | @spell a b c d i j k l hA hB hC hD =>
    refine ⟨a, b, c, d, rfl, ?_⟩
    simp only [hexQuad?, hexValue?_of_hexDigit hA, hexValue?_of_hexDigit hB,
      hexValue?_of_hexDigit hC, hexValue?_of_hexDigit hD]
    rfl

theorem escapedChar?_of_mem {letter c : Char} (h : (letter, c) ∈ shortEscapes) :
    escapedChar? letter = some c ∧ letter ≠ 'u' := by
  have hAll : ∀ p ∈ shortEscapes, escapedChar? p.1 = some p.2 ∧ p.1 ≠ 'u' := by decide
  exact hAll _ h

/-- No character is a surrogate. -/
theorem not_surrogate (c : Char) : isTrailing c.toNat = false ∧ isLeading c.toNat = false := by
  have hValid : c.toNat < 0xd800 ∨ (0xdfff < c.toNat ∧ c.toNat < 0x110000) := c.valid
  simp only [isTrailing, isLeading, Bool.and_eq_false_iff, decide_eq_false_iff_not]
  omega

section

variable {c : Char} {form : List Char}

/-- A character in any of its forms is read. -/
theorem stringBody_char (h : CharForm c form) (rest found : List Char) :
    stringBody (form ++ rest) found = stringBody rest (c :: found) := by
  obtain ⟨hTrailing, hLeading⟩ := not_surrogate c
  cases h with
  | plain hPrintable hQuote hBackslash =>
    rw [List.singleton_append, stringBody, if_neg (Nat.not_lt.2 hPrintable)]
    all_goals intros; contradiction
  | @short letter hLetter =>
    obtain ⟨hEscape, hNotUnit⟩ := escapedChar?_of_mem hLetter
    rw [List.cons_append, List.singleton_append, stringBody, hEscape]
    all_goals intros; contradiction
  | unit hQuad =>
    obtain ⟨a, b, c', d, rfl, hValue⟩ := exists_of_quad hQuad
    change stringBody ('\\' :: 'u' :: a :: b :: c' :: d :: rest) found = _
    rw [stringBody]
    simp only [hValue, hTrailing, hLeading, Char.ofNat_toNat, Bool.false_eq_true, if_false,
      Bool.not_false, if_true]
  | pair hPlane hFirst hSecond =>
    obtain ⟨a, b, c', d, rfl, hHigh⟩ := exists_of_quad hFirst
    obtain ⟨e, f, g, h, rfl, hLow⟩ := exists_of_quad hSecond
    have hBound : c.toNat < 0x110000 :=
      c.valid.elim (fun hLess => Nat.lt_trans hLess (by decide)) And.right
    have hFirstLeads : isTrailing (0xd800 + (c.toNat - 0x10000) / 0x400) = false ∧
        isLeading (0xd800 + (c.toNat - 0x10000) / 0x400) = true := by
      simp only [isTrailing, isLeading, Bool.and_eq_false_iff, decide_eq_false_iff_not,
        Bool.and_eq_true, decide_eq_true_eq]
      omega
    have hSecondTrails : isTrailing (0xdc00 + (c.toNat - 0x10000) % 0x400) = true := by
      simp only [isTrailing, Bool.and_eq_true, decide_eq_true_eq]
      omega
    have hPair : pairChar (0xd800 + (c.toNat - 0x10000) / 0x400)
        (0xdc00 + (c.toNat - 0x10000) % 0x400) = c := by
      have hNumber : 0x10000 + 1024 * (0xd800 + (c.toNat - 0x10000) / 0x400 - 0xd800) +
          (0xdc00 + (c.toNat - 0x10000) % 0x400 - 0xdc00) = c.toNat := by omega
      rw [pairChar, hNumber, Char.ofNat_toNat]
    change stringBody ('\\' :: 'u' :: a :: b :: c' :: d :: '\\' :: 'u' :: e :: f :: g :: h :: rest)
      found = _
    rw [stringBody]
    simp only [hHigh, hFirstLeads, hLow, hSecondTrails, hPair, Bool.false_eq_true, if_false,
      Bool.not_true, if_true]

theorem skipString_char (h : CharForm c form) (rest : List Char) :
    skipString (form ++ rest) = skipString rest := by
  have hQuadSkipped {quad : List Char} {n : Nat} (hQuad : Quad quad n) (rest : List Char) :
      skipString ('\\' :: 'u' :: quad ++ rest) = skipString rest := by
    obtain ⟨a, b, c, d, rfl, hValue⟩ := exists_of_quad hQuad
    change skipString ('\\' :: 'u' :: a :: b :: c :: d :: rest) = _
    rw [skipString, hValue]
  cases h with
  | plain hPrintable hQuote hBackslash =>
    rw [List.singleton_append, skipString, if_neg (Nat.not_lt.2 hPrintable)]
    all_goals intros; contradiction
  | @short letter hLetter =>
    obtain ⟨hEscape, hNotUnit⟩ := escapedChar?_of_mem hLetter
    rw [List.cons_append, List.singleton_append, skipString, hEscape]
    all_goals intros; contradiction
  | unit hQuad => exact hQuadSkipped hQuad rest
  | pair hPlane hFirst hSecond =>
    rw [List.append_assoc, hQuadSkipped hFirst, hQuadSkipped hSecond]

variable {characters text : List Char}

theorem stringBody_form (h : StringForm characters text) (rest found : List Char) :
    stringBody (text ++ '"' :: rest) found =
      .ok (String.ofList (found.reverse ++ characters), rest) := by
  induction h generalizing found with
  | nil => rw [List.nil_append, stringBody, List.append_nil]
  | @cons c characters form text hChar hRest ih =>
    rw [List.append_assoc, stringBody_char hChar, ih, List.reverse_cons, List.append_assoc]
    rfl

theorem skipString_form (h : StringForm characters text) (rest : List Char) :
    skipString (text ++ '"' :: rest) = .ok rest := by
  induction h with
  | nil => rw [List.nil_append, skipString]
  | cons hChar hRest ih => rw [List.append_assoc, skipString_char hChar, ih]

end

/-! ## Numbers -/

theorem ne_of_isDigit {c d : Char} (h : c.isDigit = true) (hNot : d.isDigit = false) : c ≠ d := by
  rintro rfl
  rw [h] at hNot
  cases hNot

/-- The text does not go on with digits. -/
def NoDigit (text : List Char) : Prop := ∀ c ∈ text.head?, c.isDigit = false

/-- The text does not go on with a number. -/
def Ends (text : List Char) : Prop :=
  ∀ c ∈ text.head?, c.isDigit = false ∧ c ≠ '.' ∧ c ≠ 'e' ∧ c ≠ 'E'

theorem Ends.noDigit {text : List Char} (h : Ends text) : NoDigit text :=
  fun c hMem => (h c hMem).1

section

variable {ds rest : List Char}

theorem digits_append (hDigits : ∀ c ∈ ds, c.isDigit = true) (hRest : NoDigit rest) :
    digits (ds ++ rest) = (ds, rest) := by
  induction ds with
  | nil =>
    cases rest with
    | nil => rfl
    | cons c rest => simp [digits, hRest c rfl]
  | cons c ds ih =>
    have hDigit := hDigits c List.mem_cons_self
    have hRead := ih fun c hMem => hDigits c (List.mem_cons_of_mem _ hMem)
    simp only [digits, Prod.mk.injEq] at hRead
    simp [digits, hDigit, hRead]

theorem someDigits_form (skipping : Bool) (hDigits : Digits ds) (hRest : NoDigit rest) :
    someDigits skipping (ds ++ rest) = .ok (ds, rest) := by
  rw [someDigits, digits_append hDigits.2 hRest]
  cases ds with
  | nil => exact absurd rfl hDigits.1
  | cons c ds => rfl

theorem wholeDigits_form (skipping : Bool) (hWhole : WholeForm ds) (hRest : NoDigit rest) :
    wholeDigits skipping (ds ++ rest) = .ok (ds, rest) := by
  rw [wholeDigits, digits_append hWhole.1.2 hRest]
  split
  · rename_i hNone
    cases hNone
    exact absurd rfl hWhole.1.1
  · rename_i hZero
    cases hZero
    cases hWhole.2 rfl
  · rename_i hDigits
    cases hDigits
    rfl

theorem fractionPart_of_ne_point (skipping : Bool) (hPoint : ∀ c ∈ rest.head?, c ≠ '.') :
    fractionPart skipping rest = .ok (none, rest) := by
  unfold fractionPart
  split
  · exact absurd rfl (hPoint '.' rfl)
  · rfl

theorem exponentPart_of_ends (skipping : Bool) (hRest : Ends rest) :
    exponentPart skipping rest = .ok (none, rest) := by
  cases rest with
  | nil => rfl
  | cons c rest =>
    obtain ⟨-, -, hLower, hUpper⟩ := hRest c rfl
    exact if_neg (not_or.2 ⟨hLower, hUpper⟩)

/-- The text does not go on with a fraction. -/
theorem noDigit_of_exponent {exponent : List Char} (hExponent : ExponentForm exponent)
    (hRest : Ends rest) : NoDigit (exponent ++ rest) ∧ ∀ c ∈ (exponent ++ rest).head?, c ≠ '.' := by
  cases hExponent with
  | none => exact ⟨hRest.noDigit, fun c hMem => (hRest c hMem).2.1⟩
  | some hMark hSign hDigits =>
    refine ⟨fun c hMem => ?_, fun c hMem => ?_⟩ <;> cases hMem <;>
      rcases hMark with rfl | rfl <;> decide

theorem fractionPart_form (skipping : Bool) {fraction : List Char}
    (hFraction : FractionForm fraction) (hRest : NoDigit rest)
    (hPoint : ∀ c ∈ rest.head?, c ≠ '.') :
    ∃ ds, fractionPart skipping (fraction ++ rest) = .ok (ds, rest) := by
  cases hFraction with
  | none => exact ⟨none, fractionPart_of_ne_point skipping hPoint⟩
  | @some ds hDigits =>
    refine ⟨some ds, ?_⟩
    simp only [List.cons_append, fractionPart, someDigits_form skipping hDigits hRest]
    rfl

theorem exponentPart_form (skipping : Bool) {exponent : List Char}
    (hExponent : ExponentForm exponent) (hRest : Ends rest) :
    ∃ n, exponentPart skipping (exponent ++ rest) = .ok (n, rest) := by
  cases hExponent with
  | none => exact ⟨none, exponentPart_of_ends skipping hRest⟩
  | @some mark sign ds hMark hSign hDigits =>
    have hRead := someDigits_form skipping hDigits hRest.noDigit
    rcases hSign with rfl | rfl | rfl
    · obtain ⟨d, ds, rfl⟩ := List.exists_cons_of_ne_nil hDigits.1
      have hDigit : d.isDigit = true := hDigits.2 d List.mem_cons_self
      have hMinus : d ≠ '-' := ne_of_isDigit hDigit rfl
      have hPlus : d ≠ '+' := ne_of_isDigit hDigit rfl
      refine ⟨some (digitsValue (d :: ds)), ?_⟩
      change exponentPart skipping (mark :: d :: (ds ++ rest)) = _
      rw [List.cons_append] at hRead
      simp only [exponentPart, List.cons.injEq, hMinus, hPlus, false_and, imp_self, implies_true,
        hRead, Bool.false_eq_true, if_false, if_pos hMark]
      rfl
    · refine ⟨some (digitsValue ds), ?_⟩
      change exponentPart skipping (mark :: '+' :: (ds ++ rest)) = _
      simp only [exponentPart, if_pos hMark, hRead]
      rfl
    · refine ⟨some (-(digitsValue ds)), ?_⟩
      change exponentPart skipping (mark :: '-' :: (ds ++ rest)) = _
      simp only [exponentPart, if_pos hMark, hRead]
      rfl

/-- A number is read part by part after its sign. -/
theorem numeral_eq (skipping negative : Bool) (hWhole : WholeForm ds) (rest : List Char) :
    numeral skipping ((if negative then ['-'] else []) ++ ds ++ rest) = (do
      let (whole, text) ← wholeDigits skipping (ds ++ rest)
      let (fraction, text) ← fractionPart skipping text
      let (exponent, text) ← exponentPart skipping text
      return ({
        negative
        whole
        fraction := fraction.getD []
        isFloat := fraction.isSome || exponent.isSome
        exponent := exponent.getD 0 }, text)) := by
  cases negative with
  | true => rfl
  | false =>
    obtain ⟨d, ds, rfl⟩ := List.exists_cons_of_ne_nil hWhole.1.1
    have hMinus : d ≠ '-' := ne_of_isDigit (hWhole.1.2 d List.mem_cons_self) rfl
    change numeral skipping (d :: (ds ++ rest)) = _
    rw [numeral]
    · rfl
    · intro rest' hStart
      exact hMinus (List.cons.inj hStart).1

/-- Digits without sign, fraction and exponent. -/
theorem numeral_digits (skipping : Bool) (hWhole : WholeForm ds) (hRest : Ends rest) :
    numeral skipping (ds ++ rest) = .ok ({
      negative := false, whole := ds, fraction := [], isFloat := false, exponent := 0 }, rest) :=
  (numeral_eq skipping false hWhole rest).trans <|
    (bind_of_ok (wholeDigits_form skipping hWhole hRest.noDigit) _).trans <|
    (bind_of_ok (fractionPart_of_ne_point skipping fun c hMem => (hRest c hMem).2.1) _).trans <|
    bind_of_ok (exponentPart_of_ends skipping hRest) _

theorem numeral_form (skipping : Bool) {text : List Char} (hNumber : NumberForm text)
    (hRest : Ends rest) : ∃ n, numeral skipping (text ++ rest) = .ok (n, rest) := by
  cases hNumber with
  | @mk sign whole fraction exponent hSign hWhole hFraction hExponent =>
    obtain ⟨negative, rfl⟩ : ∃ negative : Bool, sign = if negative then ['-'] else [] := by
      rcases hSign with rfl | rfl
      · exact ⟨false, rfl⟩
      · exact ⟨true, rfl⟩
    obtain ⟨hNoDigit, hNoPoint⟩ := noDigit_of_exponent hExponent hRest
    obtain ⟨fractionDigits, hFractionRead⟩ :=
      fractionPart_form skipping hFraction hNoDigit hNoPoint
    obtain ⟨power, hExponentRead⟩ := exponentPart_form skipping hExponent hRest
    have hWholeEnds : NoDigit (fraction ++ (exponent ++ rest)) := by
      cases hFraction with
      | none => exact hNoDigit
      | some hDigits => exact fun c hMem => by cases hMem; rfl
    have hWholeRead := wholeDigits_form skipping hWhole hWholeEnds
    have hRead := numeral_eq skipping negative hWhole (fraction ++ (exponent ++ rest))
    simp only [List.append_assoc] at hRead ⊢
    exact ⟨_, hRead.trans <| (bind_of_ok hWholeRead _).trans <|
      (bind_of_ok hFractionRead _).trans <| bind_of_ok hExponentRead _⟩

end

/-! ## Values -/

/-! ### Starts -/

/-- A character that something starts with: it is no white space and closes no bracket. -/
def Starts (c : Char) : Prop := isSpace c = false ∧ ∀ b : Bracket, b.closedBy c = false

theorem starts_opening (b : Bracket) : Starts b.opening := by
  refine ⟨by cases b <;> rfl, fun b' => ?_⟩
  cases b <;> cases b' <;> rfl

theorem starts_of_isDigit {c : Char} (h : c.isDigit = true) : Starts c := by
  refine ⟨?_, fun b => ?_⟩
  · have hBlank : c ≠ ' ' ∧ c ≠ '\n' ∧ c ≠ '\t' ∧ c ≠ '\r' :=
      ⟨ne_of_isDigit h rfl, ne_of_isDigit h rfl, ne_of_isDigit h rfl, ne_of_isDigit h rfl⟩
    simp [isSpace, hBlank]
  · cases b
    · exact decide_eq_false (ne_of_isDigit h rfl)
    · exact decide_eq_false (ne_of_isDigit h rfl)

theorem NumberForm.start {text : List Char} (h : NumberForm text) :
    ∃ c tail, text = c :: tail ∧ (c = '-' ∨ c.isDigit = true) := by
  cases h with
  | @mk sign whole fraction exponent hSign hWhole hFraction hExponent =>
    obtain ⟨d, ds, rfl⟩ := List.exists_cons_of_ne_nil hWhole.1.1
    rcases hSign with rfl | rfl
    · exact ⟨d, _, rfl, .inr (hWhole.1.2 d List.mem_cons_self)⟩
    · exact ⟨'-', _, rfl, .inl rfl⟩

/-- Where a value or an entry starts. -/
theorem IsJson.start {part : Part} {text : List Char} (h : IsJson part text) :
    ∃ blank c tail, text = blank ++ c :: tail ∧ Blank blank ∧ Starts c := by
  have hBlank : Blank [] := blank_nil
  have hQuote : Starts '"' := ⟨rfl, fun b => by cases b <;> rfl⟩
  induction h with
  | null => exact ⟨[], 'n', _, rfl, hBlank, rfl, fun b => by cases b <;> rfl⟩
  | true => exact ⟨[], 't', _, rfl, hBlank, rfl, fun b => by cases b <;> rfl⟩
  | false => exact ⟨[], 'f', _, rfl, hBlank, rfl, fun b => by cases b <;> rfl⟩
  | number hNumber =>
    obtain ⟨c, tail, rfl, rfl | hDigit⟩ := hNumber.start
    · exact ⟨[], '-', tail, rfl, hBlank, rfl, fun b => by cases b <;> rfl⟩
    · exact ⟨[], c, tail, rfl, hBlank, starts_of_isDigit hDigit⟩
  | string hString => exact ⟨[], '"', _, rfl, hBlank, hQuote⟩
  | empty b _ => exact ⟨[], b.opening, _, rfl, hBlank, starts_opening b⟩
  | @bracket b _ _ _ => exact ⟨[], b.opening, _, rfl, hBlank, starts_opening b⟩
  | @element left text right hLeft hText hRight ih =>
    obtain ⟨blank, c, tail, rfl, hInner, hStarts⟩ := ih
    refine ⟨left ++ blank, c, tail ++ right, by simp, ?_, hStarts⟩
    intro d hMem
    exact (List.mem_append.1 hMem).elim (hLeft d) (hInner d)
  | @member left name beforeColon afterColon text right _ hLeft =>
    exact ⟨left, '"', name ++ '"' :: (beforeColon ++ ':' :: (afterColon ++ (text ++ right))),
      by simp [quoted], hLeft, hQuote⟩
  | more _ _ ihFirst _ =>
    obtain ⟨blank, c, tail, rfl, hInner, hStarts⟩ := ihFirst
    exact ⟨blank, c, _, List.append_assoc _ _ _, hInner, hStarts⟩

/-! ### Turns -/

section

variable {fuel : Nat} {open' outer : List Bracket} {b : Bracket} {text rest : List Char}

theorem skipNested_append {blank : List Char} (h : Blank blank) (fuel : Nat) (expect : Expect)
    (open' : List Bracket) (text : List Char) :
    skipNested fuel expect open' (blank ++ text) = skipNested fuel expect open' text := by
  cases fuel with
  | zero => rfl
  | succ fuel =>
    unfold skipNested
    rw [skipSpace_append h]

theorem skipNested_scalar (h : skipScalar (skipSpace text) = .ok (none, rest)) :
    skipNested (fuel + 1) .value open' text =
      if open'.isEmpty then .ok rest else skipNested fuel .separator open' rest := by
  rw [skipNested]
  exact bind_of_ok h _

theorem skipNested_opening (h : skipScalar (skipSpace text) = .ok (some b, rest)) :
    skipNested (fuel + 1) .value open' text = skipNested fuel .entryOrEnd (b :: open') rest := by
  rw [skipNested]
  exact bind_of_ok h _

theorem skipNested_key (h : skipKey (skipSpace text) = .ok rest) :
    skipNested (fuel + 1) .key open' text = skipNested fuel .value open' rest := by
  rw [skipNested]
  exact bind_of_ok h _

theorem closedBy_closing (b : Bracket) : b.closedBy b.closing = true := by cases b <;> rfl

theorem skipNested_closing {expect : Expect} (hExpect : expect = .separator ∨ expect = .entryOrEnd)
    (h : skipSpace text = b.closing :: rest) :
    skipNested (fuel + 1) expect (b :: outer) text =
      if outer.isEmpty then .ok rest else skipNested fuel .separator outer rest := by
  rcases hExpect with rfl | rfl
  · rw [skipNested, h]
    · exact if_pos (closedBy_closing b)
    all_goals nofun
  · rw [skipNested, h]
    · exact if_pos (closedBy_closing b)
    all_goals nofun

theorem skipNested_comma (h : skipSpace text = ',' :: rest) :
    skipNested (fuel + 1) .separator (b :: outer) text =
      skipNested fuel b.entry (b :: outer) rest := by
  rw [skipNested, h]
  · cases b <;> rfl
  all_goals nofun

theorem skipNested_first {c : Char} (h : skipSpace text = c :: rest) (hStarts : Starts c) :
    skipNested (fuel + 1) .entryOrEnd (b :: outer) text =
      skipNested fuel b.entry (b :: outer) (c :: rest) := by
  rw [skipNested, h]
  · exact (if_neg (by rw [hStarts.2 b]; exact Bool.false_ne_true)).trans (if_neg nofun)
  all_goals nofun

end

/-! ### Parts of values -/

theorem ends_append {blank rest : List Char} (hBlank : Blank blank) (hRest : Ends rest) :
    Ends (blank ++ rest) := by
  cases blank with
  | nil => exact hRest
  | cons c blank =>
    intro d hMem
    cases hMem
    rcases hBlank c List.mem_cons_self with rfl | rfl | rfl | rfl <;> decide

theorem ends_comma (rest : List Char) : Ends (',' :: rest) := by
  intro c hMem
  cases hMem
  decide

theorem ends_closing (b : Bracket) (rest : List Char) : Ends (b.closing :: rest) := by
  intro c hMem
  cases hMem
  cases b <;> decide

theorem skipKey_form {characters name beforeColon : List Char} (hName : StringForm characters name)
    (hBefore : Blank beforeColon) (rest : List Char) :
    skipKey (quoted name ++ beforeColon ++ ':' :: rest) = .ok rest := by
  have hText : quoted name ++ beforeColon ++ ':' :: rest =
      '"' :: (name ++ '"' :: (beforeColon ++ ':' :: rest)) := by simp [quoted]
  rw [hText, skipKey, bind_of_ok (skipString_form hName _), skipSpace_append hBefore]
  rfl

theorem skipScalar_number {text rest : List Char} (hNumber : NumberForm text) (hRest : Ends rest) :
    skipScalar (skipSpace (text ++ rest)) = .ok (none, rest) := by
  obtain ⟨n, hRead⟩ := numeral_form true hNumber hRest
  obtain ⟨c, tail, rfl, hStart⟩ := hNumber.start
  have hSpace : isSpace c = false := by
    rcases hStart with rfl | hDigit
    · rfl
    · exact (starts_of_isDigit hDigit).1
  have hLetters : c ≠ 'n' ∧ c ≠ 't' ∧ c ≠ 'f' := by
    rcases hStart with rfl | hDigit
    · decide
    · exact ⟨ne_of_isDigit hDigit rfl, ne_of_isDigit hDigit rfl, ne_of_isDigit hDigit rfl⟩
  rw [List.cons_append] at hRead ⊢
  rw [skipSpace_cons hSpace, skipScalar, if_neg hLetters.1, if_neg hLetters.2.1,
    if_neg hLetters.2.2, if_pos hStart, hRead]
  rfl

/-- A part of a value is passed over in few turns, whatever follows it. -/
def Passes : Part → List Char → Prop
  | .value, text => ∃ turns ≤ 2 * text.length, ∀ fuel open' rest, Ends rest →
      skipNested (fuel + turns) .value open' (text ++ rest) =
        if open'.isEmpty then .ok rest else skipNested fuel .separator open' rest
  | .entries b, text => ∃ turns ≤ 2 * text.length, ∀ fuel outer rest, Ends rest →
      skipNested (fuel + turns) b.entry (b :: outer) (text ++ rest) =
        skipNested fuel .separator (b :: outer) rest

theorem passes_scalar {text : List Char} (hText : 0 < text.length)
    (h : ∀ rest, Ends rest → skipScalar (skipSpace (text ++ rest)) = .ok (none, rest)) :
    Passes .value text :=
  ⟨1, by omega, fun _ _ rest hRest => skipNested_scalar (h rest hRest)⟩

theorem passes_empty (b : Bracket) {blank : List Char} (hBlank : Blank blank) :
    Passes .value (b.opening :: blank ++ [b.closing]) := by
  refine ⟨2, ?_, fun fuel open' rest hRest => ?_⟩
  · simp only [List.length_append, List.length_cons]
    omega
  have hText : b.opening :: blank ++ [b.closing] ++ rest =
      b.opening :: (blank ++ b.closing :: rest) := by simp
  have hOpening : skipScalar (skipSpace (b.opening :: (blank ++ b.closing :: rest))) =
      .ok (some b, blank ++ b.closing :: rest) := by cases b <;> rfl
  have hClosing : skipSpace (blank ++ b.closing :: rest) = b.closing :: rest := by
    rw [skipSpace_append hBlank]
    cases b <;> rfl
  rw [hText, skipNested_opening hOpening, skipNested_closing (.inr rfl) hClosing]

theorem passes_bracket {b : Bracket} {text : List Char} (hEntries : IsJson (.entries b) text)
    (h : Passes (.entries b) text) : Passes .value (b.opening :: text ++ [b.closing]) := by
  obtain ⟨turns, hTurns, hPasses⟩ := h
  refine ⟨turns + 3, ?_, fun fuel open' rest hRest => ?_⟩
  · simp only [List.length_append, List.length_cons]
    omega
  obtain ⟨blank, c, tail, rfl, hBlank, hStarts⟩ := hEntries.start
  have hText : b.opening :: (blank ++ c :: tail) ++ [b.closing] ++ rest =
      b.opening :: (blank ++ c :: tail ++ b.closing :: rest) := by simp
  have hOpening : skipScalar (skipSpace (b.opening :: (blank ++ c :: tail ++ b.closing :: rest))) =
      .ok (some b, blank ++ c :: tail ++ b.closing :: rest) := by cases b <;> rfl
  have hFirst : skipSpace (blank ++ c :: tail ++ b.closing :: rest) =
      c :: (tail ++ b.closing :: rest) := by
    rw [List.append_assoc, skipSpace_append hBlank]
    exact skipSpace_cons hStarts.1 _
  have hClosing : skipSpace (b.closing :: rest) = b.closing :: rest := by cases b <;> rfl
  have hFuel : fuel + (turns + 3) = fuel + 1 + turns + 1 + 1 := by omega
  have hInner := hPasses (fuel + 1) open' _ (ends_closing b rest)
  rw [List.append_assoc, skipNested_append hBlank] at hInner
  rw [hText, hFuel, skipNested_opening hOpening, skipNested_first hFirst hStarts]
  exact hInner.trans (skipNested_closing (.inl rfl) hClosing)

/-- Every part of a value is passed over. -/
theorem IsJson.passes {part : Part} {text : List Char} (h : IsJson part text) :
    Passes part text := by
  induction h with
  | null => exact passes_scalar (by decide) fun _ _ => rfl
  | true => exact passes_scalar (by decide) fun _ _ => rfl
  | false => exact passes_scalar (by decide) fun _ _ => rfl
  | number hNumber =>
    refine passes_scalar ?_ fun rest hRest => skipScalar_number hNumber hRest
    obtain ⟨c, tail, rfl, -⟩ := hNumber.start
    exact Nat.succ_pos _
  | @string characters text hString =>
    refine passes_scalar (Nat.succ_pos _) fun rest _ => ?_
    have hText : quoted text ++ rest = '"' :: (text ++ '"' :: rest) := by simp [quoted]
    rw [hText]
    exact congrArg (Except.map (none, ·)) (skipString_form hString rest)
  | empty b hBlank => exact passes_empty b hBlank
  | bracket hEntries ih => exact passes_bracket hEntries ih
  | @element left text right hLeft hText hRight ih =>
    obtain ⟨turns, hTurns, hPasses⟩ := ih
    refine ⟨turns, ?_, fun fuel outer rest hRest => ?_⟩
    · simp only [List.length_append]
      omega
    rw [List.append_assoc, List.append_assoc, skipNested_append hLeft]
    refine (hPasses fuel (.array :: outer) _ (ends_append hRight hRest)).trans ?_
    exact skipNested_append hRight fuel .separator (.array :: outer) rest
  | @member left name beforeColon afterColon text right _ hLeft hName hBefore hAfter _ hRight
      ih =>
    obtain ⟨turns, hTurns, hPasses⟩ := ih
    refine ⟨turns + 1, ?_, fun fuel outer rest hRest => ?_⟩
    · simp only [List.length_append, List.length_cons]
      omega
    have hParts : left ++ quoted name ++ beforeColon ++ ':' :: afterColon ++ text ++ right ++ rest =
        left ++ (quoted name ++ beforeColon ++
          ':' :: (afterColon ++ (text ++ (right ++ rest)))) := by simp
    have hKey : skipKey (skipSpace (quoted name ++ beforeColon ++
        ':' :: (afterColon ++ (text ++ (right ++ rest))))) =
          .ok (afterColon ++ (text ++ (right ++ rest))) := skipKey_form hName hBefore _
    rw [hParts, skipNested_append hLeft]
    refine (@skipNested_key (fuel + turns) _ _ _ hKey).trans ?_
    rw [skipNested_append hAfter]
    refine (hPasses fuel (.object :: outer) _ (ends_append hRight hRest)).trans ?_
    exact skipNested_append hRight fuel .separator (.object :: outer) rest
  | @more b first rest hFirst hRest ihFirst ihRest =>
    obtain ⟨firstTurns, hFirstTurns, hFirstPasses⟩ := ihFirst
    obtain ⟨restTurns, hRestTurns, hRestPasses⟩ := ihRest
    refine ⟨restTurns + 1 + firstTurns, ?_, fun fuel outer after hAfter => ?_⟩
    · simp only [List.length_append, List.length_cons]
      omega
    have hFuel : fuel + (restTurns + 1 + firstTurns) = fuel + restTurns + 1 + firstTurns := by omega
    rw [List.append_assoc, List.cons_append, hFuel]
    refine (hFirstPasses _ outer _ (ends_comma _)).trans ?_
    exact (skipNested_comma rfl).trans (hRestPasses fuel outer after hAfter)

/-- Values of any shape are passed over. -/
theorem skipValue_form {blank text rest : List Char} (hBlank : Blank blank)
    (h : IsJson .value text) (hRest : Ends rest) :
    skipValue (blank ++ text ++ rest) = .ok rest := by
  obtain ⟨turns, hTurns, hPasses⟩ := h.passes
  have hFuel : 2 * (blank ++ text ++ rest).length + 1 =
      (2 * (blank ++ text ++ rest).length + 1 - turns) + turns := by
    rw [List.length_append, List.length_append]
    omega
  rw [skipValue, hFuel, List.append_assoc, skipNested_append hBlank]
  exact hPasses _ [] rest hRest

end WasmMachine.Json
