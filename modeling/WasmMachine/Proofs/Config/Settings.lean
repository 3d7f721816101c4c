import WasmMachine.Config.Json
import WasmMachine.Proofs.Json.Numbers

/-!
# Settings are read independently

An object may hold any of the settings in any order, with unknown members between them whose values
are any JSON. What is read are the defaults with exactly these settings replaced, however the object
is written. The text that is written for settings is one such object, which holds all of them.

* `Config.Setting`: a setting with its value.
* `Config.ObjectForm`: the texts of objects with some of the settings.
* `Config.ofJson_form`: they are read.
* `Config.objectForm_toJson`: settings are written as an object with all of them.
* `Config.settings_read`: the settings come back from their text, and independently of each other.
-/

namespace WasmMachine.Config

open Json

/-! ## Settings -/

/-- A setting with its value. -/
inductive Setting where
  | entry (v : String)
  | debug (v : Bool)
  | maxCallDepth (v : UInt64)
  | maxSteps (v : Option UInt64)
  | maxPages (v : UInt32)
  | maxTableSize (v : UInt32)

/-- Which setting it is. -/
def Setting.field : Setting → Field
  | .entry _ => .entry
  | .debug _ => .debug
  | .maxCallDepth _ => .maxCallDepth
  | .maxSteps _ => .maxSteps
  | .maxPages _ => .maxPages
  | .maxTableSize _ => .maxTableSize

/-- The setting of a name, with its value. -/
def setting (c : Config) : Field → Setting
  | .entry => .entry c.entry
  | .debug => .debug c.debug
  | .maxCallDepth => .maxCallDepth c.maxCallDepth
  | .maxSteps => .maxSteps c.maxSteps
  | .maxPages => .maxPages c.maxPages
  | .maxTableSize => .maxTableSize c.maxTableSize

/-- The settings with one of them replaced. -/
def set (c : Config) : Setting → Config
  | .entry v => { c with entry := v }
  | .debug v => { c with debug := v }
  | .maxCallDepth v => { c with maxCallDepth := v }
  | .maxSteps v => { c with maxSteps := v }
  | .maxPages v => { c with maxPages := v }
  | .maxTableSize v => { c with maxTableSize := v }

theorem setting_set (c : Config) (s : Setting) : (c.set s).setting s.field = s := by
  cases s <;> rfl

theorem setting_set_of_ne (c : Config) {s : Setting} {f : Field} (h : s.field ≠ f) :
    (c.set s).setting f = c.setting f := by
  cases s <;> cases f <;> first | rfl | exact absurd rfl h

/-- What was set last holds, and what was not set stays. -/
theorem setting_foldl {settings : List Setting} (hOnce : (settings.map Setting.field).Nodup)
    (c : Config) :
    (∀ s ∈ settings, (settings.foldl set c).setting s.field = s) ∧
      ∀ f, f ∉ settings.map Setting.field → (settings.foldl set c).setting f = c.setting f := by
  induction settings generalizing c with
  | nil => exact ⟨nofun, fun _ _ => rfl⟩
  | cons s settings ih =>
    obtain ⟨hNew, hRest⟩ := List.nodup_cons.1 hOnce
    obtain ⟨hSet, hKept⟩ := ih hRest (c.set s)
    refine ⟨fun s' hMem => ?_, fun f hOther => ?_⟩
    · rcases List.mem_cons.1 hMem with rfl | hMem
      · exact (hKept _ hNew).trans (setting_set c s')
      · exact hSet s' hMem
    · obtain ⟨hNe, hOthers⟩ := not_or.1 (mt List.mem_cons.2 hOther)
      exact (hKept f hOthers).trans (setting_set_of_ne c (Ne.symm hNe))

/-! ## Objects -/

/-- The texts of the value of a setting. -/
def Setting.Written : Setting → List Char → Prop
  | .entry v, text => ∃ body, StringForm v.toList body ∧ text = quoted body
  | .debug true, text => text = ['t', 'r', 'u', 'e']
  | .debug false, text => text = ['f', 'a', 'l', 's', 'e']
  | .maxCallDepth v, text => text = decimal v.toNat
  | .maxSteps none, text => text = ['n', 'u', 'l', 'l']
  | .maxSteps (some v), text => text = decimal v.toNat
  | .maxPages v, text => text = decimal v.toNat
  | .maxTableSize v, text => text = decimal v.toNat

/-- A member of an object from its parts. -/
def memberText (left name beforeColon afterColon value right : List Char) : List Char :=
  left ++ quoted name ++ beforeColon ++ ':' :: afterColon ++ value ++ right

/-- The texts of a member: of a setting, or of an unknown name with any value. -/
inductive MemberForm : Option Setting → List Char → Prop where
  | known {s : Setting} {left name beforeColon afterColon value right : List Char}
    (hLeft : Blank left) (hName : StringForm s.field.name.toList name)
    (hBefore : Blank beforeColon) (hAfter : Blank afterColon) (hValue : s.Written value)
    (hRight : Blank right) :
    MemberForm (some s) (memberText left name beforeColon afterColon value right)
  | unknown {key : String} {left name beforeColon afterColon value right : List Char}
    (hKey : ∀ f : Field, f.name ≠ key) (hLeft : Blank left) (hName : StringForm key.toList name)
    (hBefore : Blank beforeColon) (hAfter : Blank afterColon) (hValue : IsJson .value value)
    (hRight : Blank right) :
    MemberForm none (memberText left name beforeColon afterColon value right)

/-- The texts of members with some settings among them. -/
inductive MembersForm : List Setting → List Char → Prop where
  | one {m : Option Setting} {text : List Char} (hMember : MemberForm m text) :
    MembersForm m.toList text
  | more {m : Option Setting} {settings : List Setting} {first rest : List Char}
    (hFirst : MemberForm m first) (hRest : MembersForm settings rest) :
    MembersForm (m.toList ++ settings) (first ++ ',' :: rest)

/-- The texts of objects with some settings. -/
inductive ObjectForm : List Setting → List Char → Prop where
  | empty {left inner right : List Char} (hLeft : Blank left) (hInner : Blank inner)
    (hRight : Blank right) : ObjectForm [] (left ++ '\x7b' :: inner ++ '\x7d' :: right)
  | members {settings : List Setting} {left text right : List Char} (hLeft : Blank left)
    (hMembers : MembersForm settings text) (hRight : Blank right) :
    ObjectForm settings (left ++ '\x7b' :: text ++ '\x7d' :: right)

/-! ## Reading -/

section

variable {blank rest text : List Char}

theorem string_form {v : String} {body : List Char} (hBody : StringForm v.toList body)
    (hBlank : Blank blank) : Json.string (blank ++ quoted body ++ rest) = .ok (v, rest) := by
  have hText : quoted body ++ rest = '"' :: (body ++ '"' :: rest) := by simp [quoted]
  rw [Json.string, List.append_assoc, skipSpace_append hBlank, hText]
  exact (stringBody_form hBody rest []).trans (by simp)

theorem optional_decimal {n : Nat} (hSize : n < UInt64.size) (hBlank : Blank blank)
    (hRest : Ends rest) :
    Json.optional (natBelow UInt64.size) (blank ++ decimal n ++ rest) = .ok (some n, rest) := by
  have hRead := natBelow_form hSize hSize blank_nil hRest
  obtain ⟨d, ds, hDigit, hText, hStart⟩ := exists_skipSpace_decimal n hBlank rest
  have hNotNull : d ≠ 'n' := ne_of_isDigit hDigit rfl
  rw [List.nil_append, hText] at hRead
  rw [Json.optional, hStart]
  split
  · rename_i hNull
    exact absurd (List.cons.inj hNull).1 hNotNull
  · exact bind_of_ok hRead _

/-- The value of a setting is read, whatever follows it. -/
theorem readField_form {s : Setting} (hValue : s.Written text) (hBlank : Blank blank)
    (hRest : Ends rest) (c : Config) :
    readField c s.field (blank ++ text ++ rest) = .ok (c.set s, rest) := by
  have hSmall (v : UInt32) : v.toNat < UInt64.size := v.toNat_lt.trans (by decide)
  cases s with
  | entry v =>
    obtain ⟨body, hBody, rfl⟩ := hValue
    exact bind_of_ok (string_form hBody hBlank) _
  | debug v =>
    have hBool : Json.bool (blank ++ text ++ rest) = .ok (v, rest) := by
      rw [Json.bool, List.append_assoc, skipSpace_append hBlank]
      cases v <;> obtain rfl := hValue <;> rfl
    exact bind_of_ok hBool _
  | maxCallDepth v =>
    obtain rfl := hValue
    refine (bind_of_ok (natBelow_form v.toNat_lt v.toNat_lt hBlank hRest) _).trans ?_
    dsimp only
    rw [UInt64.ofNat_toNat]
    rfl
  | maxSteps v =>
    cases v with
    | none =>
      obtain rfl := hValue
      have hNull : Json.optional (natBelow UInt64.size) (blank ++ ['n', 'u', 'l', 'l'] ++ rest) =
          .ok (none, rest) := by
        rw [Json.optional, List.append_assoc, skipSpace_append hBlank]
        rfl
      exact bind_of_ok hNull _
    | some v =>
      obtain rfl := hValue
      refine (bind_of_ok (optional_decimal v.toNat_lt hBlank hRest) _).trans ?_
      dsimp only
      rw [Option.map_some, UInt64.ofNat_toNat]
      rfl
  | maxPages v =>
    obtain rfl := hValue
    refine (bind_of_ok (natBelow_form v.toNat_lt (hSmall v) hBlank hRest) _).trans ?_
    dsimp only
    rw [UInt32.ofNat_toNat]
    rfl
  | maxTableSize v =>
    obtain rfl := hValue
    refine (bind_of_ok (natBelow_form v.toNat_lt (hSmall v) hBlank hRest) _).trans ?_
    dsimp only
    rw [UInt32.ofNat_toNat]
    rfl

theorem ofName?_name (f : Field) : Field.ofName? f.name = some f := by cases f <;> rfl

theorem ofName?_eq_none {key : String} (h : ∀ f : Field, f.name ≠ key) :
    Field.ofName? key = none :=
  List.find?_eq_none.2 fun f _ hName => h f (of_decide_eq_true hName)

theorem colon_form (hBlank : Blank blank) (rest : List Char) :
    colon (blank ++ ':' :: rest) = .ok rest := by
  rw [colon, skipSpace_append hBlank]
  rfl

theorem MemberForm.length_pos {m : Option Setting} (h : MemberForm m text) : 0 < text.length := by
  cases h <;> simp [memberText]

/-- The name of a member tells what is read as its value. -/
theorem member_name {key : String} {name beforeColon : List Char}
    (hName : StringForm key.toList name) (hBefore : Blank beforeColon) (c : Config)
    (seen : List Field) (rest : List Char) :
    member c seen (name ++ '"' :: (beforeColon ++ ':' :: rest)) =
      match Field.ofName? key with
      | some f =>
        if f ∈ seen then .error .shape
        else (readField c f rest).map fun (c, rest) => (c, f :: seen, rest)
      | none => (skipValue rest).map fun rest => (c, seen, rest) := by
  rw [member, bind_of_ok (stringBody_form hName _ [])]
  simp only [List.reverse_nil, List.nil_append, String.ofList_toList]
  cases Field.ofName? key with
  | none => exact bind_of_ok (colon_form hBefore rest) _
  | some f =>
    dsimp only
    split
    · rfl
    · exact bind_of_ok (colon_form hBefore rest) _

theorem memberText_append (left name beforeColon afterColon value right rest : List Char) :
    memberText left name beforeColon afterColon value right ++ rest = left ++ '"' ::
      (name ++ '"' :: (beforeColon ++ ':' :: (afterColon ++ value ++ (right ++ rest)))) := by
  simp [memberText, quoted]

/-- A member is read up to the white space after its value. -/
theorem member_form {m : Option Setting} (h : MemberForm m text) (hRest : Ends rest)
    {seen : List Field} (hNew : ∀ s ∈ m, s.field ∉ seen) (c : Config) :
    ∃ left tail right, text ++ rest = left ++ '"' :: tail ∧ Blank left ∧ Blank right ∧
      member c seen tail =
        .ok (m.toList.foldl set c, m.toList.map Setting.field ++ seen, right ++ rest) := by
  cases h with
  | @known s _ _ _ _ _ right hLeft hName hBefore hAfter hValue hRight =>
    refine ⟨_, _, right, memberText_append .., hLeft, hRight, ?_⟩
    rw [member_name hName hBefore, ofName?_name]
    dsimp only
    rw [if_neg (hNew s rfl), readField_form hValue hAfter (ends_append hRight hRest) c]
    rfl
  | @unknown _ _ _ _ _ _ right hKey hLeft hName hBefore hAfter hValue hRight =>
    refine ⟨_, _, right, memberText_append .., hLeft, hRight, ?_⟩
    rw [member_name hName hBefore, ofName?_eq_none hKey]
    dsimp only
    rw [skipValue_form hAfter hValue (ends_append hRight hRest)]
    rfl

theorem nextMember_append (hBlank : Blank blank) (first : Bool) (text : List Char) :
    nextMember first (blank ++ text) = nextMember first text := by
  rw [nextMember, nextMember, skipSpace_append hBlank]

theorem members_append (hBlank : Blank blank) (fuel : Nat) (c : Config) (first : Bool)
    (seen : List Field) (text : List Char) :
    members fuel c first seen (blank ++ text) = members fuel c first seen text := by
  cases fuel with
  | zero => rfl
  | succ fuel => rw [members, members, nextMember_append hBlank]

/-- The comma in front of all members but the first. -/
def comma (first : Bool) : List Char := if first then [] else [',']

theorem nextMember_quote (hBlank : Blank blank) (first : Bool) (rest : List Char) :
    nextMember first (comma first ++ (blank ++ '"' :: rest)) = .ok (.inl rest) := by
  cases first with
  | true => exact nextMember_append hBlank true ('"' :: rest)
  | false =>
    have hComma : skipSpace (',' :: (blank ++ '"' :: rest)) = ',' :: (blank ++ '"' :: rest) := rfl
    have hQuote : skipSpace (blank ++ '"' :: rest) = '"' :: rest := skipSpace_append hBlank _
    change nextMember false (',' :: (blank ++ '"' :: rest)) = _
    rw [nextMember, hComma]
    simp only [Bool.false_eq_true, if_false, hQuote]

/-- One member is read. -/
theorem members_member {m : Option Setting} (hMember : MemberForm m text) (hRest : Ends rest)
    {seen : List Field} (hNew : ∀ s ∈ m, s.field ∉ seen) (fuel : Nat) (c : Config) (first : Bool) :
    members (fuel + 1) c first seen (comma first ++ (text ++ rest)) =
      members fuel (m.toList.foldl set c) false (m.toList.map Setting.field ++ seen) rest := by
  obtain ⟨left, tail, right, hText, hLeft, hRight, hRead⟩ := member_form hMember hRest hNew c
  rw [hText, members, bind_of_ok (nextMember_quote hLeft first tail)]
  dsimp only
  rw [bind_of_ok hRead]
  exact members_append hRight fuel _ false _ rest

/-- The members of an object are read one by one. Each setting is none of those before. -/
theorem members_form {settings : List Setting} (h : MembersForm settings text)
    (hOnce : (settings.map Setting.field).Nodup) {fuel : Nat} (hFuel : text.length < fuel)
    (c : Config) (first : Bool) {seen : List Field} (hNew : ∀ s ∈ settings, s.field ∉ seen)
    (rest : List Char) :
    members fuel c first seen (comma first ++ (text ++ '\x7d' :: rest)) =
      .ok (settings.foldl set c, rest) := by
  induction h generalizing fuel c first seen with
  | @one m text hMember =>
    obtain ⟨fuel, rfl⟩ : ∃ n, fuel = n + 1 + 1 := by
      have hLength := hMember.length_pos
      exact ⟨fuel - 2, by omega⟩
    have hClosing : Ends ('\x7d' :: rest) := ends_closing .object rest
    rw [members_member hMember hClosing
      (fun s hMem => hNew s (Option.mem_toList.2 hMem)) (fuel + 1)]
    rfl
  | @more m settings firstText restText hFirst hRest ih =>
    rw [List.map_append] at hOnce
    obtain ⟨-, hOnceRest, hApart⟩ := List.nodup_append.1 hOnce
    obtain ⟨fuel, rfl⟩ : ∃ n, fuel = n + 1 := ⟨fuel - 1, by omega⟩
    rw [List.append_assoc, List.cons_append, members_member hFirst (ends_comma _)
      (fun s hMem => hNew s (List.mem_append_left _ (Option.mem_toList.2 hMem))), List.foldl_append]
    have hNewRest : ∀ s ∈ settings, s.field ∉ m.toList.map Setting.field ++ seen := by
      intro s hMem hSeen
      rcases List.mem_append.1 hSeen with hBefore | hSeen
      · exact hApart _ hBefore _ (List.mem_map_of_mem hMem) rfl
      · exact hNew s (List.mem_append_right _ hMem) hSeen
    refine ih hOnceRest ?_ _ false hNewRest
    simp only [List.length_append, List.length_cons] at hFuel
    omega

theorem readValue_form {settings : List Setting} (h : ObjectForm settings text)
    (hOnce : (settings.map Setting.field).Nodup) :
    ∃ right, Blank right ∧ readValue text = .ok (settings.foldl set {}, right) := by
  cases h with
  | @empty left inner right hLeft hInner hRight =>
    have hParts : left ++ '\x7b' :: inner ++ '\x7d' :: right =
        left ++ '\x7b' :: (inner ++ '\x7d' :: right) := by simp
    refine ⟨right, hRight, ?_⟩
    rw [hParts, readValue, skipSpace_append hLeft]
    exact members_append hInner _ {} true [] ('\x7d' :: right)
  | @members _ left text right hLeft hMembers hRight =>
    have hParts : left ++ '\x7b' :: text ++ '\x7d' :: right =
        left ++ '\x7b' :: (text ++ '\x7d' :: right) := by simp
    refine ⟨right, hRight, ?_⟩
    rw [hParts, readValue, skipSpace_append hLeft]
    refine members_form hMembers hOnce ?_ {} true (fun _ _ => List.not_mem_nil) right
    simp only [List.length_append, List.length_cons]
    omega

/-- An object with some of the settings is read as the defaults with these settings replaced. -/
theorem ofJson_form {settings : List Setting} {text : String}
    (h : ObjectForm settings text.toList) (hOnce : (settings.map Setting.field).Nodup) :
    ofJson text = .ok (settings.foldl set {}) := by
  obtain ⟨right, hRight, hRead⟩ := readValue_form h hOnce
  have hEnd : skipSpace right = [] := by
    rw [← List.append_nil right, skipSpace_append hRight]
    rfl
  rw [ofJson, bind_of_ok hRead]
  dsimp only
  rw [hEnd]
  rfl

end

/-! ## Writing -/

theorem quad_of_control {n : Nat} (h : n < 0x20) : Quad (hexDigitsPadded 4 n) n := by
  have hDigits : ∀ n < 0x20, hexDigitsPadded 4 n =
      [(0).digitChar, (0).digitChar, (n / 16).digitChar, (n % 16).digitChar] := by decide
  have hDigit {v : Nat} (hLess : v < 16) : HexDigit v.digitChar v := ⟨hLess, .inl rfl⟩
  have hNumber : 4096 * 0 + 256 * 0 + 16 * (n / 16) + n % 16 = n := by omega
  have hQuad := Quad.spell (hDigit (v := 0) (by decide)) (hDigit (v := 0) (by decide))
    (hDigit (v := n / 16) (by omega)) (hDigit (v := n % 16) (by omega))
  rwa [hNumber, ← hDigits n h] at hQuad

/-- A character is escaped in one of its forms. -/
theorem charForm_escapeChar (c : Char) : CharForm c (escapeChar c) := by
  have hLetter {n : Nat} {letter : Char} (h : c.toNat = n)
      (hMem : (letter, Char.ofNat n) ∈ shortEscapes) : CharForm c ['\\', letter] := by
    rw [← h, Char.ofNat_toNat] at hMem
    exact .short hMem
  unfold escapeChar
  split_ifs with hQuote hBackslash hNewline hReturn hTab hBackspace hFeed hControl
  · exact hLetter (n := 34) (by rw [hQuote]; rfl) (by decide)
  · exact hLetter (n := 92) (by rw [hBackslash]; rfl) (by decide)
  · exact hLetter (n := 10) (by rw [hNewline]; rfl) (by decide)
  · exact hLetter (n := 13) (by rw [hReturn]; rfl) (by decide)
  · exact hLetter (n := 9) (by rw [hTab]; rfl) (by decide)
  · exact hLetter hBackspace (by decide)
  · exact hLetter hFeed (by decide)
  · exact .unit (quad_of_control hControl)
  · exact .plain (Nat.not_lt.1 hControl) hQuote hBackslash

theorem stringForm_escape (characters : List Char) :
    StringForm characters (characters.flatMap escapeChar) := by
  induction characters with
  | nil => exact .nil
  | cons c characters ih => exact .cons (charForm_escapeChar c) ih

theorem toList_quote (text : String) :
    (quote text).toList = quoted (text.toList.flatMap escapeChar) := by
  simp [quote, quoted]

theorem written_fieldText (c : Config) (f : Field) :
    (c.setting f).Written (c.fieldText f).toList := by
  cases f with
  | entry => exact ⟨_, stringForm_escape _, toList_quote _⟩
  | debug =>
    change (Setting.debug c.debug).Written (if c.debug then "true" else "false").toList
    cases c.debug <;> simp [Setting.Written]
  | maxSteps =>
    rw [setting, fieldText]
    cases c.maxSteps <;> simp [Setting.Written, decimal]
  | maxCallDepth => exact rfl
  | maxPages => exact rfl
  | maxTableSize => exact rfl

/-- The text of a member as it is written. -/
def writtenMember (c : Config) (f : Field) : String := quote f.name ++ ":" ++ c.fieldText f

theorem memberForm_written (c : Config) (f : Field) :
    MemberForm (some (c.setting f)) (c.writtenMember f).toList := by
  have hField : (c.setting f).field = f := by cases f <;> rfl
  have hText : (c.writtenMember f).toList =
      memberText [] (f.name.toList.flatMap escapeChar) [] [] (c.fieldText f).toList [] := by
    simp [writtenMember, memberText, toList_quote]
  rw [hText]
  exact .known blank_nil (hField.symm ▸ stringForm_escape _) blank_nil blank_nil
    (written_fieldText c f) blank_nil

theorem membersForm_written (c : Config) (f : Field) (fields : List Field) :
    MembersForm ((f :: fields).map c.setting)
      (",".intercalate ((f :: fields).map c.writtenMember)).toList := by
  induction fields generalizing f with
  | nil => exact .one (memberForm_written c f)
  | cons g fields ih =>
    have hText : (",".intercalate ((f :: g :: fields).map c.writtenMember)).toList =
        (c.writtenMember f).toList ++
          ',' :: (",".intercalate ((g :: fields).map c.writtenMember)).toList := by
      simp [String.intercalate_cons_cons]
    rw [hText]
    exact .more (memberForm_written c f) (ih g)

/-- Settings are written as an object with all of them. -/
theorem objectForm_toJson (c : Config) : ObjectForm (Field.all.map c.setting) c.toJson.toList := by
  have hJson : c.toJson =
      "\x7b" ++ ",".intercalate (Field.all.map c.writtenMember) ++ "\x7d" := rfl
  have hText : c.toJson.toList = [] ++ '\x7b' ::
      (",".intercalate (Field.all.map c.writtenMember)).toList ++ '\x7d' :: [] := by
    simp [hJson]
  rw [hText]
  exact .members blank_nil (membersForm_written c .entry _) blank_nil

/-- Settings come back from their text. And from any object with some of the settings, in any order
and among unknown members, come the defaults with exactly these settings replaced. -/
theorem settings_read :
    (∀ c : Config, ofJson c.toJson = .ok c) ∧
    ∀ (settings : List Setting) (text : String), ObjectForm settings text.toList →
      (settings.map Setting.field).Nodup →
        ∃ c, ofJson text = .ok c ∧ (∀ s ∈ settings, c.setting s.field = s) ∧
          ∀ f, f ∉ settings.map Setting.field → c.setting f = ({} : Config).setting f := by
  refine ⟨fun c => ?_, fun settings text hText hOnce => ?_⟩
  · have hFields : (Field.all.map c.setting).map Setting.field = Field.all := rfl
    have hOnce : ((Field.all.map c.setting).map Setting.field).Nodup := by
      rw [hFields]
      decide
    exact ofJson_form (objectForm_toJson c) hOnce
  · exact ⟨_, ofJson_form hText hOnce, setting_foldl hOnce {}⟩

/-- An object with an unknown member, and with a character that is written as two code units. -/
def pairText : String :=
  "\x7b\"key\": [-1.5E+3, \x7b \x7d], \"entry\" :\"\\uD83d\\ude00\"\x7d"

theorem settings_read_pair :
    ∃ c, ofJson pairText = .ok c ∧ c.entry = "😀" ∧ c.maxSteps = none := by
  have hDigits {d : Char} (hDigit : d.isDigit = true) : Digits [d] :=
    ⟨List.cons_ne_nil d [], fun _ hMem => List.mem_singleton.1 hMem ▸ hDigit⟩
  have hNumber : NumberForm (['-'] ++ ['1'] ++ ['.', '5'] ++ ('E' :: ['+'] ++ ['3'])) :=
    .mk (.inr rfl) ⟨hDigits rfl, nofun⟩ (.some (hDigits rfl))
      (.some (.inr rfl) (.inr (.inl rfl)) (hDigits rfl))
  have hSpace : Blank [' '] := fun _ hMem => .inl (List.mem_singleton.1 hMem)
  have hValue := IsJson.bracket (.more (.element blank_nil (.number hNumber) blank_nil)
    (.element hSpace (.empty .object hSpace) blank_nil))
  have hLower {v : Nat} (hLess : v < 16) : HexDigit v.digitChar v := ⟨hLess, .inl rfl⟩
  have hUpper : HexDigit 'D' 13 := ⟨by decide, .inr (by decide)⟩
  have hFirst := Quad.spell hUpper (hLower (v := 8) (by decide)) (hLower (v := 3) (by decide))
    (hLower (v := 13) (by decide))
  have hSecond := Quad.spell (hLower (v := 13) (by decide)) (hLower (v := 14) (by decide))
    (hLower (v := 0) (by decide)) (hLower (v := 0) (by decide))
  have hEntry : (Setting.entry "😀").Written _ :=
    ⟨_, .cons (.pair (by decide) hFirst hSecond) .nil, rfl⟩
  have hKey (f : Field) : f.name ≠ "key" := by cases f <;> decide
  have hUnknown := MemberForm.unknown hKey blank_nil (stringForm_escape _) blank_nil hSpace hValue
    blank_nil
  have hKnown := MemberForm.known hSpace (stringForm_escape _) hSpace blank_nil hEntry blank_nil
  have hObject := ObjectForm.members blank_nil (.more hUnknown (.one hKnown)) blank_nil
  have hForm : ObjectForm [.entry "😀"] pairText.toList :=
    Eq.mpr (congrArg (ObjectForm _) (by decide +kernel)) hObject
  obtain ⟨c, hRead, hSet, hKept⟩ := settings_read.2 [.entry "😀"] pairText hForm (by decide)
  have hEntryRead : Setting.entry c.entry = .entry "😀" := hSet _ List.mem_cons_self
  have hStepsKept : Setting.maxSteps c.maxSteps = .maxSteps none := hKept .maxSteps (by decide)
  exact ⟨c, hRead, Setting.entry.inj hEntryRead, Setting.maxSteps.inj hStepsKept⟩

end WasmMachine.Config
