import WasmMachine.Module

/-!
# Module summaries

The text that describes a module on one line for each entry. Types, functions and, where there
are any, imports and exports have a heading with their number.
-/

namespace WasmMachine

/-- The text of an import. -/
def Import.text (i : Import) : String :=
  let origin := " <- " ++ i.module ++ "." ++ i.name
  match i.kind with
  | .function typeIndex => "func sig=" ++ toString typeIndex.toNat ++ origin
  | .table limits => "table " ++ limits.text ++ origin
  | .memory limits => "memory " ++ limits.text ++ origin
  | .global type => "global " ++ type.type.text ++ origin

/-- The text of what an export refers to. -/
def ExportTarget.text : ExportTarget → String
  | .function i => "func[" ++ toString i.toNat ++ "]"
  | .table i => "table[" ++ toString i.toNat ++ "]"
  | .memory i => "memory[" ++ toString i.toNat ++ "]"
  | .global i => "global[" ++ toString i.toNat ++ "]"

namespace Module

/-- A heading with a number of entries. -/
def heading (title : String) (count : Nat) : String := title ++ "[" ++ toString count ++ "]:"

/-- One line for each entry, from the entry and its place. -/
def entryLines {α : Type} (entries : Array α) (line : Nat → α → String) : List String :=
  entries.toList.mapIdx line

/-- A heading and one line for each entry, or nothing when there are no entries. -/
def listing {α : Type} (title : String) (entries : Array α) (line : α → String) : List String :=
  if entries.isEmpty then []
  else heading title entries.size :: entryLines entries fun _ e => line e

/-- The line of a defined function. -/
def functionLine (m : Module) (place : Nat) (typeIndex : UInt32) : String :=
  let index := m.importedFunctionCount + place
  let name :=
    match m.functionName? (UInt32.ofNat index) with
    | some name => " <" ++ name ++ ">"
    | none => ""
  let body :=
    match m.code[place]? with
    | some b => " locals=" ++ toString b.locals.size ++ " size=" ++ toString b.code.size
    | none => ""
  " - func[" ++ toString index ++ "] sig=" ++ toString typeIndex.toNat ++ name ++ body

/-- The line of a global. -/
def globalLine (place : Nat) (g : GlobalDecl) : String :=
  " - global[" ++ toString place ++ "] " ++ g.type.type.text ++ " mutable="
    ++ (if g.type.isMutable then "true" else "false") ++ " init=" ++ g.init.hex

/-- The line of an element segment. -/
def elementLine (place : Nat) (e : ElementSegment) : String :=
  " - elem[" ++ toString place ++ "] table=" ++ toString e.table.toNat ++ " init="
    ++ e.offset.hex ++ " count=" ++ toString e.functions.size

/-- The line of a data segment, which shows at most sixteen of its bytes. -/
def dataLine (place : Nat) (d : DataSegment) : String :=
  let preview : Bytes := d.bytes.take 16
  " - data[" ++ toString place ++ "] memory=" ++ toString d.memory.toNat ++ " init="
    ++ d.offset.hex ++ " size=" ++ toString d.bytes.size ++ " - " ++ preview.hex
    ++ (if preview.size < d.bytes.size then "..." else "")

/-- The lines of a summary. -/
def summaryLines (m : Module) : List String :=
  ["module '" ++ m.name ++ "' (version " ++ toString m.version.toNat ++ ")",
    heading "Type" m.types.size]
    ++ entryLines m.types (fun i t => " - type[" ++ toString i ++ "] " ++ t.text)
    ++ listing "Import" m.imports (fun i => " - " ++ i.text)
    ++ [heading "Function" m.functions.size]
    ++ entryLines m.functions m.functionLine
    ++ entryLines m.tables (fun i l => " - table[" ++ toString i ++ "] funcref " ++ l.text)
    ++ entryLines m.memories (fun i l => " - memory[" ++ toString i ++ "] pages: " ++ l.text)
    ++ entryLines m.globals globalLine
    ++ listing "Export" m.exports
        (fun e => " - " ++ e.target.text ++ " -> \"" ++ e.name ++ "\"")
    ++ (match m.start with
        | some start => ["Start: func[" ++ toString start.toNat ++ "]"]
        | none => [])
    ++ entryLines m.elements elementLine
    ++ entryLines m.data dataLine
    ++ entryLines m.custom
        (fun _ c => " - custom \"" ++ c.name ++ "\" size=" ++ toString c.bytes.size)

/-- The summary of a module; every line ends with a line break. -/
def summary (m : Module) : String := String.join (m.summaryLines.map (· ++ "\n"))

end Module

end WasmMachine
