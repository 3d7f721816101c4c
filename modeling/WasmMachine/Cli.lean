import WasmMachine.Directory
import WasmMachine.Module.Summary
import WasmMachine.Value.Text

/-!
# The command line

`Request.parse` reads the arguments of the program, `Options.run` does what they ask for. Options
and positional arguments may be mixed; an option takes its value from behind an equals sign or
from the next argument, which must not look like an option. Nothing may be given twice. After a
lone `--` all arguments are positional.

The first positional argument is the path of a module, the others are arguments of the entry
function.
-/

namespace WasmMachine.Cli

/-- What the program is asked to do. -/
structure Options where
  file : String
  arguments : List Value
  entry : Option String
  config : Option String
  debug : Bool
  trace : Bool
  maxSteps : Option UInt64
  deriving DecidableEq, Repr

/-- A valid command line. -/
inductive Request where
  | run (o : Options)
  | help
  | version
  deriving DecidableEq, Repr

/-- Why a command line is refused. -/
inductive UsageError where
  | missingFile
  | unknownOption (name : String)
  | missingValue (name : String)
  | unexpectedValue (name : String)
  | repeated (name : String)
  | badValue (text : String)
  deriving DecidableEq, Repr

/-- The wording of a usage error. -/
def UsageError.message : UsageError → String
  | .missingFile => "a module file is required"
  | .unknownOption name => "unknown option '" ++ name ++ "'"
  | .missingValue name => "option '" ++ name ++ "' requires a value"
  | .unexpectedValue name => "option '" ++ name ++ "' takes no value"
  | .repeated name => "option '" ++ name ++ "' was given twice"
  | .badValue text => "invalid value '" ++ text ++ "'"

/-! ## Reading arguments -/

/-- What has been read of a command line. -/
structure Draft where
  file : Option String := none
  arguments : Array Value := #[]
  entry : Option String := none
  config : Option String := none
  debug : Bool := false
  trace : Bool := false
  maxSteps : Option UInt64 := none
  deriving DecidableEq, Repr

/-- The options that take a value. -/
inductive ValueOption where
  | entry
  | config
  | maxSteps
  deriving DecidableEq, Repr

/-- The option that takes a value under a name. -/
def ValueOption.ofName? (name : String) : Option ValueOption :=
  if name = "--entry" then some .entry
  else if name = "--config" then some .config
  else if name = "--max-steps" then some .maxSteps
  else none

namespace Draft

/-- Adds a positional argument. -/
def positional (d : Draft) (text : String) : Except UsageError Draft :=
  match d.file with
  | none => if text = "" then .error (.badValue text) else .ok { d with file := some text }
  | some _ =>
    match Value.parse text with
    | .ok v => .ok { d with arguments := d.arguments.push v }
    | .error _ => .error (.badValue text)

/-- Adds positional arguments. -/
def positionals (d : Draft) (texts : List String) : Except UsageError Draft :=
  texts.foldlM positional d

/-- Sets an option that takes a value. -/
def set (d : Draft) (name value : String) : ValueOption → Except UsageError Draft
  | .entry =>
    if d.entry.isSome then .error (.repeated name) else .ok { d with entry := some value }
  | .config =>
    if d.config.isSome then .error (.repeated name)
    else if value = "" then .error (.badValue value)
    else .ok { d with config := some value }
  | .maxSteps =>
    if d.maxSteps.isSome then .error (.repeated name)
    else
      match parseUnsigned 64 value.toList with
      | .ok n => .ok { d with maxSteps := some (UInt64.ofNat n) }
      | .error _ => .error (.badValue value)

/-- The options that a draft stands for. -/
def finish (d : Draft) : Except UsageError Request :=
  match d.file with
  | none => .error .missingFile
  | some file =>
    .ok (.run {
      file
      arguments := d.arguments.toList
      entry := d.entry
      config := d.config
      debug := d.debug
      trace := d.trace
      maxSteps := d.maxSteps })

end Draft

/-- Whether an argument looks like an option. -/
def looksLikeOption (text : String) : Bool :=
  match text.toList with
  | '-' :: _ :: _ => true
  | _ => false

/-- What a one-letter option asks for; what stands behind the letter does not matter. -/
def shortRequest? (text : String) : Option Request :=
  match text.toList with
  | '-' :: 'h' :: _ => some .help
  | '-' :: 'V' :: _ => some .version
  | _ => none

/-- Splits an option at its first equals sign. -/
def splitOption (text : String) : String × Option String :=
  let chars := text.toList
  let name := String.ofList (chars.takeWhile (· ≠ '='))
  match chars.dropWhile (· ≠ '=') with
  | [] => (name, none)
  | _ :: value => (name, some (String.ofList value))

/-- Reads a command line after what has been read before. -/
def parseFrom : List String → Draft → Except UsageError Request
  | [], d => d.finish
  | text :: rest, d =>
    if text = "--" then (d.positionals rest).bind Draft.finish
    else if !looksLikeOption text then (d.positional text).bind (parseFrom rest)
    else if let some request := shortRequest? text then .ok request
    else
      let (name, attached) := splitOption text
      match ValueOption.ofName? name, attached with
      | some o, some value => (d.set name value o).bind (parseFrom rest)
      | some o, none =>
        match rest with
        | [] => .error (.missingValue name)
        | value :: rest =>
          if looksLikeOption value then .error (.missingValue name)
          else (d.set name value o).bind (parseFrom rest)
      | none, some _ =>
        if name = "--debug" ∨ name = "--trace" then .error (.unexpectedValue name)
        else .error (.unknownOption name)
      | none, none =>
        if name = "--debug" then
          if d.debug then .error (.repeated name) else parseFrom rest { d with debug := true }
        else if name = "--trace" then
          if d.trace then .error (.repeated name) else parseFrom rest { d with trace := true }
        else if name = "--help" then .ok .help
        else if name = "--version" then .ok .version
        else .error (.unknownOption name)

/-- Reads a command line. -/
def Request.parse (arguments : List String) : Except UsageError Request := parseFrom arguments {}

/-! ## Running -/

/-- What the program prints, and its exit code. -/
structure Output where
  exit : Nat := 0
  stdout : String := ""
  stderr : String := ""
  deriving DecidableEq, Repr

namespace Options

/-- How much the journal records. -/
def level (o : Options) : Level :=
  if o.trace then .trace else if o.debug then .debug else .info

/-- The settings: those of the file, overridden by the options. -/
def settings (o : Options) (files : Files) : Except LoadError Config := do
  let base ←
    match o.config with
    | some path => loadConfig files path
    | none => pure {}
  return { base with
    entry := o.entry.getD base.entry
    maxSteps := o.maxSteps.or base.maxSteps
    debug := base.debug || o.debug }

end Options

/-- The line of an event. -/
def eventLine (e : Event) : String := "[wvm " ++ e.level.text ++ "] " ++ e.text ++ "\n"

/-- The lines of a journal. -/
def journalLines (j : Journal) : String := String.join (j.events.toList.map eventLine)

/-- A message of the program itself. -/
def infoLine (text : String) : String := "[wvm] " ++ text ++ "\n"

/-- The output of a run that failed. -/
def failure (stdout : String) (j : Journal) (f : Failure) : Output :=
  { exit := 1, stdout, stderr := journalLines j ++ f.report ++ "\n" }

/-- The output of a run that gave values: a single value is printed. -/
def success (stdout : String) (config : Config) (session : Session) (values : Array Value) :
    Output :=
  let details :=
    if config.debug then
      infoLine (toString session.machine.steps ++ " instructions, "
        ++ toString session.machine.immediates.hits ++ " immediate cache hits")
        ++ infoLine ("final stack: " ++ Value.preciseList values.toList)
    else ""
  let result :=
    match values.toList with
    | [v] => v.display ++ "\n"
    | _ => ""
  { stdout := stdout ++ result, stderr := journalLines session.journal ++ details }

/-- Calls the entry function of a session with the arguments. -/
def runSession (o : Options) (config : Config) (stdout : String) (session : Session) : Output :=
  match session.program.entry with
  | none => failure stdout session.journal (.fault ⟨.entryNotFound config.entry, none⟩)
  | some entry =>
    let session := { session with journal := session.journal.note (.entryFound config.entry entry) }
    match session.invoke ampleFuel entry o.arguments with
    | (.values values, session) => success stdout config session values
    | (.failed f, session) => failure stdout session.journal (.fault f)
    | (.outOfFuel, session) =>
      { exit := 1, stdout, stderr := journalLines session.journal }

/-- Does what the options ask for, with the given files. -/
def Options.run (o : Options) (files : Files) : Output :=
  match o.settings files with
  | .error e => failure "" {} (.load e)
  | .ok config =>
    match loadFile files o.file { level := o.level } with
    | (.error e, journal) => failure "" journal (.load e)
    | (.ok m, journal) =>
      let stdout := if config.debug then m.summary else ""
      match openSession m config journal with
      | (.error e, journal) => failure stdout journal e
      | (.ok session, _) => runSession o config stdout session

/-- How the program is called. -/
def usage : String := "Usage: wvm [OPTIONS] <FILE> [ARGS]...\n"

/-- The help text. -/
def help : String :=
  String.join [
    "WebAssembly MVP virtual machine\n\n",
    usage,
    "\nArguments:\n",
    "  <FILE>     Path to a .wasm binary\n",
    "  [ARGS]...  Arguments for the entry function, as <type>:<value> (e.g. i32:5)\n",
    "\nOptions:\n",
    "      --entry <ENTRY>          Export name of the entry function\n",
    "      --config <CONFIG>        JSON file with runtime settings\n",
    "      --debug                  Print the module summary and the final stack\n",
    "      --trace                  Log every dispatched instruction\n",
    "      --max-steps <MAX_STEPS>  Trap after this many instructions\n",
    "  -h, --help                   Print help\n",
    "  -V, --version                Print version\n"]

/-- The program: what it prints for its arguments and files. -/
def program (arguments : List String) (files : Files) : Output :=
  match Request.parse arguments with
  | .error e => { exit := 2, stderr := "error: " ++ e.message ++ "\n\n" ++ usage }
  | .ok .help => { stdout := help }
  | .ok .version => { stdout := "wvm 0.0.1\n" }
  | .ok (.run o) => o.run files

/-- The paths that the program reads for its arguments, in order. -/
def neededPaths (arguments : List String) : List String :=
  match Request.parse arguments with
  | .ok (.run o) => o.config.toList ++ [o.file]
  | _ => []

end WasmMachine.Cli
