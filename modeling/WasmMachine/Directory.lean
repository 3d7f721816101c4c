import WasmMachine.Binary.Loader
import WasmMachine.Config.Json
import WasmMachine.Report

/-!
# Files

Modules and settings are read from files. What a path leads to is a function `Files`, so that
everything after the reading itself is a plain function of it. The name of a module is the last
part of its path without the extension.

A path is walked part by part from the working directory, or from the root if it starts with a
slash (`Place.walk`). The first part that leads nowhere decides what is wrong with the path.
-/

namespace WasmMachine

/-- Why a file cannot be read. -/
inductive FileError where
  | notFound
  | notDirectory
  | isDirectory
  /-- A part of the path, or the path as a whole, is too long. -/
  | nameTooLong
  /-- The path has a character that ends every path. -/
  | containsNul
  | other (message : String)
  deriving DecidableEq, Repr

/-- The wording of a file error. -/
def FileError.message : FileError → String
  | .notFound => "No such file or directory (os error 2)"
  | .notDirectory => "Not a directory (os error 20)"
  | .isDirectory => "Is a directory (os error 21)"
  | .nameTooLong => "File name too long (os error 36)"
  | .containsNul => "file name contained an unexpected NUL byte"
  | .other message => message

/-- What reading the file of a path gives. -/
abbrev Files := String → Except FileError Bytes

/-! ## Paths -/

/-- The parts of a path between its slashes. -/
def pathParts (path : String) : List String := path.splitOn "/"

/-- The parts of a path that name something, without the empty ones and the dots. -/
def pathNames (path : String) : List String :=
  (pathParts path).filter fun part => part ≠ "" ∧ part ≠ "."

/-- A name without its extension, the part from the last dot on. A dot at the very start begins no
extension. -/
def stem (name : String) : String :=
  let reversed := name.toList.reverse
  match reversed.dropWhile (· ≠ '.') with
  | [] => name
  | _ :: before => if before.isEmpty then name else String.ofList before.reverse

/-- The name of the module in the file of a path. -/
def moduleName (path : String) : String :=
  match (pathNames path).getLast? with
  | some last => if last = ".." then "" else stem last
  | none => ""

/-- The greatest length of a part of a path, in bytes. -/
def maxNameLength : Nat := 255

/-- The length, in bytes, from which on a path is too long. -/
def pathLengthBound : Nat := 4096

/-! ## Directories -/

/-- A file or a directory with what it holds. -/
inductive Node where
  | file (contents : Bytes)
  | directory (members : List (String × Node))

/-- A file or directory together with the directories that it lies in, innermost first. -/
structure Place where
  node : Node
  above : List Node

namespace Place

/-- The directory above a place; above the root is the root itself. -/
def parent (p : Place) : Place :=
  match p.above with
  | [] => p
  | node :: above => ⟨node, above⟩

/-- Goes where one part of a path leads. Only from a directory does anything lead on; an empty part
or a dot leads back to it. -/
def enter (p : Place) (part : String) : Except FileError Place :=
  match p.node with
  | .file _ => .error .notDirectory
  | .directory members =>
    if part = "" ∨ part = "." then .ok p
    else if part = ".." then .ok p.parent
    else if maxNameLength < part.utf8ByteSize then .error .nameTooLong
    else
      match members.lookup part with
      | none => .error .notFound
      | some node => .ok ⟨node, p.node :: p.above⟩

/-- Goes where the parts of a path lead. -/
def walk (p : Place) : List String → Except FileError Place
  | [] => .ok p
  | part :: rest =>
    match p.enter part with
    | .error e => .error e
    | .ok next => next.walk rest

/-- The contents of a place that is a file. -/
def contents (p : Place) : Except FileError Bytes :=
  match p.node with
  | .file bytes => .ok bytes
  | .directory _ => .error .isDirectory

end Place

/-- Reads the file of a path, given the root and the working directory. -/
def readFrom (root work : Place) : Files := fun path =>
  if path.toList.contains (Char.ofNat 0) then .error .containsNul
  else if pathLengthBound ≤ path.utf8ByteSize then .error .nameTooLong
  else if path = "" then .error .notFound
  else
    let start := if path.startsWith "/" then root else work
    (start.walk (pathParts path)).bind Place.contents

/-! ## A working directory of files -/

/-- A directory of files. -/
abbrev Directory := List (String × Bytes)

/-- The directories that every system has below its root. -/
def systemDirectories : List String :=
  ["bin", "dev", "etc", "home", "lib", "media", "mnt", "opt", "proc", "root", "run", "sbin", "srv",
    "sys", "tmp", "usr", "var"]

/-- The root of a system that holds nothing but its standard directories and the empty device. -/
def systemRoot : Node :=
  .directory (systemDirectories.map fun name =>
    (name, .directory (if name = "dev" then [("null", .file #[])] else [])))

/-- Reads the file of a path that starts in a directory of files. The directory lies among the
temporary files of a system. -/
def Directory.read (d : Directory) : Files :=
  let work := Node.directory (d.map fun (name, bytes) => (name, .file bytes))
  readFrom ⟨systemRoot, []⟩ ⟨work, [.directory [], systemRoot]⟩

/-! ## Modules and settings from files -/

/-- The error of a file that cannot be used. -/
def pathError (path reason : String) : LoadError := ⟨.invalidInputPath path reason, 0⟩

/-- Loads the module in a file. -/
def loadFile (files : Files) (path : String) (journal : Journal) :
    Except LoadError Module × Journal :=
  match files path with
  | .error e => (.error (pathError path e.message), journal)
  | .ok bytes => Module.loadRecorded (moduleName path) bytes journal

/-- Loads the module in a file and executes its entry function. -/
def runFile (files : Files) (path : String) (config : Config) (journal : Journal) :
    Verdict × Journal :=
  match loadFile files path journal with
  | (.error e, journal) => (.failed (.load e), journal)
  | (.ok m, journal) => runModule m config journal

/-- The wording of a JSON error in a report. -/
def Json.Error.message : Json.Error → String
  | .malformed => "malformed JSON"
  | .truncated => "unexpected end of JSON text"
  | .shape => "JSON text of an unexpected shape"

/-- Reads the settings in a file. -/
def loadConfig (files : Files) (path : String) : Except LoadError Config :=
  match files path with
  | .error e => .error (pathError path e.message)
  | .ok bytes =>
    match String.fromUTF8? ⟨bytes⟩ with
    | none => .error (pathError path "stream did not contain valid UTF-8")
    | some text =>
      match Config.ofJson text with
      | .ok config => .ok config
      | .error e => .error (pathError path e.message)

end WasmMachine
