import WasmMachine.Cli

/-!
# The program

Reads the files that the command line names, runs it and prints what it gives.
-/

namespace WasmMachine.Cli

/-- The number of an operating system error; some calls report it negated. -/
def errorNumber (code : UInt32) : UInt32 := min code (0 - code)

/-- What an operating system error means for a file. -/
def fileError : IO.Error → FileError
  | .noFileOrDirectory .. => .notFound
  | .noSuchThing .. => .notFound
  | .inappropriateType _ code _ =>
    if errorNumber code = 20 then .notDirectory else .isDirectory
  | .invalidArgument _ code details =>
    if errorNumber code = 36 then .nameTooLong else .other details
  | e => .other (toString e)

/-- Reads a file. -/
def readPath (path : String) : IO (Except FileError Bytes) := do
  try
    return .ok (← IO.FS.readBinFile path).data
  catch e =>
    return .error (fileError e)

end WasmMachine.Cli

open WasmMachine

/-- Runs the command line. -/
def main (arguments : List String) : IO UInt32 := do
  let contents ← (Cli.neededPaths arguments).mapM fun path => do
    return (path, ← Cli.readPath path)
  let files : Files := fun path => (contents.lookup path).getD (.error .notFound)
  let output := Cli.program arguments files
  (← IO.getStdout).putStr output.stdout
  (← IO.getStderr).putStr output.stderr
  return UInt32.ofNat output.exit
