import Modula.Run

/-!
# The checker as a program

Reads the files of the command line, runs the checker on what was read, and ends with 0 when all
is well, 1 when something was reported, and 2 when the command line is in error.
-/

namespace Modula

/-- Why the system could not read a file. -/
def ReadFault.ofError : IO.Error → ReadFault
  | .noFileOrDirectory .. => .notFound
  | .permissionDenied .. => .denied
  | .invalidArgument .. => .invalidName
  | .inappropriateType _ code _ => if code = 20 then .notDirectory else .isDirectory
  | e => .device (toString e)

/-- The bytes of a file of the system. -/
def readSystemFile (path : String) : IO (Except ReadFault ByteArray) := do
  try
    return .ok (← IO.FS.readBinFile path)
  catch e =>
    return .error (.ofError e)

/-- Reads all files of a command line ahead. -/
def readSystemFiles (paths : List String) : IO FileReader := do
  let files ← paths.mapM fun path => do return (path, ← readSystemFile path)
  return fun path => (files.lookup path).getD (.error .notFound)

/-- Does what the arguments ask for. -/
def runArguments (arguments : List String) : IO UInt32 := do
  match CommandLine.read arguments with
  | .error .help =>
    IO.println CommandLine.usage
    return 0
  | .error e =>
    IO.eprintln ("error: " ++ e.message ++ "\n\n" ++ CommandLine.usage)
    return 2
  | .ok c =>
    let isTerminal ← (← IO.getStderr).isTty
    let report := c.run isTerminal (← readSystemFiles c.files)
    IO.print report.output
    IO.eprint report.log
    return if report.succeeded then 0 else 1

end Modula

/-- The program. -/
def main (arguments : List String) : IO UInt32 := Modula.runArguments arguments
