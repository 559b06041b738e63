import DefiniteAssignment.CommandLine.Command
/-!
# The program

Reads the file that the arguments name, runs the command on its text, and writes what the command
leaves behind.
-/

open DefiniteAssignment.CommandLine

/-- Why the system could not read a file. -/
def readFailureOf : IO.Error → ReadFailure
  | .noFileOrDirectory .. => .notFound
  | .inappropriateType .. => .isDirectory
  | e => .other (toString e)

/-- Reads a file as text. -/
def readFile (path : String) : IO (Except ReadFailure String) := do
  try
    return readText (← IO.FS.readBinFile path)
  catch e =>
    return .error (readFailureOf e)

/-- Runs the command on the arguments of the program. -/
def main (arguments : List String) : IO UInt32 := do
  let content ←
    match Options.ofArguments arguments with
    | .ok options => readFile options.file
    | .error _ => pure (.error .notFound)
  let output := run arguments fun _ => content
  IO.print output.stdout
  IO.eprint output.stderr
  return output.status
