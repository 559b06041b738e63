import DefiniteAssignment.CommandLine.Options
import DefiniteAssignment.CommandLine.Source
import DefiniteAssignment.Text.Terminal
/-!
# The command

What the command writes and how it ends, given its arguments and a way to read files. Reports go to
the standard output, one for each function with empty lines between them; the log and the error that
ends the command go to the standard error.
-/

namespace DefiniteAssignment.CommandLine

/-- Why a file could not be read. -/
inductive ReadFailure where
  | notFound
  | notText
  | isDirectory
  /-- Any other reason, in the words of the system. -/
  | other (reason : String)
  deriving DecidableEq

/-- The error as it is shown to a user. -/
def ReadFailure.message : ReadFailure → String
  | notFound => "No such file or directory (os error 2)"
  | notText => "stream did not contain valid UTF-8"
  | isDirectory => "Is a directory (os error 21)"
  | other reason => reason

/-- The text of a file, given its bytes. -/
def readText (bytes : ByteArray) : Except ReadFailure String :=
  match String.fromUTF8? bytes with
  | some text => .ok text
  | none => .error .notText

/-- What the command leaves behind. -/
structure Output where
  status : UInt32
  stdout : String
  stderr : String
  deriving DecidableEq

/-- A text with the lines after its first set in by four spaces, empty ones too. -/
def hanging (text : String) : String :=
  String.ofList (text.toList.flatMap fun c => if c = '\n' then "\n    ".toList else [c])

/-- A record as it is written to the log. The level is padded to five characters, and a terminal
takes no orders from the log. -/
def logLine (r : Record) : String :=
  Text.Terminal.plain <|
    "[" ++ r.level.name.pushn ' ' (5 - r.level.name.length) ++ " " ++ r.topic.path ++ "] " ++
      hanging r.text ++ "\n"

/-- The error that ends the command: what was being done and, under it, what went wrong. -/
def errorText : List String → String
  | [] => ""
  | [message] => "Error: " ++ message ++ "\n"
  | message :: causes =>
    "Error: " ++ message ++ "\n\nCaused by:\n" ++
      String.join (causes.map fun cause => "    " ++ cause ++ "\n")

/-- The reports of functions, with empty lines between them. The first error ends them; what was
written before it stays. -/
def reports (config : Config) (style : ReportStyle) (written : String) :
    List Function → Logged (String × Except ReportError Unit)
  | [] => return (written, .ok ())
  | f :: later => do
    -- The empty line is written before it is known whether there is a report to follow.
    let written := if written.isEmpty then written else written ++ "\n"
    match ← f.report config style with
    | .error e => return (written, .error e)
    | .ok text => reports config style (written ++ text) later

/-- Reads the file and writes the reports: the text written, and the chain of errors if one ended
it. -/
def analyse (options : Options) (read : String → Except ReadFailure String) :
    Logged (String × List String) := do
  match read options.file with
  | .error e => return ("", ["reading " ++ options.file, e.message])
  | .ok text =>
    match Module.load text with
    | .error e => return ("", ["parsing " ++ options.file, e.toString])
    | .ok m =>
      match m.select options.function with
      | .error e => return ("", [e.message])
      | .ok functions =>
        Logged.note .debug .command
          ("analysing " ++ toString functions.length ++ " function(s) from " ++ options.file)
        match ← reports options.config options.style "" functions with
        | (written, .ok ()) => return (written, [])
        | (written, .error e) => return (written, e.chain)

/-- Runs the command. -/
def run (arguments : List String) (read : String → Except ReadFailure String) : Output :=
  match Options.ofArguments arguments with
  | .error early =>
    if early.isOk then ⟨0, early.message ++ "\n", ""⟩
    else ⟨1, "", early.message ++ "\nRun gdef --help for more information.\n"⟩
  | .ok options =>
    let result := analyse options read
    let log :=
      match options.verbosity with
      | some limit => String.join ((result.log limit).map logLine)
      | none => ""
    ⟨if result.value.2.isEmpty then 0 else 1, result.value.1, log ++ errorText result.value.2⟩

end DefiniteAssignment.CommandLine
