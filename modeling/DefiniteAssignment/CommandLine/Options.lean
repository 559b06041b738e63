import DefiniteAssignment.Config
import DefiniteAssignment.Guarantee.Report
import DefiniteAssignment.Log
/-!
# Command-line options

The arguments of the command are read from left to right, and the first thing that is wrong with
them is reported. Options may stand anywhere among the arguments; `--` ends them. The word `help`
asks for help like the option does, as long as options may come.
-/

namespace DefiniteAssignment.CommandLine

/-- What the command is asked to do. -/
structure Options where
  file : String
  function : Option String
  config : Config
  compact : Bool
  /-- The least grave level that is logged; `none` if nothing is. -/
  verbosity : Option Level
  deriving DecidableEq

/-- The layout of the report that is asked for. -/
def Options.style (o : Options) : ReportStyle :=
  if o.compact then .compact else .full

/-- The options that take a value. -/
inductive ValuedOption where
  | function | dominators | unreachable | maxIterations | logLevel
  deriving DecidableEq, Repr

/-- What is wrong with the value of an option. -/
inductive ValueError where
  | duplicate
  | unknownName (cause : UnknownName)
  | emptyNumber
  | invalidDigit
  | numberTooLarge
  | unknownLevel
  deriving DecidableEq

/-- What is wrong with the arguments. -/
inductive UsageError where
  | unrecognized (argument : String)
  | argumentAfterHelp
  | noValue (option : String)
  | badValue (option value : String) (cause : ValueError)
  | missingFile
  deriving DecidableEq

/-- Why the command ends before it has done anything: help was asked for, or the arguments are
wrong. -/
inductive EarlyExit where
  | help
  | usage (cause : UsageError)
  deriving DecidableEq

/-- The error as it is shown to a user. -/
def ValueError.message : ValueError → String
  | duplicate => "duplicate values provided"
  | unknownName cause => cause.message
  | emptyNumber => "cannot parse integer from empty string"
  | invalidDigit => "invalid digit found in string"
  | numberTooLarge => "number too large to fit in target type"
  | unknownLevel => "attempted to convert a string that doesn't match an existing log level"

/-- The error as it is shown to a user. -/
def UsageError.message : UsageError → String
  | unrecognized argument => "Unrecognized argument: " ++ argument ++ "\n"
  | argumentAfterHelp => "Trailing arguments are not allowed after `help`."
  | noValue option => "No value provided for option '" ++ option ++ "'.\n"
  | badValue option value cause =>
    "Error parsing option '" ++ option ++ "' with value '" ++ value ++ "': " ++ cause.message ++
      "\n"
  | missingFile => "Required positional arguments not provided:\n    file\n"

/-- The help text. -/
def helpText : String :=
  "Usage: gdef [-f <function>] [--dominators <dominators>] [--unreachable <unreachable>] " ++
  "[--max-iterations <max-iterations>] [--compact] [--log-level <log-level>] [--] <file>\n" ++
  "\n" ++
  "Print the variables guaranteed to be defined before every instruction.\n" ++
  "\n" ++
  "Positional Arguments:\n" ++
  "  file              input .gdef file (a module or a single function)\n" ++
  "\n" ++
  "Options:\n" ++
  "  -f, --function    function to analyse (default: the module entry, else every\n" ++
  "                    function)\n" ++
  "  --dominators      dominator algorithm: iterative or cooper\n" ++
  "  --unreachable     how to report unreachable instructions: exclude or top\n" ++
  "  --max-iterations  worklist steps allowed before giving up\n" ++
  "  --compact         one line per instruction instead of the full report\n" ++
  "  --log-level       log level (error, warn, info, debug, trace)\n" ++
  "  --help, help      display usage information\n"

namespace EarlyExit

/-- Whether the command ends well. -/
def isOk : EarlyExit → Bool
  | help => true
  | usage _ => false

/-- What the command says when it ends early. -/
def message : EarlyExit → String
  | help => helpText
  | usage cause => cause.message

end EarlyExit

/-- The option that a word stands for. -/
def ValuedOption.ofWord? (word : String) : Option ValuedOption :=
  if word = "-f" || word = "--function" then some function
  else if word = "--dominators" then some dominators
  else if word = "--unreachable" then some unreachable
  else if word = "--max-iterations" then some maxIterations
  else if word = "--log-level" then some logLevel
  else none

/-- The value of a numeral so far, with one more digit; it has to stay below `2 ^ 64`. -/
def addDigit (value : Nat) (c : Char) : Except ValueError Nat :=
  if !c.isDigit then .error .invalidDigit
  else
    let value := Nat.ofDigitChars 10 [c] value
    if value < UInt64.size then .ok value else .error .numberTooLarge

/-- Reads a number below `2 ^ 64`. A plus sign may stand in front of it, but not alone. -/
def readCount (text : String) : Except ValueError Nat :=
  match text.toList with
  | [] => .error .emptyNumber
  | ['+'] => .error .invalidDigit
  | '+' :: digits => digits.foldlM addDigit 0
  | digits => digits.foldlM addDigit 0

/-- Reads the name of a level in letters of either case; `off` is no level. -/
def readVerbosity (text : String) : Except ValueError (Option Level) :=
  let name := text.toUpper
  if name = "OFF" then .ok none
  else
    match [Level.error, .warn, .info, .debug, .trace].find? (·.name == name) with
    | some level => .ok (some level)
    | none => .error .unknownLevel

/-- The arguments as far as they have been read. -/
structure Arguments where
  help : Bool := false
  /-- Whether `--` has come. -/
  optionsOver : Bool := false
  file : Option String := none
  function : Option String := none
  dominators : Option DominatorAlgorithm := none
  unreachable : Option UnreachablePolicy := none
  maxIterations : Option Nat := none
  verbosity : Option (Option Level) := none
  compact : Bool := false

namespace Arguments

/-- Takes the value of an option that has none yet. -/
def once {α : Type} (old : Option α) (value : Except ValueError α) : Except ValueError (Option α) :=
  if old.isSome then .error .duplicate else value.map some

/-- Gives an option its value. -/
def set (a : Arguments) (option : ValuedOption) (value : String) : Except ValueError Arguments := do
  match option with
  | .function => return { a with function := ← once a.function (.ok value) }
  | .dominators =>
    let read := (DominatorAlgorithm.ofName value).mapError ValueError.unknownName
    return { a with dominators := ← once a.dominators read }
  | .unreachable =>
    let read := (UnreachablePolicy.ofName value).mapError ValueError.unknownName
    return { a with unreachable := ← once a.unreachable read }
  | .maxIterations => return { a with maxIterations := ← once a.maxIterations (readCount value) }
  | .logLevel => return { a with verbosity := ← once a.verbosity (readVerbosity value) }

/-- Reads the arguments one after the other. -/
def read (a : Arguments) : List String → Except UsageError Arguments
  | [] => .ok a
  | word :: later =>
    if !a.optionsOver && (word = "--help" || word = "help") then
      read { a with help := true } later
    else if !a.optionsOver && word.toList.head? = some '-' then
      -- The end of the options may come after help was asked for; nothing else may.
      if word = "--" then read { a with optionsOver := true } later
      else if a.help then .error .argumentAfterHelp
      else if word = "--compact" then read { a with compact := true } later
      else
        match ValuedOption.ofWord? word, later with
        | none, _ => .error (.unrecognized word)
        | some _, [] => .error (.noValue word)
        -- The next argument is the value, even if it looks like an option.
        | some option, value :: later =>
          match a.set option value with
          | .ok a => read a later
          | .error cause => .error (.badValue word value cause)
    else
      match a.file with
      | none => read { a with file := some word } later
      | some _ => .error (.unrecognized word)

/-- What the arguments ask for, with defaults for what they leave out. -/
def toOptions (a : Arguments) : Except EarlyExit Options :=
  if a.help then .error .help
  else
    match a.file with
    | none => .error (.usage .missingFile)
    | some file =>
      let default : Config := {}
      .ok
        { file
          function := a.function
          config :=
            { maxIterations := a.maxIterations.getD default.maxIterations
              unreachable := a.unreachable.getD default.unreachable
              dominators := a.dominators.getD default.dominators }
          compact := a.compact
          verbosity := a.verbosity.getD (some .warn) }

end Arguments

/-- Reads the arguments of the command. -/
def Options.ofArguments (arguments : List String) : Except EarlyExit Options := do
  let read ← (Arguments.read {} arguments).mapError EarlyExit.usage
  read.toOptions

end DefiniteAssignment.CommandLine
