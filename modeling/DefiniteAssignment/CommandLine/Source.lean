import DefiniteAssignment.Grammar.Parse
import DefiniteAssignment.Graph.OfFunction
import DefiniteAssignment.Guarantee.Report
/-!
# Source texts

What the command does with a source text: it reads a module, or a single function that then stands
for a module with that entry; it picks the functions to look at; and it analyses each of them.

Which of the two a text is meant to be is told by its first line that is neither blank nor a
comment.
-/

namespace DefiniteAssignment

/-- Why no function could be picked. -/
inductive SelectionError where
  /-- The module has no function of the name that was asked for. -/
  | unknownFunction (name : String) (available : List String)
  /-- The module has no functions. -/
  | emptyModule
  deriving DecidableEq

/-- The error as it is shown to a user. -/
def SelectionError.message : SelectionError → String
  | unknownFunction name available =>
    "no function %" ++ name ++ " in module (available: " ++ ", ".intercalate available ++ ")"
  | emptyModule => "module has no functions"

/-- Why a function has no report. -/
inductive ReportError where
  | building (function : String) (cause : GraphError)
  | analysing (function : String) (cause : AnalysisError)
  deriving DecidableEq

/-- What was being done, and what went wrong with it. -/
def ReportError.chain : ReportError → List String
  | building function cause =>
    ["building control flow graph for %" ++ function, cause.message]
  | analysing function cause => ["analysing %" ++ function, cause.message]

/-- The first line of a text that is neither blank nor a comment, without white space around it. -/
def firstLine? (text : String) : Option (List Char) :=
  ((Text.lines text.toList).map Text.trim).find? fun line =>
    !line.isEmpty && line.head? != some ';'

/-- Whether a text is meant to be a module. -/
def isModuleText (text : String) : Bool :=
  (firstLine? text).any ("module".toList.isPrefixOf ·)

namespace Module

/-- The module of a single function, which is its entry. -/
def ofFunction (f : Function) : Module :=
  { empty.add f with entry := some f.name }

/-- Reads a module or a single function. -/
def load (text : String) : Except ParseError Module :=
  if isModuleText text then parse text else (Function.parse text).map ofFunction

/-- The functions to look at: the one that is named, else the entry, else all in the order of their
names. -/
def select (m : Module) (name : Option String) : Except SelectionError (List Function) :=
  match name with
  | some name =>
    match m.find? name with
    | some f => .ok [f]
    | none => .error (.unknownFunction name m.functions.names)
  | none =>
    match m.entryFunction? with
    | some f => .ok [f]
    | none =>
      if m.functions.values.isEmpty then .error .emptyModule else .ok m.functions.values

end Module

/-- The report of a function under its name, with the log of its analysis. -/
def Function.report (f : Function) (config : Config) (style : ReportStyle) :
    Logged (Except ReportError String) := do
  match Graph.ofFunction f with
  | .error e => return .error (.building f.name e)
  | .ok g =>
    match ← Guarantees.compute g config with
    | .error e => return .error (.analysing f.name e)
    | .ok r =>
      Logged.note .info .report
        ("%" ++ f.name ++ ": " ++ toString g.size ++ " instructions, " ++
          toString r.locals.length ++ " variables, " ++ toString r.steps ++ " steps")
      return .ok ("function %" ++ f.name ++ ":\n" ++ Report.render g r style)

end DefiniteAssignment
