import DefiniteAssignment.Expectation.Explanation
import DefiniteAssignment.Grammar.Parse
import DefiniteAssignment.Graph.Dump
import DefiniteAssignment.Graph.OfFunction
import DefiniteAssignment.TestFile.Case
/-!
# Running test files

Three commands are known: `print-cfg` compares the dump of a graph, `domtree` the dump of its
dominators, which both algorithms have to agree on, and `guaranteed-defs` the report. What is
expected is given by directives; for `print-cfg` it may also be the whole dump.
-/

namespace DefiniteAssignment

/-- What a test compares. -/
inductive TestKind where
  | printCfg
  | domtree
  | guaranteedDefs
  deriving DecidableEq, Repr

/-- Why a test failed. -/
inductive TestFailure where
  | unknownCommand (name : String)
  | noDirectives (kind : TestKind)
  | badValue (cause : UnknownName)
  | unknownOption (key : String)
  | parsing (cause : ParseError)
  | building (cause : GraphError)
  | analysing (cause : AnalysisError)
  | dominators (algorithm : DominatorAlgorithm) (cause : AnalysisError)
  | disagreement (iterative cooper : String)
  | mismatch (kind : TestKind) (cause : Expectation.Mismatch) (actual : String)
  | otherDump (actual : String)
  deriving DecidableEq

/-- How a test of a kind is called at the beginning of a sentence. -/
def TestKind.title : TestKind → String
  | printCfg => "Print-cfg"
  | domtree => "Domtree"
  | guaranteedDefs => "Guaranteed-defs"

namespace TestFailure

/-- Sections with a heading each, set off by empty lines. -/
def withSections (first : String) (sections : List (String × String)) : String :=
  first ++ String.join (sections.map fun (heading, text) => "\n\n" ++ heading ++ ":\n" ++ text)

/-- The failure of a case as it is shown to a user. -/
def message (c : TestCase) : TestFailure → String
  | unknownCommand name => "Unknown test command '" ++ name ++ "'"
  | noDirectives kind =>
    withSections (kind.title ++ " test has no check directives") [("Function", c.functionText)]
  | badValue cause => cause.message
  | unknownOption key => "Unknown option '" ++ key ++ "' in '" ++ c.command ++ "'"
  | parsing cause => "Failed to parse function: " ++ cause.toString ++ "\n\n" ++ c.functionText
  | building cause => "Failed to build CFG: " ++ cause.message ++ "\n\n" ++ c.functionText
  | analysing cause => "Analysis failed: " ++ cause.message ++ "\n\n" ++ c.functionText
  | dominators algorithm cause =>
    "Dominators (" ++ algorithm.name ++ ") failed: " ++ cause.message
  | disagreement iterative cooper =>
    withSections ("Dominator algorithms disagree\n\niterative:\n" ++ iterative)
      [("cooper", cooper), ("Function", c.functionText)]
  | mismatch kind cause actual =>
    withSections (kind.title ++ " test failed (filecheck): " ++ cause.message) <|
      (if kind = .printCfg then [] else [("Expected", c.expected)]) ++
        [("Actual", actual), ("Function", c.functionText)]
  | otherDump actual =>
    withSections "Print-cfg test failed!"
      [("Expected", c.expected), ("Actual", actual), ("Function", c.functionText)]

end TestFailure

namespace TestCase

/-- The graph of the function of a case. -/
def graph (c : TestCase) : Except TestFailure Graph := do
  let text := String.ofList (Text.trim c.functionText.toList)
  let f ← (Function.parse text).mapError TestFailure.parsing
  (Graph.ofFunction f).mapError TestFailure.building

/-- Holds a text to what is expected of it by directives. -/
def compare (c : TestCase) (kind : TestKind) (actual : String) : Except TestFailure Unit :=
  (Expectation.meets actual c.expected).mapError fun cause => .mismatch kind cause actual

/-- Compares the dump of the graph, by directives or as a whole. -/
def runPrintCfg (c : TestCase) : Except TestFailure Unit := do
  let actual := "\n".intercalate (← c.graph).dump
  if Expectation.hasDirectives c.expected then c.compare .printCfg actual
  else if Text.normalizedLines actual.toList = Text.normalizedLines c.expected.toList then
    return ()
  else throw (.otherDump actual)

/-- The dump of the dominators that an algorithm finds. -/
def dominatorDump (g : Graph) (algorithm : DominatorAlgorithm) :
    Logged (Except TestFailure String) := do
  match ← Dominators.compute g { dominators := algorithm } with
  | .ok d => return .ok ("\n".intercalate (d.dump g))
  | .error e => return .error (.dominators algorithm e)

/-- Compares the dump of the dominators that both algorithms find. -/
def runDomtree (c : TestCase) : Logged (Except TestFailure Unit) := do
  if !Expectation.hasDirectives c.expected then return .error (.noDirectives .domtree)
  match c.graph with
  | .error e => return .error e
  | .ok g =>
    match ← dominatorDump g .iterative with
    | .error e => return .error e
    | .ok iterative =>
      match ← dominatorDump g .cooper with
      | .error e => return .error e
      | .ok cooper =>
        if iterative = cooper then return c.compare .domtree iterative
        else return .error (.disagreement iterative cooper)

/-- The configuration that the options of a case ask for. -/
def config (c : TestCase) : Except TestFailure Config :=
  c.options.foldlM
    (fun config (key, value) =>
      if key = "unreachable" then
        match UnreachablePolicy.ofName value with
        | .ok policy => .ok { config with unreachable := policy }
        | .error e => .error (.badValue e)
      else if key = "dominators" then
        match DominatorAlgorithm.ofName value with
        | .ok algorithm => .ok { config with dominators := algorithm }
        | .error e => .error (.badValue e)
      else .error (.unknownOption key))
    ({} : Config)

/-- Compares the report. -/
def runGuaranteedDefs (c : TestCase) : Logged (Except TestFailure Unit) := do
  if !Expectation.hasDirectives c.expected then return .error (.noDirectives .guaranteedDefs)
  match c.config with
  | .error e => return .error e
  | .ok config =>
    match c.graph with
    | .error e => return .error e
    | .ok g =>
      match ← Guarantees.compute g config with
      | .error e => return .error (.analysing e)
      | .ok r =>
        let style := if c.hasFlag "units" then ReportStyle.full else ReportStyle.compact
        return c.compare .guaranteedDefs (Report.render g r style)

/-- Runs a case by its command. -/
def run (c : TestCase) : Logged (Except TestFailure Unit) :=
  let name := c.commandName
  if name = "print-cfg" then return c.runPrintCfg
  else if name = "domtree" then c.runDomtree
  else if name = "guaranteed-defs" then c.runGuaranteedDefs
  else return .error (.unknownCommand name)

end TestCase

namespace TestFile

/-- Runs cases in order until one fails, and gives the message of its failure. -/
def runAll : List TestCase → Logged (Except String Unit)
  | [] => return .ok ()
  | c :: later => do
    match ← c.run with
    | .error e => return .error (e.message c)
    | .ok () => runAll later

/-- Runs a test file and counts its cases; a file without cases is a failure. -/
def run (content : String) : Logged (Except String Nat) := do
  match parse content with
  | [] => return .error "No test cases found in test file"
  | c :: later =>
    match ← runAll (c :: later) with
    | .error e => return .error e
    | .ok () => return .ok (later.length + 1)

end TestFile

end DefiniteAssignment
